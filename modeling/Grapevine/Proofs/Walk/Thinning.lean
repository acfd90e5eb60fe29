import Grapevine.Proofs.Walk.Accounts
import Grapevine.Proofs.Walk.Refusal

/-! Walks over words of which some tokens are left out.

A word is thinned to the tokens at some of its positions. If the others do nothing that a walk
shows, and those that are kept do what they did, the thinned word is walked as the whole one is, or
refused as it is, on positions that are lower by what was left out in front of them
(`Walk.Thins.run`). Two kinds of tokens can be left out so: every `]` that the walk has noted
(`walk_without_unmatched`), and every `%` that is carried out, together with what it swallows
(`walk_without_swallowed`). -/
namespace Grapevine

/-! ### Thinned words -/

section
variable (keep : Nat → Prop) [DecidablePred keep]

/-- The tokens at the positions that are kept, if the first one stands at the given position. -/
def thinFrom (i : Nat) (word : List Token) : List Token :=
  ((word.zipIdx i).filter fun p => keep p.2).map Prod.fst

/-- The tokens at the positions that are kept. -/
def thin (word : List Token) : List Token := thinFrom keep 0 word

variable {keep} {word u v : List Token} {t : Token} {i : Nat}

theorem thinFrom_cons_of_keep (h : keep i) :
    thinFrom keep i (t :: word) = t :: thinFrom keep (i + 1) word := by
  simp [thinFrom, List.zipIdx_cons, h]

theorem thinFrom_cons_of_drop (h : ¬ keep i) :
    thinFrom keep i (t :: word) = thinFrom keep (i + 1) word := by
  simp [thinFrom, List.zipIdx_cons, h]

theorem thinFrom_append :
    thinFrom keep i (u ++ v) = thinFrom keep i u ++ thinFrom keep (i + u.length) v := by
  rw [thinFrom, List.zipIdx_append, List.filter_append, List.map_append]
  rfl

theorem thin_append_cons_of_keep (h : keep u.length) :
    thin keep (u ++ t :: v) = thin keep u ++ t :: thinFrom keep (u.length + 1) v := by
  rw [thin, thinFrom_append, Nat.zero_add, thinFrom_cons_of_keep h]
  rfl

theorem length_thin (word : List Token) :
    (thin keep word).length = Nat.count keep word.length := by
  induction word using List.reverseRecOn with
  | nil => rfl
  | append_singleton word t ih =>
    rw [thin, thinFrom_append, Nat.zero_add, List.length_append, List.length_append,
      List.length_singleton, Nat.count_succ]
    by_cases hkeep : keep word.length
    · rw [thinFrom_cons_of_keep hkeep, if_pos hkeep]
      exact congrArg (· + 1) ih
    · rw [thinFrom_cons_of_drop hkeep, if_neg hkeep]
      exact ih

/-- A token that is kept is found as far down as tokens were left out in front of it. -/
theorem getElem?_thin (word : List Token) (h : keep i) :
    (thin keep word)[Nat.count keep i]? = word[i]? := by
  rcases Nat.lt_or_ge i word.length with hlt | hge
  · have hsplit : word = word.take i ++ word[i] :: word.drop (i + 1) := by
      rw [List.getElem_cons_drop, List.take_append_drop]
    have hlen : (word.take i).length = i := List.length_take_of_le hlt.le
    have hcount : (thin keep (word.take i)).length = Nat.count keep i := by rw [length_thin, hlen]
    have hkeep : keep (word.take i).length := by rwa [hlen]
    have hthin := @thin_append_cons_of_keep keep _ _ (word.drop (i + 1)) word[i] hkeep
    rw [← hsplit] at hthin
    rw [hthin, ← hcount, List.getElem?_append_right (Nat.le_refl _), Nat.sub_self,
      List.getElem?_eq_getElem hlt]
    rfl
  · have hcount : (thin keep word).length ≤ Nat.count keep i := by
      rw [length_thin]
      exact Nat.count_monotone keep hge
    rw [List.getElem?_eq_none hcount, List.getElem?_eq_none hge]

theorem thin_congr {other : Nat → Prop} [DecidablePred other] (h : ∀ i, keep i ↔ other i) :
    thin keep word = thin other word := by
  simp only [thin, thinFrom, h]

end

/-- The same fault at another position. -/
def Fault.reindex (f : Nat → Nat) : Fault → Fault
  | unreduced i t => unreduced (f i) t
  | tooDeep i limit => tooDeep (f i) limit
  | fault => fault

namespace Turtle

namespace Walk

variable {cfg : Config} {w w' : Walk} {t : Token} {word u v : List Token} {keep : Nat → Prop}
  [DecidablePred keep]

/-! ### One token -/

/-- The walk as it stands if only some positions are kept. -/
def thinned (keep : Nat → Prop) [DecidablePred keep] (w : Walk) : Walk :=
  { w with
    index := Nat.count keep w.index
    unmatched := (w.unmatched.filter (keep ·)).map (Nat.count keep) }

/-- What comes of a walk, seen through `f`. -/
def seen (keep : Nat → Prop) [DecidablePred keep] (f : Walk → Walk) (r : Except Fault Walk) :
    Except Fault Walk :=
  (r.map f).mapError (.reindex (Nat.count keep))

theorem advance_thinned (hkeep : keep w.index) :
    (w.thinned keep).advance = w.advance.thinned keep := by
  have hcount : Nat.count keep (w.index + 1) = Nat.count keep w.index + 1 := by
    rw [Nat.count_succ, if_pos hkeep]
  simp only [advance, thinned, hcount]

theorem save_thinned (limit : Nat) :
    (w.thinned keep).save limit = seen keep (thinned keep) (w.save limit) := by
  have hsaved : (w.thinned keep).saved = w.saved := rfl
  rw [save, save, hsaved]
  split <;> rfl

theorem restore_thinned (hkeep : keep w.index) :
    (w.thinned keep).restore = w.restore.thinned keep := by
  have hsaved : (w.thinned keep).saved = w.saved := rfl
  rw [restore, restore, hsaved]
  split
  · rfl
  · simp only [thinned, Array.filter_push, hkeep, decide_true, if_true, Array.map_push]

theorem act_thinned (hkeep : keep w.index) (action : Action) :
    (w.thinned keep).act cfg t action = seen keep (thinned keep) (w.act cfg t action) := by
  cases action with
  | save => exact save_thinned _
  | restore => exact congrArg Except.ok (restore_thinned hkeep)
  | _ => rfl

theorem act_index {action : Action} (h : w.act cfg t action = .ok w') : w'.index = w.index := by
  cases action with
  | save =>
    rw [act, save] at h
    split at h <;> cases h
    rfl
  | restore =>
    rw [act, restore] at h
    split at h <;> cases h <;> rfl
  | _ =>
    cases h
    rfl

/-- **A token that is kept does what it did.** -/
theorem step_thinned (hkeep : keep w.index) :
    step cfg (w.thinned keep) t = seen keep (thinned keep) (step cfg w t) := by
  rw [step, step]
  cases Action.ofSymbol? t.symbol with
  | none => rfl
  | some action =>
    have hskipping : (w.thinned keep).skipping = w.skipping := rfl
    simp only [hskipping]
    split
    · exact congrArg Except.ok (@advance_thinned { w with skipping := false } keep _ hkeep)
    · rw [act_thinned hkeep]
      cases hact : w.act cfg t action with
      | error fault => rfl
      | ok v =>
        refine congrArg Except.ok (advance_thinned ?_)
        rwa [act_index hact]

theorem thinned_start (cfg : Config) : (start cfg).thinned keep = start cfg := by
  simp [thinned, start]

/-- Positions that are left out do not count. -/
theorem thinned_advance (hdrop : ¬ keep w.index) : w.advance.thinned keep = w.thinned keep := by
  have hcount : Nat.count keep (w.index + 1) = Nat.count keep w.index := by
    rw [Nat.count_succ, if_neg hdrop, Nat.add_zero]
  simp only [advance, thinned, hcount]

/-! ### Whole words -/

/-- Seen through `f`, tokens that are kept do what they did, and nothing is seen of the others. -/
structure Thins (cfg : Config) (keep : Nat → Prop) [DecidablePred keep] (f : Walk → Walk)
    (word : List Token) : Prop where
  kept : ∀ u t v w, word = u ++ t :: v → Run cfg (start cfg) u w → keep w.index →
    step cfg (f w) t = seen keep f (step cfg w t)
  dropped : ∀ u t v w, word = u ++ t :: v → Run cfg (start cfg) u w → ¬ keep w.index →
    ∃ w', Step cfg w t w' ∧ f w' = f w

theorem Thins.run_behind {f : Walk → Walk} (h : Thins cfg keep f word) (hword : word = u ++ v)
    (hu : Run cfg (start cfg) u w) :
    run cfg (f w) (thinFrom keep w.index v) = seen keep f (run cfg w v) := by
  induction v generalizing u w with
  | nil => rfl
  | cons t v ih =>
    have hnext : ∀ {w'}, Step cfg w t w' →
        run cfg (f w') (thinFrom keep (w.index + 1) v) = seen keep f (run cfg w' v) := by
      intro w' hstep
      rw [← hstep.index]
      exact ih (u := u ++ [t]) (w := w') (by rw [hword, List.append_assoc, List.singleton_append])
        (run_append_iff.mpr ⟨w, hu, .cons hstep (.nil _)⟩)
    rw [run_cons]
    by_cases hkeep : keep w.index
    · rw [thinFrom_cons_of_keep hkeep, run_cons, h.kept u t v w hword hu hkeep]
      cases hstep : step cfg w t with
      | error fault => rfl
      | ok w' => exact hnext (step_eq_ok_iff.mp hstep)
    · obtain ⟨w', hstep, hsame⟩ := h.dropped u t v w hword hu hkeep
      rw [thinFrom_cons_of_drop hkeep, ← hsame, hnext hstep, step_eq_ok_iff.mpr hstep]
      rfl

/-- **The thinned word is walked as the whole one is.** -/
theorem Thins.run {f : Walk → Walk} (h : Thins cfg keep f word) :
    run cfg (f (start cfg)) (thin keep word) = seen keep f (run cfg (start cfg) word) :=
  h.run_behind rfl (.nil _)

/-! ### Without the brackets that are noted -/

theorem thinned_unmatched (hdrop : ¬ keep w.index) :
    { w with unmatched := w.unmatched.push w.index }.thinned keep = w.thinned keep := by
  simp only [thinned, Array.filter_push, hdrop, decide_false, Bool.false_eq_true, if_false]

theorem thins_unopened (cfg : Config) (word : List Token) :
    Thins cfg (¬ Unopened word ·) (thinned (¬ Unopened word ·)) word where
  kept _ _ _ _ _ _ hkeep := step_thinned hkeep
  dropped u t v w hword hu hdrop := by
    have hindex : w.index = u.length := hu.index_eq_length
    have hunopened := not_not.mp hdrop
    rw [hword, hindex, unopened_length_iff] at hunopened
    obtain ⟨⟨ht, hawake⟩, hopened⟩ := hunopened
    have hsaved : w.saved = [] := List.eq_nil_of_length_eq_zero (hu.length_saved_eq.trans hopened)
    refine ⟨_, .unmatched (hu.skipping.trans hawake) ht hsaved, ?_⟩
    rw [thinned_advance hdrop, thinned_unmatched hdrop]

end Walk

/-- **The brackets that a walk notes do nothing.** Without them the word is walked in the same way,
and nothing is noted. Their positions increase, and each is that of a `]`. -/
theorem walk_without_unmatched {cfg : Config} {word : List Token} {trail : Trail}
    (h : walk cfg word = .ok trail) :
    walk cfg (thin (· ∉ trail.unmatched) word) = .ok { trail with unmatched := #[] } ∧
    trail.unmatched.Pairwise (· < ·) ∧
    ∀ i ∈ trail.unmatched, ∃ t, word[i]? = some t ∧ t.symbol = .pop := by
  obtain ⟨w, hrun, rfl⟩ := Walk.walk_eq_ok_iff.mp h
  have hnoted : ∀ i, i ∈ w.trail.unmatched ↔ Unopened word i := fun i => hrun.mem_unmatched_iff
  refine ⟨?_, hrun.pairwise_unmatched, fun i hi => ?_⟩
  · have hnone : w.unmatched.filter (¬ Unopened word ·) = #[] :=
      Array.filter_eq_empty_iff.mpr fun i hi => by simpa using (hnoted i).mp hi
    have hthin := (Walk.thins_unopened cfg word).run
    rw [Walk.run_eq_ok_iff.mpr hrun, Walk.thinned_start] at hthin
    rw [thin_congr fun i => not_congr (hnoted i), walk, hthin]
    show Except.ok (Walk.trail (w.thinned _)) = _
    rw [Walk.thinned, hnone, Array.map_empty]
    rfl
  · exact Option.map_eq_some_iff.mp ((hnoted i).mp hi).1.symbol

/-- What a `%` swallows in front of a bracket that is left out, or behind it, it swallows still. -/
theorem walk_without_unmatched_skips : ∃ trail,
    walk {} [.bare .pop, .bare .skip, .bare .pop, .bare .forward, .bare .pop, .bare .skip,
      .bare .push, .bare .pop, .bare .berry] = .ok trail ∧
    trail.unmatched = #[0, 4, 7] ∧
    walk {} [.bare .skip, .bare .pop, .bare .forward, .bare .skip, .bare .push, .bare .berry] =
      .ok { trail with unmatched := #[] } := by
  obtain ⟨trail, hwalk, hunmatched⟩ : ∃ trail,
      walk {} [.bare .pop, .bare .skip, .bare .pop, .bare .forward, .bare .pop, .bare .skip,
        .bare .push, .bare .pop, .bare .berry] = .ok trail ∧ trail.unmatched = #[0, 4, 7] :=
    ⟨_, rfl, rfl⟩
  have hwithout := (walk_without_unmatched hwalk).1
  rw [hunmatched] at hwithout
  refine ⟨trail, hwalk, hunmatched, ?_⟩
  simpa [thin, thinFrom] using hwithout

end Turtle

/-! ### Without what is swallowed -/

/-- The token at a position is swallowed, or is a `%` that is carried out. -/
def Vanishes (word : List Token) (i : Nat) : Prop :=
  pending false (word.take i) = true ∨ Carries word i .skip

instance (word : List Token) (i : Nat) : Decidable (Vanishes word i) :=
  inferInstanceAs (Decidable (_ ∨ _))

theorem vanishes_length_iff {u v : List Token} {t : Token} :
    Vanishes (u ++ t :: v) u.length ↔ pending false u = true ∨ t.symbol = .skip := by
  rw [Vanishes, carries_length_iff, List.take_left]
  cases pending false u <;> simp

theorem not_vanishes_of_unopened {word : List Token} {i : Nat} (h : Unopened word i) :
    ¬ Vanishes word i := by
  rintro (hpending | hskip)
  · rw [h.1.awake] at hpending
    cases hpending
  · have hsymbol := h.1.symbol
    rw [hskip.symbol] at hsymbol
    cases hsymbol

namespace Turtle

open Grammar

namespace Walk

variable {cfg : Config} {w : Walk} {t : Token} {word : List Token} {keep : Nat → Prop}
  [DecidablePred keep]

/-- The walk, if nothing is to be swallowed. -/
def wake (w : Walk) : Walk := { w with skipping := false }

theorem wake_of_awake (h : w.skipping = false) : w.wake = w := by
  rw [wake, ← h]

/-- What is to be swallowed is not seen. -/
theorem wake_thinned_advance (hdrop : ¬ keep w.index) (skipping : Bool) :
    ({ w with skipping }.advance.thinned keep).wake = (w.thinned keep).wake := by
  rw [thinned_advance (w := { w with skipping }) hdrop]
  rfl

theorem thins_vanishing (cfg : Config) (hword : Reduced word) :
    Thins cfg (¬ Vanishes word ·) (fun w => (w.thinned (¬ Vanishes word ·)).wake) word where
  kept u t v w hsplit hu hkeep := by
    have hindex : w.index = u.length := hu.index_eq_length
    have hkept := hkeep
    rw [hsplit, hindex, vanishes_length_iff, not_or, Bool.not_eq_true] at hkept
    -- Neither this token nor the one behind it is swallowed.
    have hawake : w.skipping = false := hu.skipping.trans hkept.1
    rw [wake_of_awake (w := w.thinned _) hawake, step_thinned hkeep]
    cases hstep : step cfg w t with
    | error fault => rfl
    | ok w' =>
      have hawake' : w'.skipping = false := by
        rw [(step_eq_ok_iff.mp hstep).skipping, hawake]
        exact decide_eq_false hkept.2
      exact congrArg Except.ok (wake_of_awake (w := w'.thinned _) hawake').symm
  dropped u t v w hsplit hu hdrop := by
    have hindex : w.index = u.length := hu.index_eq_length
    have hpending : pending false u = w.skipping := hu.skipping.symm
    have hterminal : t.isNonterminal = false := hword t (by rw [hsplit]; simp)
    have hvanishes := not_not.mp hdrop
    rw [hsplit, hindex, vanishes_length_iff, hpending] at hvanishes
    cases hskip : w.skipping with
    | true =>
      exact ⟨_, .swallowed hskip hterminal, wake_thinned_advance hdrop false⟩
    | false =>
      rw [hskip] at hvanishes
      have ht : t.symbol = .skip := hvanishes.resolve_left Bool.false_ne_true
      exact ⟨_, .skipped hskip ht, wake_thinned_advance hdrop true⟩

end Walk

/-- **To swallow is to erase.** Without what is swallowed, and what swallows it, a word of terminals
is walked in the same way, or refused for the same branch; only the positions are those of the
shorter word, in which every token that is kept is found. -/
theorem walk_without_swallowed (cfg : Config) {word : List Token} (hword : Reduced word) :
    (∀ trail, walk cfg word = .ok trail → walk cfg (thin (¬ Vanishes word ·) word) =
      .ok { trail with unmatched := trail.unmatched.map (Nat.count (¬ Vanishes word ·)) }) ∧
    (∀ fault, walk cfg word = .error fault → ∃ i, fault = .tooDeep i cfg.maxStackDepth ∧
      walk cfg (thin (¬ Vanishes word ·) word) =
        .error (.tooDeep (Nat.count (¬ Vanishes word ·) i) cfg.maxStackDepth)) ∧
    ∀ i, ¬ Vanishes word i →
      (thin (¬ Vanishes word ·) word)[Nat.count (¬ Vanishes word ·) i]? = word[i]? := by
  have hthin := (Walk.thins_vanishing cfg hword).run
  rw [Walk.thinned_start, Walk.wake_of_awake rfl] at hthin
  refine ⟨fun trail h => ?_, fun fault h => ?_, fun i hi => getElem?_thin word hi⟩
  · obtain ⟨w, hrun, rfl⟩ := Walk.walk_eq_ok_iff.mp h
    have hall : w.unmatched.filter (¬ Vanishes word ·) = w.unmatched :=
      Array.filter_eq_self.mpr fun i hi => by
        simpa using not_vanishes_of_unopened (hrun.mem_unmatched_iff.mp hi)
    rw [walk, hthin, Walk.run_eq_ok_iff.mpr hrun]
    show Except.ok (Walk.trail (w.thinned _).wake) = _
    rw [Walk.thinned, hall]
    rfl
  · obtain ⟨i, hfirst⟩ := firstOffence_of_walk h
    have hoffends := hfirst.offends
    cases hoffends with
    | unreduced hget ht =>
      rw [hword _ (List.mem_of_getElem? hget)] at ht
      cases ht
    | tooDeep =>
      rw [Walk.walk_eq_error_iff.mp h] at hthin
      exact ⟨i, rfl, Walk.walk_eq_error_iff.mpr hthin⟩

/-- A `%` swallows another one, a bracket, or nothing at the end. -/
theorem walk_without_swallowed_chain :
    walk {} [.bare .pop, .bare .push, .bare .push] = .ok
      { events := #[.branchOpen 1, .branchOpen 2]
        skeleton := .ofRoot .zero .halfTurnX 0.1
        unmatched := #[0]
        openBranches := 2 } ∧
    walk { maxStackDepth := 1 } [.bare .pop, .bare .push, .bare .push] =
      .error (.tooDeep 2 1) := by
  have hreduced : Reduced [.bare .skip, .bare .skip, .bare .pop, .bare .push, .bare .skip,
      .bare .pop, .bare .push, .bare .skip] := by unfold Reduced; decide
  have hok := (walk_without_swallowed {} hreduced).1
    { events := #[.branchOpen 1, .branchOpen 2]
      skeleton := .ofRoot .zero .halfTurnX 0.1
      unmatched := #[2]
      openBranches := 2 } rfl
  obtain ⟨i, hi, hdeep⟩ :=
    (walk_without_swallowed { maxStackDepth := 1 } hreduced).2.1 (.tooDeep 6 1) rfl
  cases hi
  rw [List.map_toArray] at hok
  exact ⟨hok, hdeep⟩

end Turtle
end Grapevine
