import Grapevine.Proofs.Grammar.Duration
import Grapevine.Proofs.Walk.Stack

/-! What is wrong with a word.

A word can offend in two ways, and where it does can be read off its tokens: no walk is needed to
tell (`Offends`). A walk is refused at the first offence and for that one, and goes through where
there is none (`walk_refuses_first_offence`). -/
namespace Grapevine

open Grammar

/-- How many branches are open behind these brackets, if so many are open in front of them. A `]`
closes nothing where nothing is open. -/
def height : Nat → List Bracket → Nat
  | n, [] => n
  | n, .opening :: word => height (n + 1) word
  | n, .closing :: word => height (n - 1) word

theorem height_eq_excess (n : Nat) (word : List Bracket) :
    height n word = (excess word).opened + (n - (excess word).closed) := by
  induction word generalizing n with
  | nil => exact (Nat.zero_add n).symm
  | cons b word ih =>
    -- The first bracket changes the height in front of the rest, and the excess from the left.
    rw [excess_cons, Excess.mul_def]
    cases b with
    | opening =>
      rw [height, ih]
      show _ = _ + (1 - _) + (n - (0 + (_ - 1)))
      omega
    | closing =>
      rw [height, ih]
      show _ = _ + (0 - _) + (n - (1 + (_ - 0)))
      omega

namespace Turtle

variable {cfg : Config} {limit i j : Nat} {word u v : List Token} {t : Token} {fault : Fault}

/-- What is wrong at one place of a word: a non-terminal, even one that would be swallowed, or a
branch that is opened where so many are open already. -/
inductive Offends (limit : Nat) (word : List Token) (i : Nat) : Fault → Prop where
  | unreduced {t : Token} (hget : word[i]? = some t) (ht : t.isNonterminal = true) :
      Offends limit word i (.unreduced i t)
  | tooDeep {t : Token} (hget : word[i]? = some t) (ht : t.symbol = .push)
      (hawake : pending false (word.take i) = false)
      (hfull : limit ≤ height 0 (brackets false (word.take i))) :
      Offends limit word i (.tooDeep i limit)

namespace Walk

variable {w w' : Walk}

/-! ### Refused tokens -/

/-- A token that the walk does not get past. -/
inductive Refuses (cfg : Config) (w : Walk) (t : Token) : Fault → Prop where
  | unreduced (ht : t.isNonterminal = true) : Refuses cfg w t (.unreduced w.index t)
  | tooDeep (hawake : w.skipping = false) (ht : t.symbol = .push)
      (hfull : cfg.maxStackDepth ≤ w.saved.length) :
      Refuses cfg w t (.tooDeep w.index cfg.maxStackDepth)

theorem step_of_nonterminal (ht : t.isNonterminal = true) :
    step cfg w t = .error (.unreduced w.index t) := by
  have hnone : Action.ofSymbol? t.symbol = none := by
    rw [← Option.isNone_iff_eq_none, Action.isNone_ofSymbol?]
    exact ht
  simp only [step, hnone]

theorem step_eq_error_iff : step cfg w t = .error fault ↔ Refuses cfg w t fault := by
  apply Iff.intro
  · intro h
    cases hterminal : t.isNonterminal with
    | true =>
      rw [step_of_nonterminal hterminal] at h
      cases h
      exact .unreduced hterminal
    | false =>
      cases hskip : w.skipping with
      | true =>
        rw [step_of_swallowed hskip hterminal] at h
        cases h
      | false =>
        obtain ⟨symbol, params⟩ := t
        cases symbol with
        | push =>
          rw [step_eq_act hskip rfl, act, save] at h
          split at h
          · rename_i hfull
            cases h
            exact .tooDeep hskip rfl hfull
          · cases h
        | bud | segment => cases hterminal
        | _ =>
          rw [step_eq_act hskip rfl] at h
          cases h
  · intro h
    cases h with
    | unreduced ht => exact step_of_nonterminal ht
    | tooDeep hawake ht hfull =>
      rw [step_eq_act hawake (congrArg Action.ofSymbol? ht), act, save, if_pos hfull]
      rfl

/-- A run that fails has come to a token that it does not get past. -/
theorem refuses_of_run (h : run cfg w word = .error fault) :
    ∃ u t v w', word = u ++ t :: v ∧ Run cfg w u w' ∧ Refuses cfg w' t fault := by
  induction word generalizing w with
  | nil => cases h
  | cons t word ih =>
    rw [run_cons] at h
    cases hstep : step cfg w t with
    | error fault' =>
      rw [hstep] at h
      cases h
      exact ⟨[], t, word, w, rfl, .nil w, step_eq_error_iff.mp hstep⟩
    | ok w₁ =>
      rw [hstep] at h
      obtain ⟨u, x, v, w', rfl, hrun, hrefuses⟩ := ih h
      exact ⟨t :: u, x, v, w', rfl, .cons (step_eq_ok_iff.mp hstep) hrun, hrefuses⟩

/-! ### Offences -/

/-- The brackets that were carried out tell how many cursors are saved. -/
theorem Run.length_saved (h : Run cfg w word w') :
    w'.saved.length = height w.saved.length (brackets w.skipping word) :=
  h.unwinds.length_saved.trans (height_eq_excess _ _).symm

/-- **A walk refuses what offends in the word**, as far as it has come. -/
theorem refuses_iff_offends (h : Run cfg (start cfg) u w) :
    Refuses cfg w t fault ↔ Offends cfg.maxStackDepth (u ++ t :: v) u.length fault := by
  have hindex : w.index = u.length := h.index_eq_length
  have hskipping : w.skipping = pending false u := h.skipping
  have hheight : w.saved.length = height 0 (brackets false u) := h.length_saved
  have hget : (u ++ t :: v)[u.length]? = some t := by simp
  have htake : (u ++ t :: v).take u.length = u := by simp
  apply Iff.intro
  · intro hrefuses
    cases hrefuses with
    | unreduced ht =>
      rw [hindex]
      exact .unreduced hget ht
    | tooDeep hawake ht hfull =>
      rw [hindex]
      exact .tooDeep hget ht (by rw [htake, ← hskipping, hawake]) (by rw [htake, ← hheight]; exact hfull)
  · intro hoffends
    cases hoffends with
    | unreduced hget' ht =>
      cases hget'.symm.trans hget
      rw [← hindex]
      exact .unreduced ht
    | tooDeep hget' ht hawake hfull =>
      cases hget'.symm.trans hget
      rw [htake] at hawake hfull
      rw [← hindex]
      exact .tooDeep (hskipping.trans hawake) ht (hheight ▸ hfull)

/-- Nothing offends in what was walked. -/
theorem not_offends_of_run (h : Run cfg (start cfg) u w) (hj : j < u.length) :
    ¬ Offends cfg.maxStackDepth (u ++ v) j fault := by
  intro hoffends
  obtain ⟨front, t, rest, rfl, rfl⟩ : ∃ front t rest, u = front ++ t :: rest ∧ front.length = j :=
    ⟨u.take j, u[j], u.drop (j + 1), by simp, by simp [hj.le]⟩
  -- An offence would have been refused, but the walk got past this token.
  obtain ⟨x, hx, hrest⟩ := run_append_iff.mp h
  rw [List.append_assoc, List.cons_append] at hoffends
  have hrefuses := step_eq_error_iff.mpr ((refuses_iff_offends hx).mpr hoffends)
  cases hrest with
  | cons hstep _ =>
    rw [step_eq_ok_iff.mpr hstep] at hrefuses
    cases hrefuses

/-- What was walked under one limit is walked in the same way under a higher one. -/
theorem Step.raise (h : Step cfg w t w') (hle : cfg.maxStackDepth ≤ limit) :
    Step { cfg with maxStackDepth := limit } w t w' := by
  cases h with
  | swallowed hskip ht => exact .swallowed hskip ht
  | drawn hawake ht => exact .drawn hawake ht
  | hung hawake ht => exact .hung hawake ht
  | turned hawake ht => exact .turned hawake ht
  | widened hawake ht => exact .widened hawake ht
  | saved hawake ht hroom => exact .saved hawake ht (hroom.trans_le hle)
  | restored hawake ht hsaved => exact .restored hawake ht hsaved
  | unmatched hawake ht hsaved => exact .unmatched hawake ht hsaved
  | skipped hawake ht => exact .skipped hawake ht

theorem Run.raise (h : Run cfg w word w') (hle : cfg.maxStackDepth ≤ limit) :
    Run { cfg with maxStackDepth := limit } w word w' := by
  induction h with
  | nil w => exact .nil w
  | cons hstep _ ih => exact .cons (hstep.raise hle) ih

end Walk

/-- One token offends in one way only. -/
theorem Offends.unique {fault' : Fault} (h : Offends limit word i fault)
    (h' : Offends limit word i fault') : fault = fault' := by
  cases h with
  | unreduced hget ht =>
    cases h' with
    | unreduced hget' => cases hget.symm.trans hget'; rfl
    | tooDeep hget' ht' =>
      cases hget.symm.trans hget'
      rw [Token.isNonterminal, ht'] at ht
      cases ht
  | tooDeep hget ht =>
    cases h' with
    | unreduced hget' ht' =>
      cases hget.symm.trans hget'
      rw [Token.isNonterminal, ht] at ht'
      cases ht'
    | tooDeep => rfl

/-- The first offence of a word. -/
structure FirstOffence (limit : Nat) (word : List Token) (i : Nat) (fault : Fault) : Prop where
  offends : Offends limit word i fault
  before : ∀ j < i, ∀ other, ¬ Offends limit word j other

theorem FirstOffence.unique {fault' : Fault} (h : FirstOffence limit word i fault)
    (h' : FirstOffence limit word j fault') : fault = fault' := by
  rcases Nat.lt_trichotomy i j with hlt | rfl | hlt
  · exact absurd h.offends (h'.before i hlt fault)
  · exact h.offends.unique h'.offends
  · exact absurd h'.offends (h.before j hlt fault')

theorem not_offends_of_walk {trail : Trail} (h : walk cfg word = .ok trail) (i : Nat)
    (fault : Fault) : ¬ Offends cfg.maxStackDepth word i fault := by
  intro hoffends
  obtain ⟨w, hrun, _⟩ := Walk.walk_eq_ok_iff.mp h
  have hi : i < word.length := by
    cases hoffends with
    | unreduced hget | tooDeep hget => exact (List.getElem?_eq_some_iff.mp hget).1
  have hnone := @Walk.not_offends_of_run cfg i word [] fault w hrun hi
  rw [List.append_nil] at hnone
  exact hnone hoffends

theorem firstOffence_of_walk (h : walk cfg word = .error fault) :
    ∃ i, FirstOffence cfg.maxStackDepth word i fault := by
  obtain ⟨u, t, v, w, rfl, hu, hrefuses⟩ := Walk.refuses_of_run (Walk.walk_eq_error_iff.mp h)
  exact ⟨u.length, (Walk.refuses_iff_offends hu).mp hrefuses,
    fun j hj other => Walk.not_offends_of_run hu hj⟩

theorem walk_eq_ok_iff_not_offends :
    (∃ trail, walk cfg word = .ok trail) ↔ ∀ i fault, ¬ Offends cfg.maxStackDepth word i fault := by
  apply Iff.intro
  · intro h
    obtain ⟨_, htrail⟩ := h
    exact not_offends_of_walk htrail
  · intro hnone
    cases h : walk cfg word with
    | ok trail => exact ⟨trail, rfl⟩
    | error fault =>
      obtain ⟨i, hfirst⟩ := firstOffence_of_walk h
      exact absurd hfirst.offends (hnone i fault)

theorem walk_eq_error_iff_firstOffence :
    walk cfg word = .error fault ↔ ∃ i, FirstOffence cfg.maxStackDepth word i fault := by
  refine ⟨firstOffence_of_walk, fun hfirst => ?_⟩
  obtain ⟨i, hi⟩ := hfirst
  cases h : walk cfg word with
  | ok trail => exact absurd hi.offends (not_offends_of_walk h i fault)
  | error other =>
    obtain ⟨j, hj⟩ := firstOffence_of_walk h
    rw [hi.unique hj]

/-- A word that is not reduced is refused for its first non-terminal, unless a branch in front of it
is too deep. -/
theorem walk_of_checkReduced (h : checkReduced word = .error (.unreduced i t))
    (hroom : ∀ j < i, ¬ Offends cfg.maxStackDepth word j (.tooDeep j cfg.maxStackDepth)) :
    walk cfg word = .error (.unreduced i t) := by
  have hred : ¬ Reduced word := by
    intro hred
    rw [checkReduced_of_reduced hred] at h
    cases h
  obtain ⟨index, x, hfirst, hcheck⟩ := checkReduced_of_not_reduced hred
  rw [hcheck] at h
  cases h
  refine walk_eq_error_iff_firstOffence.mpr ⟨i, .unreduced hfirst.found hfirst.nonterminal, ?_⟩
  intro j hj other hoffends
  cases hoffends with
  | unreduced hget ht =>
    rw [hfirst.before j hj _ hget] at ht
    cases ht
  | tooDeep hget ht hawake hfull => exact hroom j hj (.tooDeep hget ht hawake hfull)

theorem walk_raise {trail : Trail} (h : walk cfg word = .ok trail)
    (hle : cfg.maxStackDepth ≤ limit) :
    walk { cfg with maxStackDepth := limit } word = .ok trail := by
  obtain ⟨w, hrun, rfl⟩ := Walk.walk_eq_ok_iff.mp h
  exact Walk.walk_eq_ok_iff.mpr ⟨w, hrun.raise hle, rfl⟩

/-- **A walk is refused for the first offence of its word, and for nothing else.** The offence of a
word that is not reduced is the one that is named without a walk, unless a branch in front of it is
too deep; and a higher limit changes nothing about a word that was walked. -/
theorem walk_refuses_first_offence (cfg : Config) (word : List Token) :
    ((∃ trail, walk cfg word = .ok trail) ↔
      ∀ i fault, ¬ Offends cfg.maxStackDepth word i fault) ∧
    (∀ fault, walk cfg word = .error fault ↔
      ∃ i, FirstOffence cfg.maxStackDepth word i fault) ∧
    (∀ i t, checkReduced word = .error (.unreduced i t) →
      (∀ j < i, ¬ Offends cfg.maxStackDepth word j (.tooDeep j cfg.maxStackDepth)) →
        walk cfg word = .error (.unreduced i t)) ∧
    ∀ trail limit, walk cfg word = .ok trail → cfg.maxStackDepth ≤ limit →
      walk { cfg with maxStackDepth := limit } word = .ok trail :=
  ⟨walk_eq_ok_iff_not_offends, fun _ => walk_eq_error_iff_firstOffence,
    fun _ _ => walk_of_checkReduced, fun _ _ => walk_raise⟩

/-- A `]` that closes nothing makes no room, and a `[` that is swallowed takes none. With room for
one branch, the second one is the first offence; with room for two, it is the bud, swallowed or
not. Without these two the word is walked in the same way. -/
theorem walk_refuses_first_offence_bracket :
    walk { maxStackDepth := 1 } [.bare .pop, .bare .push, .bare .skip, .bare .push, .bare .push,
      .bare .skip, .bud .tip []] = .error (.tooDeep 4 1) ∧
    walk { maxStackDepth := 2 } [.bare .pop, .bare .push, .bare .skip, .bare .push, .bare .push,
      .bare .skip, .bud .tip []] = .error (.unreduced 6 (.bud .tip [])) ∧
    ∃ trail, walk { maxStackDepth := 1 } [.bare .pop, .bare .push, .bare .skip, .bare .push] =
        .ok trail ∧
      walk { maxStackDepth := 2 } [.bare .pop, .bare .push, .bare .skip, .bare .push] =
        .ok trail := by
  refine ⟨?_, ?_, _, rfl, ?_⟩
  · refine ((walk_refuses_first_offence _ _).2.1 _).mpr
      ⟨4, .tooDeep rfl rfl rfl (by decide), fun j hj other hoffends => ?_⟩
    cases hoffends with
    | unreduced hget ht => interval_cases j <;> cases hget <;> cases ht
    | tooDeep hget ht hawake hfull =>
      interval_cases j
      · exact absurd hfull (by decide)
      · exact absurd hfull (by decide)
      · cases hget
        cases ht
      · cases hawake
  · refine (walk_refuses_first_offence _ _).2.2.1 6 _ rfl fun j hj hoffends => ?_
    cases hoffends with
    | tooDeep hget ht hawake hfull =>
      interval_cases j
      iterate 5 exact absurd hfull (by decide)
      cases hget
      cases ht
  · exact (walk_refuses_first_offence { maxStackDepth := 1 } _).2.2.2 _ 2 rfl (by decide)

end Turtle

end Grapevine
