import Grapevine.Proofs.Walk.Step

/-! The stack of saved cursors.

A word takes as many cursors off the stack as it has brackets `]` left over, and leaves as many new
ones as it has brackets `[` left over (`Run.unwinds`). A branch that leaves nothing over takes the
turtle back to where it was (`returns_of_branch`). -/
namespace Grapevine.Turtle.Walk

variable {cfg : Config} {w v w' : Walk} {t : Token} {word : List Token}

/-- So many cursors were taken off the stack, and so many put on what was left. A `]` finds a cursor
as long as there are some. -/
structure Unwinds (e : Excess) (w w' : Walk) : Prop where
  saved : ∃ fresh, fresh.length = e.opened ∧ w'.saved = fresh ++ w.saved.drop e.closed
  unmatched : e.closed ≤ w.saved.length → w'.unmatched = w.unmatched

theorem unwinds_one (hsaved : w'.saved = w.saved) (hunmatched : w'.unmatched = w.unmatched) :
    Unwinds 1 w w' where
  saved := ⟨[], rfl, hsaved⟩
  unmatched _ := hunmatched

theorem Unwinds.length_saved {e : Excess} (h : Unwinds e w w') :
    w'.saved.length = e.opened + (w.saved.length - e.closed) := by
  obtain ⟨fresh, hfresh, hsaved⟩ := h.saved
  rw [hsaved, List.length_append, hfresh, List.length_drop]

/-- Words behind one another unwind by the product of their excesses. -/
theorem Unwinds.trans {d e : Excess} (h : Unwinds d w v) (h' : Unwinds e v w') :
    Unwinds (d * e) w w' := by
  obtain ⟨fresh, hfresh, hsaved⟩ := h.saved
  obtain ⟨fresh', hfresh', hsaved'⟩ := h'.saved
  have hlen := h.length_saved
  rw [Excess.mul_def]
  refine ⟨⟨fresh' ++ fresh.drop e.closed, ?_, ?_⟩, fun hle => ?_⟩
  · rw [List.length_append, List.length_drop, hfresh, hfresh']
  · rw [hsaved', hsaved, List.drop_append, hfresh, List.drop_drop, List.append_assoc]
  · have hclosed : d.closed + (e.closed - d.opened) ≤ w.saved.length := hle
    rw [h'.unmatched (by omega), h.unmatched (by omega)]

theorem brackets_awake (hawake : w.skipping = false) :
    brackets w.skipping [t] = (Bracket.ofSymbol? t.symbol).toList := by
  rw [hawake, brackets_cons]
  exact List.append_nil _

/-- A token unwinds the saved cursors by the excess of its bracket. -/
theorem Step.unwinds (h : Step cfg w t w') : Unwinds (excess (brackets w.skipping [t])) w w' := by
  cases h with
  | swallowed hskip =>
    rw [hskip]
    exact unwinds_one rfl rfl
  | drawn hawake ht | hung hawake ht | widened hawake ht | skipped hawake ht =>
    rw [brackets_awake hawake, ht]
    exact unwinds_one rfl rfl
  | turned hawake ht =>
    have hbracket : Bracket.ofSymbol? t.symbol = none := by
      obtain ⟨symbol, params⟩ := t
      cases symbol <;> first | rfl | cases ht
    rw [brackets_awake hawake, hbracket]
    exact unwinds_one rfl rfl
  | saved hawake ht =>
    rw [brackets_awake hawake, ht]
    exact ⟨⟨[w.turtle], rfl, rfl⟩, fun _ => rfl⟩
  | restored hawake ht hsaved =>
    rw [brackets_awake hawake, ht]
    exact ⟨⟨[], rfl, congrArg (List.drop 1) hsaved.symm⟩, fun _ => rfl⟩
  | unmatched hawake ht hsaved =>
    rw [brackets_awake hawake, ht]
    refine ⟨⟨[], rfl, ?_⟩, fun hle => ?_⟩
    · show w.saved = w.saved.drop 1
      rw [hsaved]
      rfl
    · rw [hsaved] at hle
      exact absurd hle (Nat.not_succ_le_zero 0)

/-- **The brackets left over tell the stack.** -/
theorem Run.unwinds (h : Run cfg w word w') :
    Unwinds (excess (brackets w.skipping word)) w w' := by
  induction h with
  | nil w => cases w.skipping <;> exact unwinds_one rfl rfl
  | cons ht _ ih =>
    -- Which brackets of the rest count, the first token decides.
    rw [ht.skipping] at ih
    have hboth := ht.unwinds.trans ih
    rw [← excess_append, ← brackets_append] at hboth
    exact hboth

/-- Only a `]` that was passed is noted. -/
theorem Step.unmatched_lt (h : Step cfg w t w') (hw : ∀ i ∈ w.unmatched, i < w.index) :
    ∀ i ∈ w'.unmatched, i < w'.index := by
  intro i hi
  rw [h.index]
  cases h with
  | unmatched =>
    rcases Array.mem_push.mp hi with hmem | rfl
    · exact (hw i hmem).trans (Nat.lt_succ_self _)
    · exact Nat.lt_succ_self _
  | _ => exact (hw i hi).trans (Nat.lt_succ_self _)

/-- Brackets are noted behind those noted before. -/
theorem Run.unmatched_lt (h : Run cfg w word w') (hw : ∀ i ∈ w.unmatched, i < w.index) :
    ∀ i ∈ w'.unmatched, i < w'.index :=
  h.keeps (P := fun w => ∀ i ∈ w.unmatched, i < w.index) Step.unmatched_lt hw

/-! ### Branches -/

/-- A `[` saves the cursor and does nothing else. -/
theorem saved_of_push (h : Step cfg w t w') (hawake : w.skipping = false) (ht : t.symbol = .push) :
    w' = { w with
      saved := w.turtle :: w.saved
      events := w.events.push (.branchOpen (w.saved.length + 1)) }.advance := by
  have haction : Action.ofSymbol? t.symbol = some .save := congrArg Action.ofSymbol? ht
  rw [← step_eq_ok_iff, step_eq_act hawake haction, act, save] at h
  split at h
  · cases h
  · cases h
    rfl

/-- A `]` goes back to the cursor saved last and does nothing else. -/
theorem restored_of_pop {turtle : Turtle} {saved : List Turtle} (h : Step cfg w t w')
    (hawake : w.skipping = false) (ht : t.symbol = .pop) (hsaved : w.saved = turtle :: saved) :
    w' = { w with turtle, saved, events := w.events.push (.branchClose saved.length) }.advance := by
  have hrestored := step_eq_ok_iff.mpr (@Step.restored cfg w t hawake ht turtle saved hsaved)
  rw [step_eq_ok_iff.mpr h] at hrestored
  exact Except.ok.inj hrestored

/-- Behind a branch the turtle and the stack are as they were, and no `]` was noted. -/
structure Returns (w w' : Walk) : Prop where
  turtle : w'.turtle = w.turtle
  saved : w'.saved = w.saved
  awake : w'.skipping = false
  unmatched : w'.unmatched = w.unmatched

/-- **A branch that leaves nothing over takes the turtle back.** -/
theorem returns_of_branch {opening closing : Token} {branch : List Token}
    (hopening : opening.symbol = .push) (hclosing : closing.symbol = .pop)
    (hbranch : Balanced branch) (hawake : w.skipping = false)
    (h : Run cfg w (opening :: branch ++ [closing]) w') : Returns w w' := by
  obtain ⟨u', hhead, htail⟩ := run_append_iff.mp h
  cases hhead with
  | cons hpush hrun =>
    cases htail with
    | cons hpop hnil =>
      cases hnil
      obtain rfl := saved_of_push hpush hawake hopening
      have hawake' : u'.skipping = pending w.skipping branch := hrun.skipping
      rw [hawake, hbranch.settled] at hawake'
      -- With no excess, the cursor that `[` has saved is on top of the stack again.
      have hunwinds : Unwinds (excess (brackets w.skipping branch)) _ u' := hrun.unwinds
      rw [hawake, hbranch.even] at hunwinds
      obtain ⟨fresh, hfresh, hsaved⟩ := hunwinds.saved
      obtain rfl := List.eq_nil_of_length_eq_zero hfresh
      obtain rfl := restored_of_pop hpop hawake' hclosing hsaved
      exact ⟨rfl, rfl, hawake', hunwinds.unmatched (Nat.zero_le _)⟩

end Grapevine.Turtle.Walk
