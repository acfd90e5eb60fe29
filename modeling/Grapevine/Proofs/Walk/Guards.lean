import Grapevine.Proofs.Skeleton.Tree
import Grapevine.Proofs.Walk.Step

/-! Walks over words that differ in their guards.

A guard is a `%` between a segment and its berry: it swallows the berry, and the turtle stands where
it would stand behind that berry. Of two words that are the same but for their guards, the turtle
therefore walks the one if it walks the other, and makes the same nodes and edges
(`walk_of_sameButGuards`). -/
namespace Grapevine

/-- The word without its `%`. -/
def unguarded (word : List Token) : List Token := word.filter fun t => decide (t.symbol ≠ .skip)

theorem unguarded_append (u v : List Token) : unguarded (u ++ v) = unguarded u ++ unguarded v :=
  List.filter_append ..

/-- A berry, behind a guard or not. -/
def hanging (swallowed : Bool) (size : Float32) : List Token :=
  (if swallowed then [.bare .skip] else []) ++ [⟨.berry, [size]⟩]

/-- The same word, but for the guards between a segment and its berry. -/
inductive SameButGuards : List Token → List Token → Prop where
  | nil : SameButGuards [] []
  | cons {u v : List Token} (t : Token) (h : SameButGuards u v) : SameButGuards (t :: u) (t :: v)
  | berry {u v : List Token} (length size : Float32) (swallowed swallowed' : Bool)
      (h : SameButGuards u v) :
      SameButGuards (⟨.forward, [length]⟩ :: (hanging swallowed size ++ u))
        (⟨.forward, [length]⟩ :: (hanging swallowed' size ++ v))

theorem unguarded_hanging (swallowed : Bool) (size : Float32) :
    unguarded (hanging swallowed size) = [⟨.berry, [size]⟩] := by
  cases swallowed <;> rfl

namespace SameButGuards

variable {u u' v v' : List Token}

theorem refl (u : List Token) : SameButGuards u u := by
  induction u with
  | nil => exact .nil
  | cons t u ih => exact .cons t ih

theorem append (hu : SameButGuards u u') (hv : SameButGuards v v') :
    SameButGuards (u ++ v) (u' ++ v') := by
  induction hu with
  | nil => exact hv
  | cons t _ ih => exact .cons t ih
  | berry length size swallowed swallowed' _ ih =>
    rw [List.cons_append, List.cons_append, List.append_assoc, List.append_assoc]
    exact .berry length size swallowed swallowed' ih

/-- Without any `%` the words are one. -/
theorem unguarded_eq (h : SameButGuards u v) : unguarded u = unguarded v := by
  induction h with
  | nil => rfl
  | cons t _ ih =>
    simp only [unguarded, List.filter_cons] at ih ⊢
    rw [ih]
  | berry length size swallowed swallowed' _ ih =>
    show ⟨.forward, [length]⟩ :: unguarded _ = ⟨.forward, [length]⟩ :: unguarded _
    rw [unguarded_append, unguarded_append, unguarded_hanging, unguarded_hanging, ih]

end SameButGuards

namespace Turtle

namespace Walk

variable {cfg : Config} {w w' v v' : Walk} {t : Token} {word word' : List Token}

/-- The turtles of both walks stand at the same place and have drawn the same. -/
structure SameCourse (w w' : Walk) : Prop where
  turtle : w.turtle = w'.turtle
  saved : w.saved = w'.saved
  skipping : w.skipping = w'.skipping
  nodes : w.skeleton.nodes = w'.skeleton.nodes
  edges : w.skeleton.edges = w'.skeleton.edges

namespace SameCourse

theorem refl (w : Walk) : w.SameCourse w := ⟨rfl, rfl, rfl, rfl, rfl⟩

theorem symm (h : w.SameCourse w') : w'.SameCourse w :=
  ⟨h.turtle.symm, h.saved.symm, h.skipping.symm, h.nodes.symm, h.edges.symm⟩

theorem trans {w'' : Walk} (h : w.SameCourse w') (h' : w'.SameCourse w'') : w.SameCourse w'' :=
  ⟨h.turtle.trans h'.turtle, h.saved.trans h'.saved, h.skipping.trans h'.skipping,
    h.nodes.trans h'.nodes, h.edges.trans h'.edges⟩

/-- Berries are nothing to the course. -/
theorem hang (w : Walk) (size : Float32) : (w.hang size).SameCourse w :=
  ⟨rfl, rfl, rfl, Skeleton.nodes_attach .., Skeleton.edges_attach ..⟩

theorem advance (h : w.SameCourse w') : w.advance.SameCourse w'.advance :=
  ⟨h.turtle, h.saved, h.skipping, h.nodes, h.edges⟩

theorem draw (h : w.SameCourse w') (length : Float32) :
    (w.draw length).SameCourse (w'.draw length) := by
  obtain ⟨_, _, _, _, _, ⟨_, _, _⟩, _⟩ := w
  obtain ⟨_, _, _, _, _, ⟨_, _, _⟩, _⟩ := w'
  obtain ⟨hturtle, hsaved, hskipping, hnodes, hedges⟩ := h
  dsimp only at hturtle hsaved hskipping hnodes hedges
  subst hturtle hsaved hskipping hnodes hedges
  exact ⟨rfl, rfl, rfl, rfl, rfl⟩

/-- **On the same course, a token does the same.** -/
theorem step (h : w.SameCourse w') (ht : Step cfg w t v) :
    ∃ v', Step cfg w' t v' ∧ v.SameCourse v' := by
  have hskipping := h.skipping
  cases ht with
  | swallowed hskip ht =>
    exact ⟨_, .swallowed (hskipping ▸ hskip) ht, { h with skipping := rfl }⟩
  | drawn hawake ht => exact ⟨_, .drawn (hskipping ▸ hawake) ht, (h.draw _).advance⟩
  | hung hawake ht =>
    exact ⟨_, .hung (hskipping ▸ hawake) ht,
      (((hang w _).trans h).trans (hang w' _).symm).advance⟩
  | turned hawake ht =>
    exact ⟨_, .turned (hskipping ▸ hawake) ht,
      { h with turtle := congrArg (Turtle.turn · _ _) h.turtle }⟩
  | widened hawake ht =>
    exact ⟨_, .widened (hskipping ▸ hawake) ht, { h with
      turtle := congrArg (fun turtle : Turtle => { turtle with width := t.paramD 0 turtle.width })
        h.turtle }⟩
  | saved hawake ht hroom =>
    exact ⟨_, .saved (hskipping ▸ hawake) ht (h.saved ▸ hroom), { h with
      saved := congrArg₂ List.cons h.turtle h.saved }⟩
  | restored hawake ht hsaved =>
    exact ⟨_, .restored (hskipping ▸ hawake) ht (h.saved ▸ hsaved),
      { h with turtle := rfl, saved := rfl }⟩
  | unmatched hawake ht hsaved =>
    exact ⟨_, .unmatched (hskipping ▸ hawake) ht (h.saved ▸ hsaved), { h with }⟩
  | skipped hawake ht =>
    exact ⟨_, .skipped (hskipping ▸ hawake) ht, { h with skipping := rfl }⟩

end SameCourse

/-- Behind a segment, whether it was swallowed or not, the next token is carried out. -/
theorem awake_behind_forward {length : Float32} (h : Step cfg w ⟨.forward, [length]⟩ v) :
    v.skipping = false := by
  rw [h.skipping]
  cases w.skipping <;> rfl

/-- A berry is hung or swallowed, and the turtle goes on from where it stands. -/
theorem run_hanging (hawake : w.skipping = false) (swallowed : Bool) (size : Float32) :
    ∃ v, Run cfg w (hanging swallowed size) v ∧ w.SameCourse v := by
  cases swallowed with
  | false =>
    exact ⟨_, .cons (.hung hawake rfl) (.nil _), { (SameCourse.hang w size).symm with }⟩
  | true =>
    exact ⟨_, .cons (.skipped hawake rfl) (.cons (.swallowed rfl rfl) (.nil _)),
      rfl, rfl, hawake, rfl, rfl⟩

/-- **Whatever the guards swallow, the course is the same.** -/
theorem SameCourse.run (h : w.SameCourse w') (hword : SameButGuards word word')
    (hrun : Run cfg w word v) : ∃ v', Run cfg w' word' v' ∧ v.SameCourse v' := by
  induction hword generalizing w w' with
  | nil =>
    cases hrun
    exact ⟨w', .nil w', h⟩
  | cons t _ ih =>
    cases hrun with
    | cons ht hrest =>
      obtain ⟨u', hu', hcourse⟩ := h.step ht
      obtain ⟨v', hv', hcourse'⟩ := ih hcourse hrest
      exact ⟨v', .cons hu' hv', hcourse'⟩
  | berry length size swallowed swallowed' _ ih =>
    cases hrun with
    | cons hforward hrest =>
      obtain ⟨tip', hforward', hcourse⟩ := h.step hforward
      -- What still was to be swallowed, the segment was: both berries find the turtle awake.
      obtain ⟨x, hberry, hrest⟩ := run_append_iff.mp hrest
      obtain ⟨x', hx', hsame'⟩ := run_hanging (awake_behind_forward hforward') swallowed' size
      obtain ⟨y, hy, hsame⟩ := run_hanging (awake_behind_forward hforward) swallowed size
      obtain rfl := hberry.unique hy
      obtain ⟨v', hv', hcourse'⟩ := ih ((hsame.symm.trans hcourse).trans hsame') hrest
      exact ⟨v', .cons hforward' (run_append_iff.mpr ⟨x', hx', hv'⟩), hcourse'⟩

end Walk

/-- Such words are walked along one course, if they are walked. -/
theorem walk_of_sameButGuards {cfg : Config} {word word' : List Token} {trail : Trail}
    (h : SameButGuards word word') (hwalk : walk cfg word = .ok trail) :
    ∃ trail', walk cfg word' = .ok trail' ∧ trail'.skeleton.nodes = trail.skeleton.nodes ∧
      trail'.skeleton.edges = trail.skeleton.edges := by
  obtain ⟨w, hrun, rfl⟩ := Walk.walk_eq_ok_iff.mp hwalk
  obtain ⟨w', hrun', hcourse⟩ := (Walk.SameCourse.refl _).run h hrun
  exact ⟨_, Walk.walk_eq_ok_iff.mpr ⟨w', hrun', rfl⟩, hcourse.nodes.symm, hcourse.edges.symm⟩

end Turtle

end Grapevine
