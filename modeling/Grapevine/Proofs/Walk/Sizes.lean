import Grapevine.Proofs.Grammar.Lockstep
import Grapevine.Proofs.Walk.Step

/-! Walks over words that differ in the sizes of berries.

The turtle hangs a berry of whatever size, and looks at that size no more. Of two words that are the
same but for the sizes of their berries, it therefore walks both or refuses both at the same token,
and the two trails differ in those sizes alone (`walk_concur`). -/
namespace Grapevine

/-- The same token, or berries of two sizes. -/
inductive Token.SameButSize : Token → Token → Prop where
  | same (t : Token) : SameButSize t t
  | berry (x y : Float32) : SameButSize ⟨.berry, [x]⟩ ⟨.berry, [y]⟩

/-- Tokens that differ in the size of a berry alone are the same, or both are terminals. -/
theorem Token.keepsBuds_sameButSize : Grammar.KeepsBuds SameButSize := by
  intro t t' h
  cases h with
  | same => exact .inl rfl
  | berry => exact .inr ⟨rfl, rfl⟩

/-- A berry at the same place. -/
structure Skeleton.Attachment.SameButSize (a b : Attachment) : Prop where
  node : a.node = b.node
  position : a.position = b.position

/-- The same skeleton, but for the sizes of berries. -/
structure Skeleton.SameButSizes (a b : Skeleton) : Prop where
  nodes : a.nodes = b.nodes
  edges : a.edges = b.edges
  attachments : List.Forall₂ Attachment.SameButSize a.attachments.toList b.attachments.toList

theorem forall₂_toList_push {α β : Type} {R : α → β → Prop} {as : Array α} {bs : Array β} {a : α}
    {b : β} (h : List.Forall₂ R as.toList bs.toList) (hab : R a b) :
    List.Forall₂ R (as.push a).toList (bs.push b).toList := by
  rw [Array.toList_push, Array.toList_push]
  exact List.rel_append h (.cons hab .nil)

namespace Skeleton.SameButSizes

variable {a b : Skeleton}

theorem addNode (h : a.SameButSizes b) (node : Node) :
    (a.addNode node).SameButSizes (b.addNode node) := by
  obtain ⟨nodes, edges, _⟩ := a
  obtain ⟨_, _, _⟩ := b
  obtain ⟨rfl, rfl, hattachments⟩ := h
  exact ⟨rfl, rfl, hattachments⟩

/-- Berries are hung on the same node, of whatever size. -/
theorem attach (h : a.SameButSizes b) (node : Nat) (x y : Float32) :
    (a.attach node x).SameButSizes (b.attach node y) := by
  rw [Skeleton.attach, Skeleton.attach, h.nodes]
  split
  · exact ⟨rfl, h.edges, forall₂_toList_push h.attachments ⟨rfl, rfl⟩⟩
  · exact h

end Skeleton.SameButSizes

namespace Turtle

/-- The same event, or berries of two sizes on one node. -/
inductive Event.SameButSize : Event → Event → Prop where
  | same (e : Event) : SameButSize e e
  | berry (node : Nat) (x y : Float32) : SameButSize (.berry node x) (.berry node y)

/-- The same trail, but for the sizes of berries. -/
structure Trail.SameButSizes (a b : Trail) : Prop where
  events : List.Forall₂ Event.SameButSize a.events.toList b.events.toList
  skeleton : a.skeleton.SameButSizes b.skeleton
  unmatched : a.unmatched = b.unmatched
  openBranches : a.openBranches = b.openBranches

namespace Walk

variable {cfg : Config} {w w' : Walk} {t t' : Token} {word word' : List Token}

/-- The same state of a walk, but for the sizes of the berries hung so far. -/
structure SameButSizes (w w' : Walk) : Prop where
  turtle : w.turtle = w'.turtle
  saved : w.saved = w'.saved
  skipping : w.skipping = w'.skipping
  index : w.index = w'.index
  events : List.Forall₂ Event.SameButSize w.events.toList w'.events.toList
  skeleton : w.skeleton.SameButSizes w'.skeleton
  unmatched : w.unmatched = w'.unmatched

namespace SameButSizes

theorem advance (h : w.SameButSizes w') : w.advance.SameButSizes w'.advance :=
  { h with index := congrArg (· + 1) h.index }

theorem trail (h : w.SameButSizes w') : w.trail.SameButSizes w'.trail :=
  ⟨h.events, h.skeleton, h.unmatched, congrArg List.length h.saved⟩

theorem draw (h : w.SameButSizes w') (length : Float32) :
    (w.draw length).SameButSizes (w'.draw length) := by
  have hnodes := h.skeleton.nodes
  have hturtle := h.turtle
  exact { h with
    turtle := by rw [Walk.draw, Walk.draw, hnodes, hturtle]
    events := by
      rw [Walk.draw, Walk.draw, hnodes, hturtle]
      exact forall₂_toList_push h.events (.same _)
    skeleton := by
      rw [Walk.draw, Walk.draw, hturtle]
      exact h.skeleton.addNode _ }

theorem hang (h : w.SameButSizes w') (x y : Float32) : (w.hang x).SameButSizes (w'.hang y) :=
  { h with
    events := by
      rw [Walk.hang, Walk.hang, h.turtle]
      exact forall₂_toList_push h.events (.berry ..)
    skeleton := by
      rw [Walk.hang, Walk.hang, h.turtle]
      exact h.skeleton.attach _ x y }

theorem turn (h : w.SameButSizes w') (axis : Axis) (degrees : Float32) :
    (w.turn axis degrees).SameButSizes (w'.turn axis degrees) :=
  { h with
    turtle := congrArg (·.turn axis (radians degrees)) h.turtle
    events := forall₂_toList_push h.events (.same _) }

/-- A branch that is too deep for one walk is too deep for the other. -/
theorem save (h : w.SameButSizes w') (limit : Nat) :
    Concur SameButSizes (w.save limit) (w'.save limit) := by
  rw [Walk.save, Walk.save, h.saved, h.index, h.turtle]
  split
  · exact .fault _
  · exact .result { h with
      saved := rfl, turtle := rfl, index := rfl, events := forall₂_toList_push h.events (.same _) }

theorem restore (h : w.SameButSizes w') : w.restore.SameButSizes w'.restore := by
  rw [Walk.restore, Walk.restore, h.saved]
  split
  · exact { h with turtle := rfl, saved := rfl, events := forall₂_toList_push h.events (.same _) }
  · exact { h with
      saved := rfl
      unmatched := by
        show w.unmatched.push w.index = w'.unmatched.push w'.index
        rw [h.unmatched, h.index] }

/-- Actions tell walks apart by the size of a berry only. -/
theorem act (h : w.SameButSizes w') (cfg : Config) (t : Token) (action : Action) :
    Concur SameButSizes (w.act cfg t action) (w'.act cfg t action) := by
  cases action with
  | draw => exact .result (h.draw _)
  | hang => exact .result (h.hang _ _)
  | bend | pitch | roll => exact .result (h.turn _ _)
  | setWidth => exact .result { h with turtle := by rw [h.turtle] }
  | save => exact h.save _
  | restore => exact .result h.restore
  | swallow => exact .result { h with skipping := rfl }

/-- **What a token does, it does in spite of the sizes.** -/
theorem step (h : w.SameButSizes w') (ht : t.SameButSize t') :
    Concur SameButSizes (Walk.step cfg w t) (Walk.step cfg w' t') := by
  have hswallowed : SameButSizes { w with skipping := false }.advance
      { w' with skipping := false }.advance := advance { h with skipping := rfl }
  have hskipping := h.skipping
  cases ht with
  | same =>
    rw [Walk.step, Walk.step]
    cases Action.ofSymbol? t.symbol with
    | none =>
      rw [h.index]
      exact .fault _
    | some action =>
      cases hskip : w'.skipping with
      | true =>
        rw [hskip] at hskipping
        simp only [hskipping, if_true]
        exact .result hswallowed
      | false =>
        rw [hskip] at hskipping
        simp only [hskipping, Bool.false_eq_true, if_false]
        exact (h.act cfg t action).map fun _ _ => advance
  | berry x y =>
    cases hskip : w'.skipping with
    | true =>
      rw [step_of_swallowed hskip rfl, step_of_swallowed (hskipping.trans hskip) rfl]
      exact .result hswallowed
    | false =>
      rw [step_of_awake hskip rfl rfl, step_of_awake (hskipping.trans hskip) rfl rfl]
      exact .result (h.hang x y).advance

/-- Runs over such words stay alike, or fail alike. -/
theorem run (h : w.SameButSizes w') (hword : List.Forall₂ Token.SameButSize word word') :
    Concur SameButSizes (Walk.run cfg w word) (Walk.run cfg w' word') := by
  induction hword generalizing w w' with
  | nil => exact .result h
  | cons ht _ ih => exact (h.step ht).bind fun _ _ hstep => ih hstep

end SameButSizes

end Walk

/-- Walks over such words concur. -/
theorem walk_concur {cfg : Config} {word word' : List Token}
    (h : List.Forall₂ Token.SameButSize word word') :
    Concur Trail.SameButSizes (walk cfg word) (walk cfg word') := by
  have hskeleton : ∀ s : Skeleton, s.attachments = #[] → s.SameButSizes s := by
    intro s hs
    refine ⟨rfl, rfl, ?_⟩
    rw [hs]
    exact .nil
  have hstart : (Walk.start cfg).SameButSizes (.start cfg) :=
    ⟨rfl, rfl, rfl, rfl, .nil, hskeleton _ rfl, rfl⟩
  exact (hstart.run h).map fun _ _ => Walk.SameButSizes.trail

end Turtle

end Grapevine
