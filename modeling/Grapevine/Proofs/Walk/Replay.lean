import Grapevine.Proofs.Walk.Footing

/-! Replaying the events of a walk.

The events tell all there is to know about a skeleton: whoever follows them from the root, with no
more than an orientation, a node and a stack of both, makes the skeleton that the walk has made
(`replay_walk`). Events that contradict what was followed so far are refused (`Replay.follow?`), and
those of a walk are not, as long as there are numbers for all nodes. -/
namespace Grapevine.Turtle

open Skeleton

/-- What is known behind some events. -/
structure Replay where
  rotation : Rotation
  node : Nat
  /-- Orientation and node of the branches that are open, the last one first. -/
  saved : List (Rotation × Nat) := []
  skeleton : Skeleton
deriving DecidableEq

namespace Replay

/-- Nothing is known but the root. -/
def start (cfg : Config) : Replay where
  rotation := cfg.initialRotation
  node := 0
  skeleton := { nodes := #[⟨cfg.origin, cfg.initialRotation, cfg.defaultWidth, none⟩] }

/-- One event, if it starts at the node that was reached and its numbers are right: a new node has
the next number, and a bracket the depth of the stack behind it, up to the limit. -/
def follow? (limit : Nat) (r : Replay) : Event → Option Replay
  | .move source target position width =>
    if source = r.node ∧ target = r.skeleton.nodes.size then
      some { r with
        node := target
        skeleton := { r.skeleton with
          nodes := r.skeleton.nodes.push ⟨position, r.rotation, width, some source⟩
          edges := r.skeleton.edges.push ⟨source, target⟩ } }
    else none
  | .branchOpen depth =>
    if depth = r.saved.length + 1 ∧ depth ≤ limit then
      some { r with saved := (r.rotation, r.node) :: r.saved }
    else none
  | .branchClose depth =>
    match r.saved with
    | [] => none
    | (rotation, node) :: saved =>
      if depth = saved.length ∧ depth ≤ limit then some { r with rotation, node, saved } else none
  | .turn axis degrees =>
    some { r with rotation := r.rotation.compose (.about axis (radians degrees)) }
  | .berry node size =>
    match r.skeleton.nodes[node]? with
    | some n =>
      if node = r.node then
        some { r with skeleton := { r.skeleton with
          attachments := r.skeleton.attachments.push ⟨node, n.position, size⟩ } }
      else none
    | none => none

/-- Event after event. -/
def run? (limit : Nat) (r : Replay) (events : List Event) : Option Replay :=
  events.foldlM (follow? limit) r

theorem run?_append (limit : Nat) (r : Replay) (u v : List Event) :
    run? limit r (u ++ v) = (run? limit r u).bind fun r => run? limit r v :=
  List.foldlM_append

end Replay

namespace Walk

variable {cfg : Config} {w w' : Walk} {t : Token} {word : List Token}

/-- What the events of a walk have told. -/
def replay (w : Walk) : Replay where
  rotation := w.turtle.rotation
  node := w.turtle.node
  saved := w.saved.map fun turtle => (turtle.rotation, turtle.node)
  skeleton := w.skeleton

/-- The events so far can be followed, and lead to where the walk stands. -/
def Told (cfg : Config) (w : Walk) : Prop :=
  (Replay.start cfg).run? cfg.maxStackDepth w.events.toList = some w.replay

theorem Told.push (h : w.Told cfg) {event : Event} (hevents : w'.events = w.events.push event)
    (hfollow : w.replay.follow? cfg.maxStackDepth event = some w'.replay) : w'.Told cfg := by
  rw [Told, hevents, Array.toList_push, Replay.run?_append, h]
  show (Replay.follow? cfg.maxStackDepth w.replay event).bind _ = _
  rw [hfollow]
  rfl

theorem Told.silent (h : w.Told cfg) (hevents : w'.events = w.events)
    (hreplay : w'.replay = w.replay) : w'.Told cfg := by
  rw [Told, hevents, hreplay]
  exact h

/-- A node is known where the turtle stands. -/
theorem follow?_berry (hw : w.Grounded) (limit : Nat) (size : Float32) :
    w.replay.follow? limit (.berry w.turtle.node size) = some (w.hang size).replay := by
  have hnode := Array.getElem?_eq_getElem hw.stands
  have hreplay : (w.hang size).replay =
      { w.replay with skeleton := w.skeleton.attach w.turtle.node size } := rfl
  rw [hreplay, attach_of_node hnode]
  simp only [Replay.follow?, replay, hnode, if_true]

/-- Branches never nest deeper than the limit. -/
theorem Step.room (h : Step cfg w t w') (hroom : w.saved.length ≤ cfg.maxStackDepth) :
    w'.saved.length ≤ cfg.maxStackDepth := by
  cases h with
  | saved _ _ hlt => exact hlt
  | restored _ _ hsaved =>
    rw [hsaved] at hroom
    exact Nat.le_of_succ_le hroom
  | _ => exact hroom

/-- A new node has the next number, as long as there is one. -/
theorem follow?_move (hnumber : w.skeleton.nodes.size < 2 ^ 32) (limit : Nat) (length : Float32) :
    w.replay.follow? limit (.move w.turtle.node (number w.skeleton.nodes.size)
      (w.turtle.advance length).position w.turtle.width) = some (w.draw length).replay := by
  have hnext : number w.skeleton.nodes.size = w.replay.skeleton.nodes.size := number_of_lt hnumber
  refine (if_pos ⟨rfl, hnext⟩).trans ?_
  rfl

/-- What a token does to the walk, its events do to the replay. -/
theorem Step.told (h : Step cfg w t w') (hw : w.Grounded)
    (hnumbers : w'.skeleton.nodes.size ≤ 2 ^ 32) (hroom : w.saved.length ≤ cfg.maxStackDepth)
    (htold : w.Told cfg) : w'.Told cfg := by
  -- A `]` goes down from a depth that was within the limit.
  have hroom' := h.room hroom
  cases h with
  | swallowed | skipped | unmatched | widened => exact htold.silent rfl rfl
  | turned => exact htold.push rfl rfl
  | drawn =>
    rw [Walk.advance, Walk.draw, size_nodes_addNode] at hnumbers
    exact htold.push rfl (follow?_move hnumbers _ _)
  | hung => exact htold.push rfl (follow?_berry hw _ _)
  | saved _ _ hlt => exact htold.push rfl (if_pos ⟨by rw [replay, List.length_map], hlt⟩)
  | restored _ _ hsaved =>
    refine htold.push rfl ?_
    simp only [Replay.follow?, replay, hsaved, List.map_cons, List.length_map]
    exact if_pos ⟨trivial, hroom'⟩

theorem told_start (cfg : Config) : (start cfg).Told cfg := rfl

/-- Of a whole run, the events tell everything. -/
theorem Run.told (h : Run cfg w word w') (hw : w.Grounded)
    (hnumbers : w'.skeleton.nodes.size ≤ 2 ^ 32) (hroom : w.saved.length ≤ cfg.maxStackDepth)
    (htold : w.Told cfg) : w'.Told cfg := by
  induction h with
  | nil => exact htold
  | cons ht hrest ih =>
    have hnext := ht.told hw (hrest.size_nodes_le.trans hnumbers) hroom htold
    exact ih (ht.grounded hw) hnumbers (ht.room hroom) hnext

end Walk

/-- **The events of a walk, and nothing else, make its skeleton.** Each can be followed where the
one before has led, and as many branches are left open in the end as by the walk. -/
theorem replay_walk {cfg : Config} {word : List Token} {trail : Trail}
    (hlen : word.length < 2 ^ 32) (h : walk cfg word = .ok trail) :
    ∃ r, (Replay.start cfg).run? cfg.maxStackDepth trail.events.toList = some r ∧
      r.skeleton = trail.skeleton ∧ r.saved.length = trail.openBranches := by
  obtain ⟨w, hrun, rfl⟩ := Walk.walk_eq_ok_iff.mp h
  have hnumbers : w.skeleton.nodes.size ≤ 2 ^ 32 := hrun.size_nodes_le_of_start.trans hlen
  have htold := hrun.told (Walk.grounded_start cfg) hnumbers (Nat.zero_le _) (Walk.told_start cfg)
  exact ⟨w.replay, htold, rfl, List.length_map _⟩

/-- Two branches, one of them left open, and a swallowed bracket. -/
theorem replay_walk_open : ∃ trail r,
    walk {} [.bare .push, .bare .forward, .bare .berry, .bare .pop, .bare .pop, .bare .skip,
      .bare .pop, .bare .rollLeft, .bare .push, .bare .forward] = .ok trail ∧
    (Replay.start {}).run? 1024 trail.events.toList = some r ∧ r.skeleton = trail.skeleton ∧
    r.saved.length = 1 := by
  have hwalk : walk {} [.bare .push, .bare .forward, .bare .berry, .bare .pop, .bare .pop,
      .bare .skip, .bare .pop, .bare .rollLeft, .bare .push, .bare .forward] = .ok _ := rfl
  obtain ⟨r, hrun, hskeleton, hopen⟩ := replay_walk (by decide) hwalk
  exact ⟨_, r, hwalk, hrun, hskeleton, hopen⟩

end Grapevine.Turtle
