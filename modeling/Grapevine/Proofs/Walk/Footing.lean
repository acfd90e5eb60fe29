import Grapevine.Proofs.Skeleton.Tree
import Grapevine.Proofs.Walk.Step

/-! Where the turtle stands.

On a walk the turtle and all saved cursors stand on nodes of its skeleton (`Grounded`), so that new
nodes grow from nodes that are there, and no berry is lost. As long as there are new numbers for new
nodes, they also are at the very position of their nodes (`Footed`), and what a walk leaves is a
tree with as many nodes and berries as were carried out (`tree_of_walk`). -/
namespace Grapevine.Turtle

open Skeleton

/-- The turtle is where its node is. -/
def Stands (t : Turtle) (s : Skeleton) : Prop :=
  ∃ node, s.nodes[t.node]? = some node ∧ node.position = t.position

theorem Stands.lt {t : Turtle} {s : Skeleton} (h : t.Stands s) : t.node < s.nodes.size := by
  obtain ⟨node, hnode, _⟩ := h
  exact (Array.getElem?_eq_some_iff.mp hnode).1

theorem Stands.addNode {t : Turtle} {s : Skeleton} (h : t.Stands s) (node : Node) :
    t.Stands (s.addNode node) := by
  obtain ⟨n, hn, hposition⟩ := h
  exact ⟨n, getElem?_push_of_some hn _, hposition⟩

/-- The node that every walk starts on. -/
def Config.root (cfg : Config) : Node := ⟨cfg.origin, cfg.initialRotation, cfg.defaultWidth, none⟩

namespace Walk

variable {cfg : Config} {w w' : Walk} {t : Token} {word : List Token}

/-- All cursors stand on nodes. -/
structure Grounded (w : Walk) : Prop where
  sound : w.skeleton.Sound
  stands : w.turtle.node < w.skeleton.nodes.size
  saved : ∀ turtle ∈ w.saved, turtle.node < w.skeleton.nodes.size

theorem grounded_start (cfg : Config) : (start cfg).Grounded where
  sound := .ofRoot ..
  stands := Nat.one_pos
  saved := List.forall_mem_nil _

theorem Grounded.draw (h : w.Grounded) (length : Float32) : (w.draw length).Grounded := by
  have hsize : w.skeleton.nodes.size < (w.draw length).skeleton.nodes.size := by
    rw [Walk.draw, size_nodes_addNode]
    exact Nat.lt_succ_self _
  refine ⟨h.sound.addNode rfl h.stands, (number_le _).trans_lt hsize, fun turtle ht => ?_⟩
  exact (h.saved turtle ht).trans hsize

theorem Grounded.hang (h : w.Grounded) (size : Float32) : (w.hang size).Grounded := by
  have hnodes : (w.hang size).skeleton.nodes = w.skeleton.nodes := nodes_attach ..
  refine ⟨h.sound.attach (Array.getElem?_eq_getElem h.stands), ?_, fun turtle ht => ?_⟩
  · rw [hnodes]
    exact h.stands
  · rw [hnodes]
    exact h.saved turtle ht

theorem Grounded.advance (h : w.Grounded) : w.advance.Grounded := ⟨h.sound, h.stands, h.saved⟩

/-- No token takes the ground away from the turtle or from a saved cursor. -/
theorem Step.grounded (h : Step cfg w t w') (hw : w.Grounded) : w'.Grounded := by
  cases h with
  | swallowed | skipped | unmatched | turned | widened => exact ⟨hw.sound, hw.stands, hw.saved⟩
  | drawn => exact (hw.draw _).advance
  | hung => exact (hw.hang _).advance
  | saved => exact ⟨hw.sound, hw.stands, List.forall_mem_cons.mpr ⟨hw.stands, hw.saved⟩⟩
  | restored _ _ hsaved =>
    have hall := hw.saved
    rw [hsaved, List.forall_mem_cons] at hall
    exact ⟨hw.sound, hall.1, hall.2⟩

/-- However many nodes there are, a walk names none that is missing. -/
theorem Run.grounded (h : Run cfg w word w') (hw : w.Grounded) : w'.Grounded :=
  h.keeps Step.grounded hw

/-! ### Counts -/

theorem length_executed_le (skipping : Bool) (word : List Token) :
    (executed skipping word).length ≤ word.length := by
  induction word generalizing skipping with
  | nil => cases skipping <;> exact Nat.le_refl 0
  | cons t word ih =>
    cases skipping with
    | true => exact (ih false).trans (Nat.le_succ _)
    | false => exact Nat.succ_le_succ (ih _)

/-- Every `F` that is carried out makes a node, -/
theorem Step.size_nodes (h : Step cfg w t w') :
    w'.skeleton.nodes.size =
      w.skeleton.nodes.size + Token.occurrences .forward (executed w.skipping [t]) := by
  cases h with
  | swallowed hskip =>
    rw [hskip]
    rfl
  | drawn hawake ht =>
    rw [occurrences_awake hawake, ht]
    exact size_nodes_addNode ..
  | hung hawake ht =>
    rw [occurrences_awake hawake, ht]
    exact congrArg Array.size (nodes_attach ..)
  | turned hawake ht =>
    rw [occurrences_awake hawake,
      if_neg (Token.plain_of_eq (by simp) t (adjusts_of_turn? ht))]
    rfl
  | widened hawake ht | saved hawake ht | restored hawake ht | unmatched hawake ht
  | skipped hawake ht =>
    rw [occurrences_awake hawake, ht]
    rfl

/-- and every `S` hangs a berry. -/
theorem Step.size_attachments (h : Step cfg w t w') (hw : w.Grounded) :
    w'.skeleton.attachments.size =
      w.skeleton.attachments.size + Token.occurrences .berry (executed w.skipping [t]) := by
  cases h with
  | swallowed hskip =>
    rw [hskip]
    rfl
  | hung hawake ht =>
    rw [occurrences_awake hawake, ht]
    show (w.skeleton.attach w.turtle.node _).attachments.size = _
    rw [attach_of_node (Array.getElem?_eq_getElem hw.stands)]
    exact Array.size_push ..
  | turned hawake ht =>
    rw [occurrences_awake hawake,
      if_neg (Token.plain_of_eq (by simp) t (adjusts_of_turn? ht))]
    rfl
  | drawn hawake ht | widened hawake ht | saved hawake ht | restored hawake ht
  | unmatched hawake ht | skipped hawake ht =>
    rw [occurrences_awake hawake, ht]
    rfl

theorem Run.size_nodes (h : Run cfg w word w') :
    w'.skeleton.nodes.size =
      w.skeleton.nodes.size + Token.occurrences .forward (executed w.skipping word) :=
  h.counts (P := fun _ => True) (fun ht _ => ⟨trivial, ht.size_nodes⟩) trivial

theorem Run.size_nodes_le (h : Run cfg w word w') :
    w.skeleton.nodes.size ≤ w'.skeleton.nodes.size := by
  rw [h.size_nodes]
  exact Nat.le_add_right ..

/-- Each token makes a node at most. -/
theorem Run.size_nodes_le_of_start (h : Run cfg (start cfg) word w) :
    w.skeleton.nodes.size ≤ word.length + 1 := by
  have hsize : w.skeleton.nodes.size = 1 + Token.occurrences .forward (executed false word) :=
    h.size_nodes
  have hle : Token.occurrences .forward (executed false word) ≤ word.length :=
    List.countP_le_length.trans (length_executed_le false word)
  omega

theorem Run.size_attachments (h : Run cfg w word w') (hw : w.Grounded) :
    w'.skeleton.attachments.size =
      w.skeleton.attachments.size + Token.occurrences .berry (executed w.skipping word) :=
  h.counts (f := fun w => w.skeleton.attachments.size)
    (fun ht hw => ⟨ht.grounded hw, ht.size_attachments hw⟩) hw

/-! ### Positions -/

/-- All cursors are where their nodes are, and the nodes are those of a tree. -/
structure Footed (cfg : Config) (w : Walk) : Prop where
  tree : w.skeleton.Tree cfg.root
  stands : w.turtle.Stands w.skeleton
  saved : ∀ turtle ∈ w.saved, turtle.Stands w.skeleton

theorem footed_start (cfg : Config) : (start cfg).Footed cfg where
  tree := .ofRoot ..
  stands := ⟨_, rfl, rfl⟩
  saved := List.forall_mem_nil _

/-- As long as there are numbers, the turtle stands on the node that it has made, at its place. -/
theorem Footed.draw (h : w.Footed cfg) {length : Float32}
    (hroom : (w.draw length).skeleton.nodes.size ≤ 2 ^ 32) : (w.draw length).Footed cfg := by
  rw [Walk.draw, size_nodes_addNode] at hroom
  have hnew : (w.draw length).turtle.node = w.skeleton.nodes.size := number_of_lt hroom
  refine ⟨h.tree.addNode hroom rfl h.stands.lt, ?_, fun turtle ht => (h.saved turtle ht).addNode _⟩
  rw [Stands, hnew]
  exact ⟨_, Array.getElem?_push_size, rfl⟩

theorem Footed.hang (h : w.Footed cfg) (size : Float32) : (w.hang size).Footed cfg := by
  obtain ⟨node, hnode, _⟩ := id h.stands
  have hstands : ∀ {turtle : Turtle}, turtle.Stands w.skeleton →
      turtle.Stands (w.hang size).skeleton := by
    intro turtle ⟨n, hn, hposition⟩
    exact ⟨n, (congrArg (·[turtle.node]?) (nodes_attach ..)).trans hn, hposition⟩
  exact ⟨h.tree.attach hnode, hstands h.stands, fun turtle ht => hstands (h.saved turtle ht)⟩

theorem Footed.advance (h : w.Footed cfg) : w.advance.Footed cfg := ⟨h.tree, h.stands, h.saved⟩

/-- A step keeps the footing, if it does not make a node without a number of its own. -/
theorem Step.footed (h : Step cfg w t w') (hw : w.Footed cfg)
    (hroom : w'.skeleton.nodes.size ≤ 2 ^ 32) : w'.Footed cfg := by
  cases h with
  | swallowed | skipped | unmatched | turned | widened => exact ⟨hw.tree, hw.stands, hw.saved⟩
  | drawn => exact (hw.draw hroom).advance
  | hung => exact (hw.hang _).advance
  | saved => exact ⟨hw.tree, hw.stands, List.forall_mem_cons.mpr ⟨hw.stands, hw.saved⟩⟩
  | restored _ _ hsaved =>
    have hall := hw.saved
    rw [hsaved, List.forall_mem_cons] at hall
    exact ⟨hw.tree, hall.1, hall.2⟩

/-- **As long as there are numbers for all nodes, every cursor is where its node is.** -/
theorem Run.footed (h : Run cfg w word w') (hw : w.Footed cfg)
    (hroom : w'.skeleton.nodes.size ≤ 2 ^ 32) : w'.Footed cfg := by
  induction h with
  | nil => exact hw
  | cons ht hrest ih => exact ih (ht.footed hw (hrest.size_nodes_le.trans hroom)) hroom

end Walk

/-! ### Whole walks -/

/-- **A walk leaves a tree that has grown in order**, with one path to each node. Its root aside, it
has as many nodes as `F` were carried out, and as many berries as `S`; all its numbers are those of
32 bits. -/
theorem tree_of_walk {cfg : Config} {word : List Token} {trail : Trail}
    (hlen : word.length < 2 ^ 32) (h : walk cfg word = .ok trail) :
    trail.skeleton.Tree ⟨cfg.origin, cfg.initialRotation, cfg.defaultWidth, none⟩ ∧
    (∀ v < trail.skeleton.nodes.size, ∃! path, Path trail.skeleton.edges 0 v path) ∧
    trail.skeleton.nodes.size = Token.occurrences .forward (executed false word) + 1 ∧
    trail.skeleton.attachments.size = Token.occurrences .berry (executed false word) ∧
    trail.skeleton.nodes.size ≤ 2 ^ 32 := by
  obtain ⟨w, hrun, rfl⟩ := Walk.walk_eq_ok_iff.mp h
  have hroom : w.trail.skeleton.nodes.size ≤ 2 ^ 32 := hrun.size_nodes_le_of_start.trans hlen
  have htree := (hrun.footed (Walk.footed_start cfg) hroom).tree
  have hberries := hrun.size_attachments (Walk.grounded_start cfg)
  exact ⟨htree, fun v hv => htree.existsUnique_path hv, hrun.size_nodes.trans (Nat.add_comm ..),
    hberries.trans (Nat.zero_add _), hroom⟩

/-- Brackets without a partner and swallowed tokens do not disturb the order. -/
theorem tree_of_walk_stray : ∃ trail,
    walk {} [.bare .forward, .bare .push, .bare .forward, .bare .berry, .bare .pop, .bare .pop,
      .bare .skip, .bare .forward, .bare .berry] = .ok trail ∧
    trail.skeleton.Tree ⟨.zero, .halfTurnX, 0.1, none⟩ ∧ trail.skeleton.nodes.size = 3 ∧
    trail.skeleton.attachments.size = 2 := by
  have hwalk : walk {} [.bare .forward, .bare .push, .bare .forward, .bare .berry, .bare .pop,
      .bare .pop, .bare .skip, .bare .forward, .bare .berry] = .ok _ := rfl
  obtain ⟨htree, _, hnodes, hberries, _⟩ := tree_of_walk (by decide) hwalk
  exact ⟨_, hwalk, htree, hnodes, hberries⟩

end Grapevine.Turtle
