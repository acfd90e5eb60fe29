import Mathlib
import Grapevine.Skeleton

/-! Skeletons that are trees.

A skeleton that was made node after node from a root is a tree whose nodes stand behind their
parents (`Tree`): it stays one as nodes and berries are added to it, and one path leads from the
root to each of its nodes (`Tree.existsUnique_path`). That is so as long as there are new numbers
for new nodes. Beyond, edges and berries still name nodes that are there (`Sound`), if not those
they were meant for. -/
namespace Grapevine.Skeleton

variable {root node : Node} {s : Skeleton} {u v p : Nat} {size : Float32}

/-- The nodes stand in an order in which they can have grown from the root, each with the edge from
its parent, and the berries hang on nodes. -/
structure Tree (root : Node) (s : Skeleton) : Prop where
  root : s.nodes[0]? = some root
  /-- All edges are those of nodes other than the root. -/
  size : s.nodes.size = s.edges.size + 1
  grown : ∀ i node, s.nodes[i + 1]? = some node →
    ∃ p ≤ i, node.parent = some p ∧ s.edges[i]? = some ⟨p, i + 1⟩
  hung : ∀ a ∈ s.attachments, ∃ node, s.nodes[a.node]? = some node ∧ node.position = a.position

/-! ### Growth -/

/-- On a node that is there, a berry is hung at its position. -/
theorem attach_of_node (h : s.nodes[v]? = some node) (size : Float32) :
    s.attach v size =
      { s with attachments := s.attachments.push ⟨v, node.position, size⟩ } := by
  rw [attach, h]

theorem nodes_attach (s : Skeleton) (v : Nat) (size : Float32) :
    (s.attach v size).nodes = s.nodes := by
  rw [attach]
  split <;> rfl

theorem edges_attach (s : Skeleton) (v : Nat) (size : Float32) :
    (s.attach v size).edges = s.edges := by
  rw [attach]
  split <;> rfl

theorem addNode_of_parent (h : node.parent = some p) :
    s.addNode node =
      { s with nodes := s.nodes.push node, edges := s.edges.push ⟨p, number s.nodes.size⟩ } := by
  simp only [addNode, h]

theorem getElem?_push_of_some {α : Type _} {a : Array α} {i : Nat} {x : α} (h : a[i]? = some x)
    (y : α) : (a.push y)[i]? = some x := by
  have hlt : i < a.size := (Array.getElem?_eq_some_iff.mp h).1
  rw [Array.getElem?_push_lt hlt, ← h, Array.getElem?_eq_getElem hlt]

/-- Both ends of the edge are there. -/
def Joins (s : Skeleton) (e : Edge) : Prop := e.parent < s.nodes.size ∧ e.child < s.nodes.size

instance (s : Skeleton) (e : Edge) : Decidable (s.Joins e) := inferInstanceAs (Decidable (_ ∧ _))

/-- Nothing names a node that is missing. -/
structure Sound (s : Skeleton) : Prop where
  joined : ∀ e ∈ s.edges, s.Joins e
  hung : ∀ a ∈ s.attachments, a.node < s.nodes.size

namespace Sound

theorem ofRoot (position : Vec3) (rotation : Rotation) (width : Float32) :
    Sound (.ofRoot position rotation width) :=
  ⟨fun e he => by simp [Skeleton.ofRoot, Skeleton.addNode] at he,
    fun a ha => by simp [Skeleton.ofRoot, Skeleton.addNode] at ha⟩

/-- A node on a parent that is there leaves nothing hanging in the air, whatever its number. -/
theorem addNode (h : s.Sound) (hparent : node.parent = some p) (hlt : p < s.nodes.size) :
    (s.addNode node).Sound := by
  have hsize : s.nodes.size < (s.addNode node).nodes.size := by
    rw [size_nodes_addNode]
    exact Nat.lt_succ_self _
  refine ⟨fun e he => ?_, fun a ha => (h.hung a ?_).trans hsize⟩
  · rw [addNode_of_parent hparent] at he
    rcases Array.mem_push.mp he with hmem | rfl
    · exact ⟨(h.joined e hmem).1.trans hsize, (h.joined e hmem).2.trans hsize⟩
    · exact ⟨hlt.trans hsize, (number_le _).trans_lt hsize⟩
  · rwa [addNode_of_parent hparent] at ha

/-- A berry on a node that is there is where the node is. -/
theorem attach (h : s.Sound) (hnode : s.nodes[v]? = some node) : (s.attach v size).Sound := by
  rw [attach_of_node hnode]
  refine ⟨h.joined, fun a ha => ?_⟩
  rcases Array.mem_push.mp ha with hmem | rfl
  · exact h.hung a hmem
  · exact (Array.getElem?_eq_some_iff.mp hnode).1

end Sound

namespace Tree

theorem ofRoot (position : Vec3) (rotation : Rotation) (width : Float32) :
    Tree ⟨position, rotation, width, none⟩ (.ofRoot position rotation width) where
  root := rfl
  size := rfl
  grown i node h := by
    simp [Skeleton.ofRoot, Skeleton.addNode] at h
  hung a ha := by
    simp [Skeleton.ofRoot, Skeleton.addNode] at ha

/-- A node on a parent that is there makes a tree a larger tree, if there is a number for it. -/
theorem addNode (h : s.Tree root) (hroom : s.nodes.size < 2 ^ 32) (hparent : node.parent = some p)
    (hlt : p < s.nodes.size) : (s.addNode node).Tree root := by
  rw [addNode_of_parent hparent, number_of_lt hroom]
  refine ⟨getElem?_push_of_some h.root _, ?_, fun i n hn => ?_, fun a ha => ?_⟩
  · simp only [Array.size_push, h.size]
  · rw [Array.getElem?_push] at hn
    have hsize := h.size
    split at hn
    · rename_i hi
      cases hn
      refine ⟨p, by omega, hparent, ?_⟩
      show (s.edges.push _)[i]? = _
      rw [show i = s.edges.size by omega, Array.getElem?_push_size, hsize]
    · obtain ⟨q, hq, hparent', hedge⟩ := h.grown i n hn
      exact ⟨q, hq, hparent', getElem?_push_of_some hedge _⟩
  · obtain ⟨n, hn, hposition⟩ := h.hung a ha
    exact ⟨n, getElem?_push_of_some hn _, hposition⟩

/-- Berries do not change the tree they hang on. -/
theorem attach (h : s.Tree root) (hnode : s.nodes[v]? = some node) :
    (s.attach v size).Tree root := by
  rw [attach_of_node hnode]
  refine ⟨h.root, h.size, h.grown, fun a ha => ?_⟩
  rcases Array.mem_push.mp ha with hmem | rfl
  · exact h.hung a hmem
  · exact ⟨node, hnode, rfl⟩

/-! ### Paths -/

/-- The node that an edge leads to has a number one more than the edge. -/
theorem of_getElem?_edges (h : s.Tree root) {i : Nat} {e : Edge} (hi : s.edges[i]? = some e) :
    e.child = i + 1 ∧ e.parent ≤ i := by
  have hlt : i < s.edges.size := (Array.getElem?_eq_some_iff.mp hi).1
  have hlt' : i + 1 < s.nodes.size := by
    rw [h.size]
    omega
  obtain ⟨p, hp, _, hedge⟩ := h.grown i _ (Array.getElem?_eq_getElem hlt')
  rw [hi] at hedge
  cases hedge
  exact ⟨rfl, hp⟩

/-- In a tree, the position of an edge tells its child. -/
theorem getElem?_of_mem_edges (h : s.Tree root) {e : Edge} (he : e ∈ s.edges) :
    ∃ i, e.child = i + 1 ∧ e.parent ≤ i ∧ s.edges[i]? = some e := by
  obtain ⟨i, hi⟩ := Array.mem_iff_getElem?.mp he
  obtain ⟨hchild, hparent⟩ := h.of_getElem?_edges hi
  exact ⟨i, hchild, hparent, hi⟩

end Tree

/-- A way along edges. -/
inductive Path (edges : Array Edge) (u : Nat) : Nat → List Edge → Prop where
  | nil : Path edges u u []
  | snoc {path : List Edge} {e : Edge} (h : Path edges u e.parent path) (he : e ∈ edges) :
      Path edges u e.child (path ++ [e])

/-- A path ends with the edge to its last node, or it is empty. -/
theorem path_iff {edges : Array Edge} {path : List Edge} :
    Path edges u v path ↔ (v = u ∧ path = []) ∨
      ∃ e ∈ edges, e.child = v ∧ ∃ path', Path edges u e.parent path' ∧ path = path' ++ [e] := by
  apply Iff.intro
  · intro h
    cases h with
    | nil => exact .inl ⟨rfl, rfl⟩
    | snoc h he => exact .inr ⟨_, he, rfl, _, h, rfl⟩
  · rintro (⟨rfl, rfl⟩ | ⟨e, he, rfl, path', h, rfl⟩)
    · exact .nil
    · exact .snoc h he

/-- **One path leads from the root to each node.** -/
theorem Tree.existsUnique_path (h : s.Tree root) (hv : v < s.nodes.size) :
    ∃! path, Path s.edges 0 v path := by
  -- The last edge of a path is the one from the parent, which has a smaller number.
  induction v using Nat.strong_induction_on with
  | h v ih =>
    cases v with
    | zero =>
      refine ⟨[], .nil, fun path hpath => ?_⟩
      rcases path_iff.mp hpath with ⟨_, hnil⟩ | ⟨e, he, hchild, _⟩
      · exact hnil
      · obtain ⟨i, hi, _⟩ := h.getElem?_of_mem_edges he
        omega
    | succ i =>
      obtain ⟨p, hp, _, hedge⟩ := h.grown i _ (Array.getElem?_eq_getElem hv)
      obtain ⟨path, hpath, hunique⟩ := ih p (by omega) (by omega)
      refine ⟨path ++ [⟨p, i + 1⟩], .snoc hpath (Array.mem_of_getElem? hedge), fun path' h' => ?_⟩
      rcases path_iff.mp h' with ⟨hzero, _⟩ | ⟨e, he, hchild, before, hbefore, rfl⟩
      · cases hzero
      · obtain ⟨j, hj, _, hedge'⟩ := h.getElem?_of_mem_edges he
        obtain rfl : j = i := by omega
        rw [hedge] at hedge'
        cases hedge'
        rw [hunique before hbefore]

end Grapevine.Skeleton
