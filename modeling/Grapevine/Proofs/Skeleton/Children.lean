import Grapevine.Proofs.Shoot.Skeleton
import Grapevine.Proofs.Skeleton.Tree

/-! Children, leaves and parents.

Children are listed and leaves are flagged from the edges alone, whatever these name, so the two
agree in every skeleton that has numbers for all nodes (`mem_leaves_iff`). What a node says of its
parent is a second account. The operations on skeletons keep it in line with the edges (`Coherent`),
and then the children of a node are those that name it (`Coherent.children_eq`). -/
namespace Grapevine.Skeleton

variable {s : Skeleton} {v p q : Nat}

/-- The parent that a node names. -/
def parent? (s : Skeleton) (v : Nat) : Option Nat := s.nodes[v]?.bind Node.parent

/-- A skeleton that is made by the operations on skeletons. The parents that nodes name may be made
later, or never. -/
inductive Built : Skeleton → Prop where
  | empty : Built {}
  | ofRoot (position : Vec3) (rotation : Rotation) (width : Float32) :
      Built (.ofRoot position rotation width)
  | addNode {s : Skeleton} (h : Built s) (node : Node) : Built (s.addNode node)
  | attach {s : Skeleton} (h : Built s) (v : Nat) (size : Float32) : Built (s.attach v size)

/-! ### Leaves -/

theorem children_eq_nil_iff : s.children v = [] ↔ outdegree s.edges.toList v = 0 := by
  rw [← length_children, List.length_eq_zero_iff]

/-- **A leaf is a node without children.** -/
theorem mem_leaves_iff (hroom : s.nodes.size ≤ 2 ^ 32) :
    v ∈ s.leaves ↔ v < s.nodes.size ∧ s.children v = [] := by
  rw [leaves_of_le hroom, List.mem_filter, children_eq_nil_iff, decide_eq_true_iff, List.mem_range'_1]
  simp

/-- Leaves are listed in the order of their numbers, each once. -/
theorem pairwise_leaves (hroom : s.nodes.size ≤ 2 ^ 32) : s.leaves.Pairwise (· < ·) := by
  rw [leaves_of_le hroom]
  exact List.Pairwise.filter _ List.pairwise_lt_range'

/-! ### Parents -/

/-- The edge that a node says leads to it. -/
def edgeTo? (s : Skeleton) (v : Nat) : Option Edge := (s.parent? v).map fun p => ⟨p, number v⟩

/-- There is an edge for each node that names a parent, in the order of the nodes, and the berries
hang on nodes. -/
structure Coherent (s : Skeleton) : Prop where
  edges : s.edges.toList = (List.range s.nodes.size).filterMap s.edgeTo?
  hung : ∀ a ∈ s.attachments, a.node < s.nodes.size

theorem parent?_addNode_of_lt {node : Node} (h : v < s.nodes.size) :
    (s.addNode node).parent? v = s.parent? v := by
  show ((s.nodes.push node)[v]?).bind Node.parent = _
  rw [Array.getElem?_push_lt h, parent?, Array.getElem?_eq_getElem h]

theorem parent?_addNode_self (s : Skeleton) (node : Node) :
    (s.addNode node).parent? s.nodes.size = node.parent := by
  show ((s.nodes.push node)[s.nodes.size]?).bind Node.parent = _
  rw [Array.getElem?_push_size]
  rfl

theorem toList_edges_addNode (s : Skeleton) (node : Node) :
    (s.addNode node).edges.toList =
      s.edges.toList ++ (node.parent.map fun p => ⟨p, number s.nodes.size⟩).toList := by
  cases hparent : node.parent <;> simp [addNode, hparent]

theorem coherent_empty : Coherent {} := ⟨rfl, fun a ha => by simp at ha⟩

/-- A new node adds to the edges what it adds to the parents. -/
theorem Coherent.addNode (h : s.Coherent) (node : Node) : (s.addNode node).Coherent where
  edges := by
    have hold : (List.range s.nodes.size).filterMap (s.addNode node).edgeTo? = s.edges.toList := by
      rw [h.edges]
      apply List.filterMap_congr
      intro v hv
      rw [edgeTo?, parent?_addNode_of_lt (List.mem_range.mp hv), edgeTo?]
    have hnew := s.parent?_addNode_self node
    rw [size_nodes_addNode, List.range_succ, List.filterMap_append, hold, toList_edges_addNode]
    cases hparent : node.parent <;> simp [edgeTo?, hnew, hparent]
  hung a ha := by
    rw [size_nodes_addNode]
    exact Nat.lt_succ_of_lt (h.hung a ha)

theorem Coherent.attach (h : s.Coherent) (v : Nat) (size : Float32) :
    (s.attach v size).Coherent := by
  cases hnode : s.nodes[v]? with
  | none =>
    have hsame : s.attach v size = s := by simp only [Skeleton.attach, hnode]
    rwa [hsame]
  | some node =>
    rw [attach_of_node hnode]
    refine ⟨h.edges, fun a ha => ?_⟩
    rcases Array.mem_push.mp ha with hmem | rfl
    · exact h.hung a hmem
    · exact (Array.getElem?_eq_some_iff.mp hnode).1

/-- Whatever is built node by node is coherent. -/
theorem Built.coherent (h : s.Built) : s.Coherent := by
  induction h with
  | empty => exact coherent_empty
  | ofRoot => exact coherent_empty.addNode _
  | addNode _ node ih => exact ih.addNode node
  | attach _ v size ih => exact ih.attach v size

/-- Children are the nodes that name a node as their parent. -/
theorem Coherent.children_eq_map (h : s.Coherent) (p : Nat) :
    s.children p =
      ((List.range s.nodes.size).filter fun v => s.parent? v = some p).map number := by
  rw [children, h.edges, List.filterMap_filterMap, ← List.filterMap_eq_filter, List.map_filterMap]
  apply List.filterMap_congr
  intro v _
  rw [Option.guard_apply, edgeTo?]
  cases s.parent? v with
  | none => rfl
  | some q => by_cases hq : q = p <;> simp [hq]

/-- **The children of a node are the nodes that name it**, in their own order. -/
theorem Coherent.children_eq (h : s.Coherent) (hroom : s.nodes.size ≤ 2 ^ 32) (p : Nat) :
    s.children p = (List.range s.nodes.size).filter fun v => s.parent? v = some p := by
  rw [h.children_eq_map]
  apply map_number_of_lt
  intro v hv
  have hlt := List.mem_range.mp (List.mem_filter.mp hv).1
  omega

/-- A node occurs once among the children of the parent that it names, and nowhere else. -/
theorem Coherent.count_children (h : s.Coherent) (hroom : s.nodes.size ≤ 2 ^ 32)
    (hv : s.parent? v = some q) (p : Nat) :
    (s.children p).count v = if p = q then 1 else 0 := by
  have hlt : v < s.nodes.size := by
    by_contra hge
    rw [parent?, Array.getElem?_eq_none (Nat.le_of_not_lt hge)] at hv
    cases hv
  rw [h.children_eq hroom]
  split
  · rename_i hpq
    rw [List.count_filter (by simp [hv, hpq])]
    exact List.count_eq_one_of_mem List.nodup_range (List.mem_range.mpr hlt)
  · rename_i hpq
    refine List.count_eq_zero.mpr fun hmem => hpq ?_
    have hparent := of_decide_eq_true (List.mem_filter.mp hmem).2
    rw [hv] at hparent
    exact (Option.some.inj hparent).symm

/-- **Children, leaves and parents agree.** Whatever its edges name, the leaves of a skeleton that
has numbers for all its nodes are the nodes without children, in order. If it is made by the
operations on skeletons, then the children of a node are the nodes that name it as their parent, so
that every node with a parent stands once among the children of one node; and its berries hang on
nodes, also where numbers have run out. -/
theorem children_leaves_parents :
    (∀ s : Skeleton, s.nodes.size ≤ 2 ^ 32 → s.leaves.Pairwise (· < ·) ∧
      ∀ v, v ∈ s.leaves ↔ v < s.nodes.size ∧ s.children v = []) ∧
    ∀ s : Skeleton, s.Built →
      (s.nodes.size ≤ 2 ^ 32 →
        (∀ p, s.children p = (List.range s.nodes.size).filter fun v => s.parent? v = some p) ∧
        ∀ v q, s.parent? v = some q → ∀ p, (s.children p).count v = if p = q then 1 else 0) ∧
      ∀ a ∈ s.attachments, ∃ node, s.nodes[a.node]? = some node := by
  refine ⟨fun s hroom => ⟨pairwise_leaves hroom, fun _ => mem_leaves_iff hroom⟩, fun s h => ?_⟩
  have hcoherent := h.coherent
  refine ⟨fun hroom => ⟨hcoherent.children_eq hroom, fun _ _ hv => ?_⟩, fun a ha => ?_⟩
  · exact hcoherent.count_children hroom hv
  · exact ⟨_, Array.getElem?_eq_getElem (hcoherent.hung a ha)⟩

/-- A parent can be named before it is made, and can be one that never is. -/
theorem children_leaves_parents_late : ∃ s : Skeleton, s.Built ∧
    s.children 2 = [0] ∧ s.children 7 = [1] ∧ (s.children 2).count 1 = 0 ∧ 1 ∈ s.leaves ∧
    ∀ a ∈ s.attachments, ∃ node, s.nodes[a.node]? = some node := by
  have hbuilt : Built (addNode (attach (addNode (addNode {} ⟨.zero, .identity, 1, some 2⟩)
      ⟨.zero, .identity, 1, some 7⟩) 2 1) ⟨.zero, .identity, 1, none⟩) :=
    (((Built.empty.addNode _).addNode _).attach 2 1).addNode _
  obtain ⟨hall, hmade⟩ := children_leaves_parents
  obtain ⟨hparents, hhung⟩ := hmade _ hbuilt
  obtain ⟨hchildren, hcount⟩ := hparents (by decide)
  refine ⟨_, hbuilt, (hchildren 2).trans rfl, (hchildren 7).trans rfl, hcount 1 7 rfl 2,
    ((hall _ (by decide)).2 1).mpr ⟨?_, (hchildren 1).trans rfl⟩, hhung⟩
  show 1 < 3
  decide

end Grapevine.Skeleton
