import Grapevine.Proofs.Skeleton.Tree

/-! Cutting nodes and berries out of a skeleton.

What is cut out are a stretch of the nodes, with the edges that lead to them, and a stretch of the
berries. What is behind them moves up, and the numbers of nodes are lowered to match (`prune`). It
makes no difference whether a skeleton is pruned before or after it grows on (`prune_addNode`,
`prune_attach`), and all that a tree has grown can be cut off again (`prune_of_extends`). -/
namespace Grapevine

/-- So many numbers from a first one on. -/
structure Stretch where
  start : Nat
  length : Nat
deriving DecidableEq

namespace Stretch

variable {α : Type _} {r : Stretch} {i : Nat} {a : Array α}

/-- The first number behind the stretch. -/
def stop (r : Stretch) : Nat := r.start + r.length

/-- The number is not in the stretch. -/
def Misses (r : Stretch) (i : Nat) : Prop := i < r.start ∨ r.stop ≤ i

instance (r : Stretch) (i : Nat) : Decidable (r.Misses i) := inferInstanceAs (Decidable (_ ∨ _))

/-- Where a number is when the stretch has been cut out. -/
def lower (r : Stretch) (i : Nat) : Nat := if r.stop ≤ i then i - r.length else i

/-- The entries whose numbers are not in the stretch. -/
def cut (r : Stretch) (a : Array α) : Array α :=
  (a.toList.take r.start ++ a.toList.drop r.stop).toArray

theorem lower_of_lt (h : i < r.start) : r.lower i = i :=
  if_neg (Nat.not_le.mpr (Nat.lt_of_lt_of_le h (Nat.le_add_right ..)))

theorem lower_le : r.lower i ≤ i := by
  rw [lower]
  split
  · exact Nat.sub_le ..
  · exact Nat.le_refl i

/-- Past the stretch, what follows another still follows it. -/
theorem lower_succ (h : r.stop ≤ i) : r.lower (i + 1) = r.lower i + 1 := by
  rw [lower, lower, if_pos h, if_pos (h.trans (Nat.le_succ i))]
  exact Nat.sub_add_comm (Nat.le_trans (Nat.le_add_left ..) h)

theorem lower_stop : r.lower r.stop = r.start := by
  rw [lower, if_pos (Nat.le_refl _)]
  exact Nat.add_sub_cancel ..

/-- What is pushed past a stretch is not cut out. -/
theorem cut_push (h : r.stop ≤ a.size) (x : α) : r.cut (a.push x) = (r.cut a).push x := by
  have hstart : r.start ≤ a.toList.length := (Nat.le_add_right ..).trans h
  rw [cut, cut, Array.toList_push, List.take_append_of_le_length hstart,
    List.drop_append_of_le_length h, List.push_toArray, List.append_assoc]

theorem size_cut (h : r.stop ≤ a.size) : (r.cut a).size = r.lower a.size := by
  rw [cut, List.size_toArray, List.length_append, List.length_take, List.length_drop, lower,
    if_pos h, Array.length_toList]
  rw [stop] at *
  omega

/-- What is not cut out stands at its lowered place. -/
theorem getElem?_cut_lower (h : r.stop ≤ a.size) (hi : r.Misses i) :
    (r.cut a)[r.lower i]? = a[i]? := by
  have hlen : (a.toList.take r.start).length = r.start :=
    List.length_take_of_le ((Nat.le_add_right ..).trans h)
  rw [cut, List.getElem?_toArray, ← Array.getElem?_toList]
  rcases hi with hlt | hle
  · rw [lower_of_lt hlt, List.getElem?_append_left (by rwa [hlen]), List.getElem?_take_of_lt hlt]
  · have hlower : r.lower i = i - r.length := if_pos hle
    rw [stop] at hle
    rw [hlower, List.getElem?_append_right (by omega), hlen, List.getElem?_drop, stop,
      show r.start + r.length + (i - r.length - r.start) = i by omega]

/-- What is behind an array can be cut off. -/
theorem cut_append (a b : Array α) : cut ⟨a.size, b.size⟩ (a ++ b) = a := by
  have hlen : (a ++ b).toList.length ≤ a.size + b.size := by
    rw [Array.length_toList, Array.size_append]
  rw [cut, stop, List.drop_eq_nil_of_le hlen, Array.toList_append]
  simp

end Stretch

namespace Skeleton

variable {root node : Node} {s s' : Skeleton} {r q : Stretch} {p v : Nat} {size : Float32}

def Node.lower (r : Stretch) (n : Node) : Node := { n with parent := n.parent.map r.lower }

def Edge.lower (r : Stretch) (e : Edge) : Edge := ⟨r.lower e.parent, r.lower e.child⟩

def Attachment.lower (r : Stretch) (a : Attachment) : Attachment :=
  { a with node := r.lower a.node }

theorem Node.lower_of_lt {n : Node} (h : ∀ p, n.parent = some p → p < r.start) : n.lower r = n := by
  obtain ⟨position, rotation, width, parent⟩ := n
  cases parent with
  | none => rfl
  | some p =>
    rw [lower, Option.map_some, Stretch.lower_of_lt (h p rfl)]

theorem Edge.lower_of_lt {e : Edge} (hparent : e.parent < r.start) (hchild : e.child < r.start) :
    e.lower r = e := by
  rw [lower, Stretch.lower_of_lt hparent, Stretch.lower_of_lt hchild]

theorem Attachment.lower_of_lt {a : Attachment} (h : a.node < r.start) : a.lower r = a := by
  rw [lower, Stretch.lower_of_lt h]

/-- Cuts out a stretch of nodes, with the edges to them, and a stretch of berries. -/
def prune (s : Skeleton) (nodes berries : Stretch) : Skeleton where
  nodes := (nodes.cut s.nodes).map (·.lower nodes)
  edges := (s.edges.filter (nodes.Misses ·.child)).map (·.lower nodes)
  attachments := (berries.cut s.attachments).map (·.lower nodes)

/-- What is left names none of the nodes that are cut out. -/
structure Spares (s : Skeleton) (nodes berries : Stretch) : Prop where
  parents : ∀ n ∈ nodes.cut s.nodes, ∀ p, n.parent = some p → nodes.Misses p
  edges : ∀ e ∈ s.edges, nodes.Misses e.child → nodes.Misses e.parent
  hung : ∀ a ∈ berries.cut s.attachments, nodes.Misses a.node

theorem size_nodes_prune (h : r.stop ≤ s.nodes.size) :
    (s.prune r q).nodes.size = r.lower s.nodes.size := by
  rw [prune, Array.size_map, Stretch.size_cut h]

/-! ### Growth -/

/-- A node that grows behind the stretch grows on the pruned skeleton as well. -/
theorem prune_addNode (hroom : s.nodes.size < 2 ^ 32) (hparent : node.parent = some p)
    (h : r.stop ≤ s.nodes.size) :
    (s.addNode node).prune r q = (s.prune r q).addNode (node.lower r) := by
  have hroom' : r.lower s.nodes.size < 2 ^ 32 := r.lower_le.trans_lt hroom
  have hlower : (node.lower r).parent = some (r.lower p) := by
    rw [Node.lower, hparent]
    rfl
  have hnodes : (r.cut (s.nodes.push node)).map (·.lower r) =
      ((r.cut s.nodes).map (·.lower r)).push (node.lower r) := by
    rw [Stretch.cut_push h, Array.map_push]
  have hedges : ((s.edges.push ⟨p, s.nodes.size⟩).filter (r.Misses ·.child)).map (·.lower r) =
      ((s.edges.filter (r.Misses ·.child)).map (·.lower r)).push
        ⟨r.lower p, r.lower s.nodes.size⟩ := by
    have hmisses : r.Misses s.nodes.size := .inr h
    simp [hmisses, Edge.lower]
  rw [addNode_of_parent hparent, addNode_of_parent hlower, size_nodes_prune h, number_of_lt hroom,
    number_of_lt hroom']
  simp only [prune, hnodes, hedges]

/-- A berry hung behind the stretch hangs on the pruned skeleton as well. -/
theorem prune_attach (hnode : s.nodes[v]? = some node) (hv : r.Misses v)
    (h : r.stop ≤ s.nodes.size) (hq : q.stop ≤ s.attachments.size) :
    (s.attach v size).prune r q = (s.prune r q).attach (r.lower v) size := by
  have hlower : (s.prune r q).nodes[r.lower v]? = some (node.lower r) := by
    rw [prune, Array.getElem?_map, Stretch.getElem?_cut_lower h hv, hnode]
    rfl
  rw [attach_of_node hnode, attach_of_node hlower]
  simp only [prune, Stretch.cut_push hq, Array.map_push]
  rfl

/-- A node on a node that is kept refers to nothing that is cut out. -/
theorem Spares.addNode (hs : s.Spares r q) (hparent : node.parent = some p) (hp : r.Misses p)
    (h : r.stop ≤ s.nodes.size) : (s.addNode node).Spares r q := by
  rw [addNode_of_parent hparent]
  refine ⟨fun n hn u hu => ?_, fun e he hchild => ?_, hs.hung⟩
  · rw [Stretch.cut_push h] at hn
    rcases Array.mem_push.mp hn with hmem | rfl
    · exact hs.parents n hmem u hu
    · rw [hparent] at hu
      cases hu
      exact hp
  · rcases Array.mem_push.mp he with hmem | rfl
    · exact hs.edges e hmem hchild
    · exact hp

/-- Nor does a berry on such a node. -/
theorem Spares.attach (hs : s.Spares r q) (hnode : s.nodes[v]? = some node) (hv : r.Misses v)
    (hq : q.stop ≤ s.attachments.size) : (s.attach v size).Spares r q := by
  rw [attach_of_node hnode]
  refine ⟨hs.parents, hs.edges, fun a ha => ?_⟩
  rw [Stretch.cut_push hq] at ha
  rcases Array.mem_push.mp ha with hmem | rfl
  · exact hs.hung a hmem
  · exact hv

/-! ### What has grown -/

/-- The skeleton has grown on. -/
def Extends (s s' : Skeleton) : Prop :=
  ∃ nodes edges attachments,
    s' = ⟨s.nodes ++ nodes, s.edges ++ edges, s.attachments ++ attachments⟩

theorem Extends.refl (s : Skeleton) : s.Extends s := ⟨#[], #[], #[], by simp⟩

theorem Extends.trans {s₁ s₂ s₃ : Skeleton} (h : s₁.Extends s₂) (h' : s₂.Extends s₃) :
    s₁.Extends s₃ := by
  obtain ⟨nodes, edges, attachments, rfl⟩ := h
  obtain ⟨nodes', edges', attachments', rfl⟩ := h'
  exact ⟨nodes ++ nodes', edges ++ edges', attachments ++ attachments',
    by simp only [Array.append_assoc]⟩

theorem extends_addNode (s : Skeleton) (node : Node) : s.Extends (s.addNode node) := by
  cases hparent : node.parent with
  | none => exact ⟨#[node], #[], #[], by simp [addNode, hparent]⟩
  | some p => exact ⟨#[node], #[⟨p, number s.nodes.size⟩], #[], by simp [addNode, hparent]⟩

theorem extends_attach (s : Skeleton) (v : Nat) (size : Float32) : s.Extends (s.attach v size) := by
  cases hnode : s.nodes[v]? with
  | none => exact ⟨#[], #[], #[], by simp [attach, hnode]⟩
  | some node => exact ⟨#[], #[], #[⟨v, node.position, size⟩], by simp [attach, hnode]⟩

namespace Tree

/-- In a tree, parents are nodes. -/
theorem parent_lt (h : s.Tree root) (hroot : root.parent = none) {n : Node} (hn : n ∈ s.nodes)
    (hp : n.parent = some p) : p < s.nodes.size := by
  obtain ⟨i, hi⟩ := Array.mem_iff_getElem?.mp hn
  have hlt : i < s.nodes.size := (Array.getElem?_eq_some_iff.mp hi).1
  cases i with
  | zero =>
    rw [h.root] at hi
    cases hi
    rw [hroot] at hp
    cases hp
  | succ i =>
    obtain ⟨p', hle, hparent, _⟩ := h.grown i n hi
    rw [hp] at hparent
    cases hparent
    omega

/-- In a tree, edges lead from a node to one of a higher number. -/
theorem edge_lt (h : s.Tree root) {e : Edge} (he : e ∈ s.edges) :
    e.parent < e.child ∧ e.child < s.nodes.size := by
  obtain ⟨i, hi, hle, hedge⟩ := h.getElem?_of_mem_edges he
  have hlt : i < s.edges.size := (Array.getElem?_eq_some_iff.mp hedge).1
  have hsize := h.size
  omega

/-- In a tree, berries hang on nodes. -/
theorem node_lt (h : s.Tree root) {a : Attachment} (ha : a ∈ s.attachments) :
    a.node < s.nodes.size := by
  obtain ⟨n, hn, _⟩ := h.hung a ha
  exact (Array.getElem?_eq_some_iff.mp hn).1

end Tree

theorem map_eq_self {α : Type _} {a : Array α} {f : α → α} (h : ∀ x ∈ a, f x = x) : a.map f = a :=
  (Array.map_congr_left h).trans (Array.map_id a)

/-- New edges lead to new nodes, since edges are numbered as the nodes that they lead to. -/
theorem Tree.not_misses_of_fresh {nodes : Array Node} {edges : Array Edge}
    {berries : Array Attachment} (hs : s.Tree root)
    (hs' : Tree root ⟨s.nodes ++ nodes, s.edges ++ edges, s.attachments ++ berries⟩) :
    ∀ e ∈ edges, ¬ Stretch.Misses ⟨s.nodes.size, nodes.size⟩ e.child := by
  intro e he
  obtain ⟨i, hi⟩ := Array.mem_iff_getElem?.mp he
  have hedge : (s.edges ++ edges)[s.edges.size + i]? = some e := by
    rw [Array.getElem?_append_right (Nat.le_add_right ..), Nat.add_sub_cancel_left, hi]
  have hchild := (hs'.of_getElem?_edges hedge).1
  have hlt := (hs'.edge_lt (Array.mem_of_getElem? hedge)).2
  have hsize := hs.size
  rw [Array.size_append] at hlt
  show ¬ (e.child < s.nodes.size ∨ s.nodes.size + nodes.size ≤ e.child)
  omega

/-- **All that a tree has grown can be cut off again,** and no other part of it names what is cut
off. -/
theorem prune_of_extends {nodes : Array Node} {edges : Array Edge} {berries : Array Attachment}
    (hroot : root.parent = none) (hs : s.Tree root)
    (hs' : Tree root ⟨s.nodes ++ nodes, s.edges ++ edges, s.attachments ++ berries⟩) :
    prune ⟨s.nodes ++ nodes, s.edges ++ edges, s.attachments ++ berries⟩
        ⟨s.nodes.size, nodes.size⟩ ⟨s.attachments.size, berries.size⟩ = s ∧
      Spares ⟨s.nodes ++ nodes, s.edges ++ edges, s.attachments ++ berries⟩
        ⟨s.nodes.size, nodes.size⟩ ⟨s.attachments.size, berries.size⟩ := by
  have hfresh := hs.not_misses_of_fresh hs'
  have hkept : ∀ e ∈ s.edges, Stretch.Misses ⟨s.nodes.size, nodes.size⟩ e.child :=
    fun e he => .inl (hs.edge_lt he).2
  have hedges : (s.edges ++ edges).filter
      (Stretch.Misses ⟨s.nodes.size, nodes.size⟩ ·.child) = s.edges := by
    rw [Array.filter_append Array.size_append, Array.filter_eq_self.mpr (by simpa using hkept),
      Array.filter_eq_empty_iff.mpr (by simpa using hfresh), Array.append_empty]
  refine ⟨?_, ?_, ?_, ?_⟩
  · rw [prune, Stretch.cut_append, Stretch.cut_append, hedges]
    rw [map_eq_self fun n hn => Node.lower_of_lt fun p hp => hs.parent_lt hroot hn hp,
      map_eq_self fun e he =>
        Edge.lower_of_lt ((hs.edge_lt he).1.trans (hs.edge_lt he).2) (hs.edge_lt he).2,
      map_eq_self fun a ha => Attachment.lower_of_lt (hs.node_lt ha)]
  · rw [Stretch.cut_append]
    exact fun n hn p hp => .inl (hs.parent_lt hroot hn hp)
  · intro e he hchild
    rcases Array.mem_append.mp he with hmem | hmem
    · exact .inl ((hs.edge_lt hmem).1.trans (hs.edge_lt hmem).2)
    · exact absurd hchild (hfresh e hmem)
  · rw [Stretch.cut_append]
    exact fun a ha => .inl (hs.node_lt ha)

end Skeleton

end Grapevine
