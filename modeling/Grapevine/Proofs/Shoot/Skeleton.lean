import Grapevine.Skeleton
import Grapevine.Proofs.Shoot.Joints

/-! The skeleton of a shoot.

Nodes are numbered as they are drawn, so each joint of a shoot has the number of its segment
(`numbered`). The edges that a walk makes along the shoot leave every joint as often as it has
branches (`map_outdegree_edges`), and if there are numbers for all joints, the leaves of the
skeleton are its pedicels (`Grown.leaves`). If there are far too few, most joints are left without
children (`Grown.le_countP_childless`). -/
namespace Grapevine

open Skeleton

/-! ### Numbering -/

section Numbered

variable {α : Type _} {p q : α → Bool}

/-- The numbers of the members of a list that pass a test, if the first one has number `n`. -/
def numbered (p : α → Bool) : Nat → List α → List Nat
  | _, [] => []
  | n, x :: l => if p x then n :: numbered p (n + 1) l else numbered p (n + 1) l

theorem numbered_cons (n : Nat) (x : α) (l : List α) :
    numbered p n (x :: l) = (if p x then [n] else []) ++ numbered p (n + 1) l := by
  rw [numbered]
  split <;> rfl

theorem numbered_append (n : Nat) (u v : List α) :
    numbered p n (u ++ v) = numbered p n u ++ numbered p (n + u.length) v := by
  induction u generalizing n with
  | nil => rfl
  | cons x u ih =>
    rw [List.cons_append, numbered_cons, numbered_cons, ih, List.append_assoc, List.length_cons,
      Nat.add_assoc, Nat.add_comm 1]

theorem mem_numbered {n v : Nat} {l : List α} (h : v ∈ numbered p n l) :
    n ≤ v ∧ ∃ x, l[v - n]? = some x ∧ p x = true := by
  induction l generalizing n with
  | nil => cases h
  | cons x l ih =>
    rw [numbered_cons, List.mem_append] at h
    rcases h with h | h
    · split at h
      · rename_i hx
        rw [List.mem_singleton.mp h]
        exact ⟨Nat.le_refl n, x, by rw [Nat.sub_self]; rfl, hx⟩
      · cases h
    · obtain ⟨hle, y, hy, hpy⟩ := ih h
      refine ⟨by omega, y, ?_, hpy⟩
      rw [show v - n = v - (n + 1) + 1 by omega]
      exact hy

/-- A second test can look up the members by their numbers. -/
theorem numbered_and (n : Nat) (l : List α) :
    numbered (fun x => p x && q x) n l = (numbered p n l).filter fun v => l[v - n]?.any q := by
  induction l generalizing n with
  | nil => rfl
  | cons x l ih =>
    have hrest : (numbered p (n + 1) l).filter (fun v => (x :: l)[v - n]?.any q) =
        numbered (fun x => p x && q x) (n + 1) l := by
      rw [ih]
      apply List.filter_congr
      intro v hv
      have hle := (mem_numbered hv).1
      rw [show v - n = v - (n + 1) + 1 by omega]
      rfl
    rw [numbered_cons, numbered_cons, List.filter_append, hrest]
    congr 1
    cases p x <;> cases hq : q x <;> simp [hq]

theorem filter_range' (f : Nat → α) (n m : Nat) :
    (List.range' n m).filter (fun v => p (f v)) = numbered p n ((List.range' n m).map f) := by
  induction m generalizing n with
  | zero => rfl
  | succ m ih =>
    rw [List.range'_succ, List.map_cons, numbered_cons, ← ih, List.filter_cons]
    split <;> rfl

theorem numbered_map {β : Type _} (f : β → α) (n : Nat) (l : List β) :
    numbered p n (l.map f) = numbered (fun x => p (f x)) n l := by
  induction l generalizing n with
  | nil => rfl
  | cons x l ih => rw [List.map_cons, numbered_cons, numbered_cons, ih]

theorem length_numbered (n : Nat) (l : List α) : (numbered p n l).length = l.countP p := by
  induction l generalizing n with
  | nil => rfl
  | cons x l ih =>
    rw [numbered_cons, List.length_append, ih, List.countP_cons, Nat.add_comm]
    split <;> rfl

/-- What passes a test from some number on. -/
theorem le_countP_range' {test : Nat → Bool} {m : Nat} (h : ∀ v, m ≤ v → test v = true) (n : Nat) :
    n - m ≤ (List.range' 1 n).countP test := by
  induction n with
  | zero => exact (Nat.zero_sub m).le
  | succ n ih =>
    rw [List.range'_1_concat, List.countP_append, List.countP_singleton]
    by_cases hle : m ≤ 1 + n
    · rw [if_pos (h _ hle)]
      omega
    · omega

end Numbered

/-! ### Children and leaves -/

namespace Skeleton

/-- How many edges leave a node. -/
def outdegree (edges : List Edge) (v : Nat) : Nat := edges.countP (·.parent = v)

theorem outdegree_append (u w : List Edge) (v : Nat) :
    outdegree (u ++ w) v = outdegree u v + outdegree w v := List.countP_append

theorem outdegree_cons (e : Edge) (u : List Edge) (v : Nat) :
    outdegree (e :: u) v = outdegree u v + if e.parent = v then 1 else 0 := by
  simp [outdegree, List.countP_cons]

theorem length_children (s : Skeleton) (v : Nat) :
    (s.children v).length = outdegree s.edges.toList v := by
  rw [children, List.length_filterMap_eq_countP, outdegree]
  apply List.countP_congr
  intro e _
  split <;> simp_all

theorem getElem?_flags (edges : List Edge) (flags : Array Bool) (i : Nat) :
    (edges.foldl (fun flags e => flags.setIfInBounds e.parent true) flags)[i]? =
      flags[i]?.map (· || decide (0 < outdegree edges i)) := by
  induction edges generalizing flags with
  | nil => simp [outdegree]
  | cons e edges ih =>
    rw [List.foldl_cons, ih, outdegree_cons, Array.getElem?_setIfInBounds]
    by_cases h : e.parent = i
    · subst h
      by_cases hlt : e.parent < flags.size <;> simp [hlt]
    · simp [h]

theorem toList_parentFlags (s : Skeleton) :
    s.parentFlags.toList =
      (List.range' 0 s.nodes.size).map fun v => decide (0 < outdegree s.edges.toList v) := by
  apply List.ext_getElem?
  intro i
  rw [parentFlags, ← Array.foldl_toList, Array.getElem?_toList, getElem?_flags]
  by_cases h : i < s.nodes.size
  · simp [h]
  · simp [h]

/-- **The leaves are the nodes that no edge leaves.** -/
theorem leaves_eq (s : Skeleton) :
    s.leaves = ((List.range' 0 s.nodes.size).filter fun v =>
      decide (outdegree s.edges.toList v = 0)).map number := by
  have hnumbered : ∀ (n : Nat) (flags : List Bool),
      (flags.zipIdx n).filterMap (fun x => if x.1 then none else some (number x.2)) =
        (numbered (! ·) n flags).map number := by
    intro n flags
    induction flags generalizing n with
    | nil => rfl
    | cons flag flags ih =>
      rw [List.zipIdx_cons, List.filterMap_cons, numbered_cons, List.map_append, ← ih]
      cases flag <;> rfl
  refine (hnumbered 0 _).trans (congrArg _ ?_)
  rw [toList_parentFlags, ← filter_range']
  apply List.filter_congr
  intro v _
  simp [Nat.pos_iff_ne_zero]

theorem map_number_of_lt {l : List Nat} (h : ∀ v ∈ l, v < 2 ^ 32) : l.map number = l :=
  (List.map_congr_left fun v hv => number_of_lt (h v hv)).trans (List.map_id l)

/-- With numbers for all nodes, the leaves are numbered as they stand. -/
theorem leaves_of_le {s : Skeleton} (h : s.nodes.size ≤ 2 ^ 32) :
    s.leaves =
      (List.range' 0 s.nodes.size).filter fun v => decide (outdegree s.edges.toList v = 0) := by
  rw [leaves_eq]
  apply map_number_of_lt
  intro v hv
  have hlt := (List.mem_range'_1.mp (List.mem_filter.mp hv).1).2
  omega

/-- The edge between the nodes that have the numbers of its ends. -/
def Edge.number (e : Edge) : Edge := ⟨Skeleton.number e.parent, Skeleton.number e.child⟩

end Skeleton

/-! ### The edges of a shoot -/

namespace Shoot

/-- The edges that are drawn from a node on, if the next node has number `n`. -/
def edges (parent n : Nat) : Shoot → List Edge
  | tip .. => [⟨parent, n⟩, ⟨n, n + 1⟩, ⟨n, n + 2⟩, ⟨n, n + 3⟩]
  | fork _ first second =>
    ⟨parent, n⟩ :: first.edges n (n + 1) ++ second.edges n (n + 1 + first.joints.length)

/-- The nodes that berries are hung on, if the next node has number `n`. -/
def bearing (n : Nat) (s : Shoot) : List Nat := numbered Joint.bears n s.joints

theorem length_edges (parent n : Nat) (s : Shoot) :
    (s.edges parent n).length = s.joints.length := by
  induction s generalizing parent n with
  | tip => rfl
  | fork _ _ _ ihf ihs =>
    simp only [edges, joints, List.length_append, List.length_cons, ihf, ihs]

theorem bearing_fork (n : Nat) (stalk : Stalk) (first second : Shoot) :
    (fork stalk first second).bearing n =
      first.bearing (n + 1) ++ second.bearing (n + 1 + first.joints.length) := by
  rw [bearing, joints, numbered_append, numbered_cons, List.length_cons, ← Nat.add_assoc,
    Nat.add_right_comm]
  rfl

/-- Edges leave the node where a shoot starts, and its own. -/
theorem parent_of_mem_edges {parent n : Nat} {s : Shoot} {e : Edge} (he : e ∈ s.edges parent n) :
    e.parent = parent ∨ (n ≤ e.parent ∧ e.parent < n + s.joints.length) := by
  induction s generalizing parent n with
  | tip =>
    simp only [edges, List.mem_cons, List.not_mem_nil, or_false] at he
    simp only [joints, List.length_cons, List.length_nil]
    rcases he with rfl | rfl | rfl | rfl <;> simp
  | fork _ _ _ ihf ihs =>
    rw [edges, List.mem_append, List.mem_cons] at he
    simp only [joints, List.length_append, List.length_cons]
    rcases he with (rfl | hf) | hs
    · exact .inl rfl
    · have hparent := ihf hf
      omega
    · have hparent := ihs hs
      omega

theorem child_of_mem_edges {parent n : Nat} {s : Shoot} {e : Edge} (he : e ∈ s.edges parent n) :
    n ≤ e.child ∧ e.child < n + s.joints.length := by
  induction s generalizing parent n with
  | tip =>
    simp only [edges, List.mem_cons, List.not_mem_nil, or_false] at he
    simp only [joints, List.length_cons, List.length_nil]
    rcases he with rfl | rfl | rfl | rfl <;> simp
  | fork _ _ _ ihf ihs =>
    rw [edges, List.mem_append, List.mem_cons] at he
    simp only [joints, List.length_append, List.length_cons]
    rcases he with (rfl | hf) | hs
    · simp
    · have hchild := ihf hf
      omega
    · have hchild := ihs hs
      omega

/-- Up to the last number, nodes have the numbers that they are counted by. -/
theorem map_number_edges {parent n : Nat} {s : Shoot} (hparent : parent < n)
    (hroom : n + s.joints.length ≤ 2 ^ 32) :
    (s.edges parent n).map Edge.number = s.edges parent n := by
  refine (List.map_congr_left fun e he => ?_).trans (List.map_id _)
  have hstart := parent_of_mem_edges he
  have hend := child_of_mem_edges he
  show Edge.mk (number e.parent) (number e.child) = e
  rw [number_of_lt (by omega), number_of_lt (by omega)]

theorem map_number_bearing {n : Nat} {s : Shoot} (hroom : n + s.joints.length ≤ 2 ^ 32) :
    (s.bearing n).map number = s.bearing n := by
  apply map_number_of_lt
  intro v hv
  obtain ⟨hle, j, hj, _⟩ := mem_numbered hv
  have hlt := (List.getElem?_eq_some_iff.mp hj).1
  omega

theorem outdegree_edges_of_outside {parent n v : Nat} {s : Shoot} (hne : v ≠ parent)
    (hv : v < n ∨ n + s.joints.length ≤ v) : outdegree (s.edges parent n) v = 0 := by
  apply List.countP_eq_zero.mpr
  intro e he
  have hparent := parent_of_mem_edges he
  simp only [decide_eq_true_eq]
  omega

/-- One edge leaves the node where a shoot starts. -/
theorem outdegree_edges_start {parent n : Nat} (h : parent < n) (s : Shoot) :
    outdegree (s.edges parent n) parent = 1 := by
  have hne : n ≠ parent := Nat.ne_of_gt h
  cases s with
  | tip => simp [edges, outdegree, hne]
  | fork _ first second =>
    rw [edges, outdegree_append, outdegree_cons,
      outdegree_edges_of_outside hne.symm (.inl (by omega)),
      outdegree_edges_of_outside hne.symm (.inl (by omega)), if_pos rfl]

/-- **Edges leave a joint as often as it has branches.** -/
theorem map_outdegree_edges {parent n : Nat} (h : parent < n) (s : Shoot) :
    (List.range' n s.joints.length).map (outdegree (s.edges parent n)) =
      s.joints.map Joint.branches := by
  have hne : parent ≠ n := Nat.ne_of_lt h
  induction s generalizing parent n with
  | tip =>
    have hsecond : ∀ k, parent ≠ n + (k + 1) := fun k => by omega
    simp [joints, edges, outdegree, List.range'_succ, hne, hsecond, Joint.branches, Nat.add_assoc]
  | fork stalk first second ihf ihs =>
    have hjoint : outdegree ((fork stalk first second).edges parent n) n = 2 := by
      rw [edges, outdegree_append, outdegree_cons, outdegree_edges_start (Nat.lt_succ_self n),
        outdegree_edges_start (by omega), if_neg hne]
    -- Behind the joint stand those of the first shoot, which the edges of the second do not leave.
    have hfirst : ∀ v ∈ List.range' (n + 1) first.joints.length,
        outdegree ((fork stalk first second).edges parent n) v =
          outdegree (first.edges n (n + 1)) v := by
      intro v hv
      obtain ⟨hle, hlt⟩ := List.mem_range'_1.mp hv
      rw [edges, outdegree_append, outdegree_cons, if_neg (show parent ≠ v by omega),
        outdegree_edges_of_outside (by omega) (.inl hlt)]
      rfl
    have hsecond : ∀ v ∈ List.range' (n + 1 + first.joints.length) second.joints.length,
        outdegree ((fork stalk first second).edges parent n) v =
          outdegree (second.edges n (n + 1 + first.joints.length)) v := by
      intro v hv
      obtain ⟨hle, hlt⟩ := List.mem_range'_1.mp hv
      rw [edges, outdegree_append, outdegree_cons, if_neg (show parent ≠ v by omega),
        outdegree_edges_of_outside (by omega) (.inr hle)]
      exact Nat.zero_add _
    rw [joints, List.length_append, List.length_cons, Nat.add_right_comm, List.range'_succ,
      List.map_cons, hjoint, ← List.range'_append_1, List.map_append, List.map_congr_left hfirst,
      List.map_congr_left hsecond, ihf (Nat.lt_succ_self n) (by omega), ihs (by omega) (by omega)]
    simp [Joint.branches]

/-! ### Whole skeletons -/

/-- A skeleton is that of a shoot on its root. -/
structure Grown (s : Shoot) (sk : Skeleton) : Prop where
  nodes : sk.nodes.size = s.joints.length + 1
  edges : sk.edges.toList = (s.edges 0 1).map Edge.number
  berries : sk.attachments.toList.map Attachment.node = (s.bearing 1).map number

namespace Grown

variable {s : Shoot} {sk : Skeleton}

theorem edges_of_le (h : s.Grown sk) (hroom : sk.nodes.size ≤ 2 ^ 32) :
    sk.edges.toList = s.edges 0 1 := by
  have hnodes := h.nodes
  rw [h.edges, map_number_edges Nat.one_pos (by omega)]

theorem length_children_root (h : s.Grown sk) (hroom : sk.nodes.size ≤ 2 ^ 32) :
    (sk.children 0).length = 1 := by
  rw [length_children, h.edges_of_le hroom, outdegree_edges_start Nat.one_pos]

theorem map_length_children (h : s.Grown sk) (hroom : sk.nodes.size ≤ 2 ^ 32) :
    (List.range' 1 s.joints.length).map (fun v => (sk.children v).length) =
      s.joints.map Joint.branches := by
  rw [← map_outdegree_edges Nat.one_pos s, ← h.edges_of_le hroom]
  simp only [length_children]

/-- Nodes other than the root have as many children as joints have branches. -/
theorem countP_children (h : s.Grown sk) (hroom : sk.nodes.size ≤ 2 ^ 32) (p : Nat → Bool) :
    (List.range' 1 s.joints.length).countP (fun v => p (sk.children v).length) =
      s.joints.countP fun j => p j.branches := by
  have hmap := congrArg (List.countP p) (h.map_length_children hroom)
  rwa [List.countP_map, List.countP_map] at hmap

/-- **The leaves are the pedicels.** -/
theorem leaves (h : s.Grown sk) (hroom : sk.nodes.size ≤ 2 ^ 32) :
    sk.leaves = numbered (·.branches = 0) 1 s.joints := by
  have hroot : outdegree (s.edges 0 1) 0 = 1 := outdegree_edges_start Nat.one_pos s
  rw [leaves_of_le hroom, h.nodes, h.edges_of_le hroom, List.range'_succ, List.filter_cons, hroot,
    filter_range' (p := (decide <| · = 0)), map_outdegree_edges Nat.one_pos, numbered_map]
  rfl

/-- **Berries hang on the leaves whose berry was not swallowed.** -/
theorem berries_eq (h : s.Grown sk) (hroom : sk.nodes.size ≤ 2 ^ 32) :
    sk.attachments.toList.map Attachment.node =
      sk.leaves.filter fun v => s.joints[v - 1]?.any (· ≠ .pedicel true) := by
  have hnodes := h.nodes
  rw [h.berries, h.leaves hroom, map_number_bearing (by omega), ← numbered_and, bearing]
  congr 1
  funext j
  cases j with
  | internode | tip => rfl
  | pedicel swallowed => cases swallowed <;> rfl

/-- As many leaves have no berry as berries were swallowed. -/
theorem length_swallowed (h : s.Grown sk) (hroom : sk.nodes.size ≤ 2 ^ 32) :
    (sk.leaves.filter fun v => s.joints[v - 1]? = some (.pedicel true)).length =
      s.joints.count (.pedicel true) := by
  have hany : ∀ v, decide (s.joints[v - 1]? = some (.pedicel true)) =
      s.joints[v - 1]?.any (· = .pedicel true) := by
    intro v
    cases s.joints[v - 1]? <;> simp
  simp only [hany]
  rw [h.leaves hroom, ← numbered_and, length_numbered, List.count]
  apply List.countP_congr
  intro j _
  rcases j with _ | _ | _ | _ <;> simp [Joint.branches]

/-- Every pedicel has a berry that was hung or swallowed. -/
theorem size_attachments (h : s.Grown sk) :
    sk.attachments.size + s.joints.count (.pedicel true) = s.joints.countP (·.branches = 0) := by
  have hlength := congrArg List.length h.berries
  rw [List.length_map, List.length_map, bearing, length_numbered, Array.length_toList] at hlength
  rw [hlength, List.count]
  clear h hlength
  induction s.joints with
  | nil => rfl
  | cons j l ih =>
    rw [List.countP_cons, List.countP_cons, List.countP_cons, ← ih]
    rcases j with _ | _ | _ | _ <;> simp [Joint.branches, Joint.bears] <;> omega

/-! ### Out of numbers -/

/-- Behind the last number, nodes have no children: these go to the nodes that have the numbers. -/
theorem children_of_ge (h : s.Grown sk) {v : Nat} (hv : 2 ^ 32 ≤ v) : sk.children v = [] := by
  rw [← List.length_eq_zero_iff, length_children, h.edges, outdegree]
  refine List.countP_eq_zero.mpr fun e he => ?_
  obtain ⟨e, _, rfl⟩ := List.mem_map.mp he
  have hlt := number_lt e.parent
  have hne : number e.parent ≠ v := by omega
  exact fun heq => hne (of_decide_eq_true heq)

/-- **As many nodes have no children as there are beyond the last number.** -/
theorem le_countP_childless (h : s.Grown sk) (n : Nat) :
    n - 2 ^ 32 ≤ (List.range' 1 n).countP fun v => (sk.children v).length = 0 := by
  apply le_countP_range'
  intro v hv
  rw [h.children_of_ge hv]
  rfl

end Grown

end Shoot

end Grapevine
