import Grapevine.Proofs.Skeleton.Prune
import Grapevine.Proofs.Walk.Footing
import Grapevine.Skeleton.Wireframe

/-! What a receiver is told of a skeleton.

A receiver that takes notes shows the whole conversation, in the handles of whichever receiver it
stands in for: every vertex, then the edges between vertices, then the berries on vertices, and the
end (`deliver_noting`). What names a missing node is not mentioned, and so the wireframe of any
skeleton that has numbers for all its nodes holds together (`Wireframe.ofSkeleton_eq`,
`Wireframe.indices_ofSkeleton`). Of what a walk leaves, all is told (`Turtle.sound_of_walk`). -/
namespace Grapevine

open Skeleton

namespace Skeleton

variable {σ ν ω : Type}

namespace Receiver

/-- The handles that a receiver answers with, one for each node. -/
def handles (r : Receiver σ ν ω) : σ → List Node → List ν
  | _, [] => []
  | s, node :: nodes =>
    let (handle, s) := r.vertex s node.position node.width
    handle :: r.handles s nodes

/-- The state of a receiver when it has been told of the nodes. -/
def toldNodes (r : Receiver σ ν ω) : σ → List Node → σ
  | s, [] => s
  | s, node :: nodes => r.toldNodes (r.vertex s node.position node.width).2 nodes

end Receiver

/-- What there is to tell of an edge, if both of its ends have a handle. -/
def Edge.call? (handles : List ν) (e : Edge) : Option (Call ν) :=
  match handles[e.parent]?, handles[e.child]? with
  | some parent, some child => some (.connect parent child)
  | _, _ => none

/-- What there is to tell of a berry, if its node has a handle. -/
def Attachment.call? (handles : List ν) (a : Attachment) : Option (Call ν) :=
  handles[a.node]?.map fun vertex => .berry vertex a.size

/-- All that there is to tell of a skeleton whose nodes have these handles. -/
def told (s : Skeleton) (handles : List ν) : List (Call ν) :=
  s.nodes.toList.map (fun node => .vertex node.position node.width) ++
    s.edges.toList.filterMap (Edge.call? handles) ++
    s.attachments.toList.filterMap (Attachment.call? handles) ++ [.finish]

/-! ### Conversations -/

namespace Receiver

variable (r : Receiver σ ν ω)

theorem length_handles (s : σ) (nodes : List Node) : (r.handles s nodes).length = nodes.length := by
  induction nodes generalizing s with
  | nil => rfl
  | cons node nodes ih => exact congrArg Nat.succ (ih _)

theorem foldl_takeNode (handles : Array ν) (s : σ) (nodes : List Node) :
    nodes.foldl r.takeNode (handles, s) =
      (handles ++ (r.handles s nodes).toArray, r.toldNodes s nodes) := by
  induction nodes generalizing handles s with
  | nil => simp [Receiver.handles, toldNodes]
  | cons node nodes ih =>
    rw [List.foldl_cons, takeNode, ih]
    simp [Receiver.handles, toldNodes]

theorem handles_noting (s : σ) (calls : Array (Call ν)) (nodes : List Node) :
    r.noting.handles (s, calls) nodes = r.handles s nodes := by
  induction nodes generalizing s calls with
  | nil => rfl
  | cons node nodes ih => exact congrArg (List.cons _) (ih ..)

theorem toldNodes_noting (s : σ) (calls : Array (Call ν)) (nodes : List Node) :
    r.noting.toldNodes (s, calls) nodes =
      (r.toldNodes s nodes,
        calls ++ (nodes.map fun node => .vertex node.position node.width : List (Call ν))) := by
  induction nodes generalizing s calls with
  | nil => exact congrArg _ Array.appendList_nil.symm
  | cons node nodes ih =>
    refine (ih ..).trans (congrArg _ ?_)
    simp

/-- A note is taken of an edge if both ends have handles. -/
theorem takeEdge_noting (handles : List ν) (s : σ) (calls : Array (Call ν)) (e : Edge) :
    r.noting.takeEdge handles.toArray (s, calls) e =
      (r.takeEdge handles.toArray s e, calls ++ (e.call? handles).toList) := by
  simp only [takeEdge, Edge.call?, List.getElem?_toArray]
  cases handles[e.parent]? <;> cases handles[e.child]? <;> simp [noting]

/-- A note is taken of a berry if its node has a handle. -/
theorem takeBerry_noting (handles : List ν) (s : σ) (calls : Array (Call ν)) (a : Attachment) :
    r.noting.takeBerry handles.toArray (s, calls) a =
      (r.takeBerry handles.toArray s a, calls ++ (a.call? handles).toList) := by
  simp only [takeBerry, Attachment.call?, List.getElem?_toArray]
  cases handles[a.node]? <;> simp [noting]

end Receiver

/-- Notes that are taken step by step, beside what is done. -/
theorem foldl_noting {α β : Type} {f : σ × Array β → α → σ × Array β} {g : σ → α → σ}
    {h : α → Option β} (hf : ∀ s notes x, f (s, notes) x = (g s x, notes ++ (h x).toList))
    (s : σ) (notes : Array β) (l : List α) :
    l.foldl f (s, notes) = (l.foldl g s, notes ++ l.filterMap h) := by
  induction l generalizing s notes with
  | nil => simp
  | cons x l ih =>
    rw [List.foldl_cons, hf, ih, List.foldl_cons, List.filterMap_cons]
    cases h x <;> simp

theorem deliver_eq (s : Skeleton) (r : Receiver σ ν ω) (start : σ) :
    s.deliver r start =
      r.finish (s.attachments.toList.foldl (r.takeBerry (r.handles start s.nodes.toList).toArray)
        (s.edges.toList.foldl (r.takeEdge (r.handles start s.nodes.toList).toArray)
          (r.toldNodes start s.nodes.toList))) := by
  simp only [deliver, ← Array.foldl_toList, r.foldl_takeNode, Array.empty_append]

/-- **A receiver is told of every node, of the edges and berries whose nodes are there, and of the
end**, in this order and in the handles that it gave itself. -/
theorem deliver_noting (s : Skeleton) (r : Receiver σ ν ω) (start : σ) :
    s.deliver r.noting (start, #[]) =
      (s.deliver r start, (s.told (r.handles start s.nodes.toList)).toArray) := by
  rw [deliver_eq, deliver_eq, r.handles_noting, r.toldNodes_noting,
    foldl_noting (r.takeEdge_noting _), foldl_noting (r.takeBerry_noting _)]
  simp [Receiver.noting, told]

/-- A receiver that counts gives out consecutive handles. -/
theorem handles_counter (count : Nat) (nodes : List Node) :
    Receiver.counter.handles count nodes = List.range' count nodes.length := by
  induction nodes generalizing count with
  | nil => rfl
  | cons node nodes ih => exact congrArg (List.cons count) (ih _)

/-- Where vertices are counted, edges and berries are told of by the numbers that they hold. -/
theorem calls_eq (s : Skeleton) : s.calls = (s.told (List.range' 0 s.nodes.size)).toArray := by
  rw [calls, deliver_noting, handles_counter, Array.length_toList]

/-- Where handles are numbers of nodes, berries are told of with such numbers only. -/
theorem lt_of_berry_mem_told (s : Skeleton) {v : Nat} {size : Float32}
    (h : .berry v size ∈ s.told (List.range' 0 s.nodes.size)) : v < s.nodes.size := by
  simp only [told, List.mem_append, List.mem_map, List.mem_filterMap, List.mem_singleton,
    reduceCtorEq, or_false, and_false, exists_false, false_or] at h
  rcases h with ⟨e, _, he⟩ | ⟨a, _, ha⟩
  · simp only [Edge.call?] at he
    split at he <;> cases he
  · obtain ⟨w, hw, heq⟩ := Option.map_eq_some_iff.mp ha
    cases heq
    exact List.mem_range'_1.mp (List.mem_of_getElem? hw) |>.2.trans_eq (Nat.zero_add _)

end Skeleton

/-! ### Wireframes -/

/-- The sphere of a berry, if its node is there. -/
def Skeleton.sphere? (s : Skeleton) (scale : Float32) (a : Attachment) : Option Sphere :=
  s.nodes[a.node]?.map fun node => ⟨node.position, a.size * scale⟩

/-- The numbers of both ends. -/
def Skeleton.Edge.ends (e : Edge) : List Nat := [e.parent, e.child]

namespace Wireframe

variable (scale : Float32) (mesh : Wireframe)

/-- The handles of a wireframe are positions in it, as long as there are numbers for them. -/
theorem handles_receiver (nodes : List Node)
    (hroom : mesh.positions.size + nodes.length ≤ 2 ^ 32) :
    (receiver scale).handles mesh nodes = List.range' mesh.positions.size nodes.length := by
  induction nodes generalizing mesh with
  | nil => rfl
  | cons node nodes ih =>
    rw [List.length_cons] at hroom
    have hsize : ((receiver scale).vertex mesh node.position node.width).2.positions.size =
        mesh.positions.size + 1 := Array.size_push ..
    have hrest := ih ((receiver scale).vertex mesh node.position node.width).2 (by omega)
    rw [hsize] at hrest
    have hfirst : number mesh.positions.size = mesh.positions.size := number_of_lt (by omega)
    exact congrArg₂ List.cons hfirst hrest

theorem toldNodes_receiver (nodes : List Node) :
    (receiver scale).toldNodes mesh nodes =
      { mesh with
        positions := mesh.positions ++ (nodes.map Node.position).toArray
        widths := mesh.widths ++ (nodes.map Node.width).toArray } := by
  induction nodes generalizing mesh with
  | nil => simp [Receiver.toldNodes]
  | cons node nodes ih =>
    rw [Receiver.toldNodes, ih]
    simp [receiver]

theorem takeEdge_receiver (s : Skeleton) (e : Edge) :
    (receiver scale).takeEdge (List.range' 0 s.nodes.size).toArray mesh e =
      if s.Joins e then { mesh with indices := mesh.indices ++ e.ends.toArray } else mesh := by
  simp only [Receiver.takeEdge, List.getElem?_toArray, Joins]
  by_cases hparent : e.parent < s.nodes.size
  · by_cases hchild : e.child < s.nodes.size
    · simp only [List.getElem?_range', hparent, hchild, if_true, and_self]
      simp [receiver, Edge.ends, ← Array.toList_inj]
    · simp [hchild]
  · simp [hparent]

theorem takeBerry_receiver (s : Skeleton) (h : mesh.positions = s.nodes.map Node.position)
    (a : Attachment) :
    (receiver scale).takeBerry (List.range' 0 s.nodes.size).toArray mesh a =
      { mesh with berries := mesh.berries ++ (s.sphere? scale a).toArray } := by
  simp only [Receiver.takeBerry, List.getElem?_toArray, sphere?]
  by_cases ha : a.node < s.nodes.size
  · simp [ha, receiver, h]
  · simp [ha]

theorem foldl_takeEdge (s : Skeleton) (edges : List Edge) :
    edges.foldl ((receiver scale).takeEdge (List.range' 0 s.nodes.size).toArray) mesh =
      { mesh with
        indices := mesh.indices ++ ((edges.filter s.Joins).flatMap Edge.ends).toArray } := by
  induction edges generalizing mesh with
  | nil => simp
  | cons e edges ih =>
    rw [List.foldl_cons, ih, takeEdge_receiver]
    by_cases he : s.Joins e <;> simp [he]

theorem foldl_takeBerry (s : Skeleton) (h : mesh.positions = s.nodes.map Node.position)
    (berries : List Attachment) :
    berries.foldl ((receiver scale).takeBerry (List.range' 0 s.nodes.size).toArray) mesh =
      { mesh with
        berries := mesh.berries ++ (berries.filterMap (s.sphere? scale)).toArray } := by
  induction berries generalizing mesh with
  | nil => simp
  | cons a berries ih =>
    rw [List.foldl_cons, takeBerry_receiver scale mesh s h,
      ih { mesh with berries := mesh.berries ++ (s.sphere? scale a).toArray } h,
      List.filterMap_cons]
    cases s.sphere? scale a <;> simp

/-- **A wireframe has the points of the skeleton, and of its lines and spheres those that are on
points.** -/
theorem ofSkeleton_eq {s : Skeleton} (hroom : s.nodes.size ≤ 2 ^ 32) :
    ofSkeleton s scale =
      { positions := s.nodes.map Node.position
        widths := s.nodes.map Node.width
        indices := ((s.edges.toList.filter s.Joins).flatMap Edge.ends).toArray
        berries := (s.attachments.toList.filterMap (s.sphere? scale)).toArray } := by
  have hnodes : (#[] : Array Vec3).size + s.nodes.toList.length ≤ 2 ^ 32 := by simpa using hroom
  rw [ofSkeleton, deliver_eq, handles_receiver _ _ _ hnodes, toldNodes_receiver]
  simp only [Array.length_toList, Array.size_empty, Array.empty_append, ← List.map_toArray,
    Array.toArray_toList]
  rw [foldl_takeEdge, foldl_takeBerry scale _ s rfl]
  simp [receiver]

theorem length_flatMap_ends (edges : List Edge) :
    (edges.flatMap Edge.ends).length = 2 * edges.length := by
  induction edges with
  | nil => rfl
  | cons e edges ih =>
    rw [List.flatMap_cons, List.length_append, ih, List.length_cons, Nat.mul_succ, Nat.add_comm]
    rfl

/-- Every line has two ends, and both are points. -/
theorem indices_ofSkeleton {s : Skeleton} (hroom : s.nodes.size ≤ 2 ^ 32) :
    2 ∣ (ofSkeleton s scale).indices.size ∧
      ∀ i ∈ (ofSkeleton s scale).indices, i < (ofSkeleton s scale).positions.size := by
  rw [ofSkeleton_eq scale hroom]
  refine ⟨⟨_, length_flatMap_ends _⟩, fun i hi => ?_⟩
  rw [Array.size_map]
  obtain ⟨e, he, hend⟩ := List.mem_flatMap.mp (List.mem_toArray.mp hi)
  obtain ⟨hparent, hchild⟩ := of_decide_eq_true (List.mem_filter.mp he).2
  rcases List.mem_pair.mp hend with rfl | rfl
  · exact hparent
  · exact hchild

end Wireframe

/-! ### Walks -/

/-- A walk leaves nothing that a receiver would not be told of, however many nodes it makes. -/
theorem Turtle.sound_of_walk {cfg : Turtle.Config} {word : List Token} {trail : Turtle.Trail}
    (h : Turtle.walk cfg word = .ok trail) : trail.skeleton.Sound := by
  obtain ⟨w, hrun, rfl⟩ := Turtle.Walk.walk_eq_ok_iff.mp h
  exact (hrun.grounded (Turtle.Walk.grounded_start cfg)).sound

/-- Of a sound skeleton nothing is left out. -/
theorem Wireframe.sizes_of_sound {s : Skeleton} (h : s.Sound) (hroom : s.nodes.size ≤ 2 ^ 32)
    (scale : Float32) :
    (Wireframe.ofSkeleton s scale).indices.size = 2 * s.edges.size ∧
      (Wireframe.ofSkeleton s scale).berries.size = s.attachments.size := by
  have hall : s.edges.toList.filter s.Joins = s.edges.toList :=
    List.filter_eq_self.mpr fun e he => decide_eq_true (h.joined e (Array.mem_toList_iff.mp he))
  rw [ofSkeleton_eq scale hroom, hall]
  refine ⟨length_flatMap_ends _, ?_⟩
  have hsome : ∀ a ∈ s.attachments.toList, (s.sphere? scale a).isSome := by
    intro a ha
    simp [sphere?, h.hung a (Array.mem_toList_iff.mp ha)]
  rw [List.size_toArray, List.length_filterMap_eq_countP, List.countP_eq_length.mpr hsome,
    Array.length_toList]

/-- **Any skeleton can be handed over.** A receiver is told of the nodes, of the edges between nodes
that are there, of the berries on nodes that are there, and of the end, each once, in order, and in
the handles that it gave to the nodes. So a wireframe that has numbers for all the points has all of
them, two for each line, and a sphere at the point of each berry, and looks up no point that it does
not have. Of what a walk leaves, nothing is left out. -/
theorem Skeleton.handed_over (s : Skeleton) :
    (∀ {σ ν ω : Type} (r : Receiver σ ν ω) (start : σ),
      (r.handles start s.nodes.toList).length = s.nodes.size ∧
      s.deliver r.noting (start, #[]) =
        (s.deliver r start, (s.told (r.handles start s.nodes.toList)).toArray)) ∧
    (s.nodes.size ≤ 2 ^ 32 → ∀ scale,
      Wireframe.ofSkeleton s scale =
        { positions := s.nodes.map Node.position
          widths := s.nodes.map Node.width
          indices := ((s.edges.toList.filter s.Joins).flatMap Edge.ends).toArray
          berries := (s.attachments.toList.filterMap (s.sphere? scale)).toArray } ∧
      2 ∣ (Wireframe.ofSkeleton s scale).indices.size ∧
      (∀ i ∈ (Wireframe.ofSkeleton s scale).indices,
        i < (Wireframe.ofSkeleton s scale).positions.size) ∧
      ∀ v size, .berry v size ∈ (s.deliver (Wireframe.receiver scale).noting ({}, #[])).2 →
        v < (Wireframe.ofSkeleton s scale).positions.size) ∧
    ∀ cfg word trail, Turtle.walk cfg word = .ok trail → trail.skeleton = s →
      ((∀ e ∈ s.edges, s.Joins e) ∧ ∀ a ∈ s.attachments, a.node < s.nodes.size) ∧
      (s.nodes.size ≤ 2 ^ 32 → ∀ scale,
        (Wireframe.ofSkeleton s scale).indices.size = 2 * s.edges.size ∧
          (Wireframe.ofSkeleton s scale).berries.size = s.attachments.size) := by
  refine ⟨fun r start => ⟨?_, s.deliver_noting r start⟩, fun hroom scale => ?_, ?_⟩
  · rw [r.length_handles, Array.length_toList]
  · obtain ⟨heven, hindices⟩ := Wireframe.indices_ofSkeleton scale hroom
    refine ⟨Wireframe.ofSkeleton_eq scale hroom, heven, hindices, fun v size h => ?_⟩
    have hnodes : (#[] : Array Vec3).size + s.nodes.toList.length ≤ 2 ^ 32 := by simpa using hroom
    rw [s.deliver_noting, Wireframe.handles_receiver _ _ _ hnodes, Array.length_toList,
      List.mem_toArray] at h
    rw [Wireframe.ofSkeleton_eq scale hroom, Array.size_map]
    exact s.lt_of_berry_mem_told h
  · intro cfg word trail hwalk hskeleton
    have hsound := Turtle.sound_of_walk hwalk
    rw [hskeleton] at hsound
    exact ⟨⟨hsound.joined, hsound.hung⟩, Wireframe.sizes_of_sound hsound⟩

/-- A skeleton with an edge and a berry that name missing nodes, and one that a walk leaves. -/
theorem Skeleton.handed_over_dangling :
    (∃ s : Skeleton, s.edges.size = 3 ∧ s.attachments.size = 2 ∧
      (s.deliver (Wireframe.receiver 2).noting ({}, #[])).2 =
        #[.vertex .zero 1, .vertex ⟨0, 1, 0⟩ 1, .connect 0 1, .berry 1 3, .finish]) ∧
    ∃ trail, Turtle.walk {} [.bare .forward, .bare .push, .bare .forward, .bare .berry, .bare .pop,
        .bare .pop, .bare .berry] = .ok trail ∧
      (Wireframe.ofSkeleton trail.skeleton 2).indices.size = 4 ∧
      (Wireframe.ofSkeleton trail.skeleton 2).berries.size = 2 := by
  have hwalk : Turtle.walk {} [.bare .forward, .bare .push, .bare .forward, .bare .berry,
      .bare .pop, .bare .pop, .bare .berry] = .ok _ := rfl
  have hdangling := (handed_over
    { nodes := #[⟨.zero, .identity, 1, none⟩, ⟨⟨0, 1, 0⟩, .identity, 1, some 0⟩]
      edges := #[⟨0, 1⟩, ⟨1, 9⟩, ⟨7, 8⟩]
      attachments := #[⟨1, .zero, 3⟩, ⟨5, .zero, 1⟩] }).1 (Wireframe.receiver 2) {}
  obtain ⟨_, hsizes⟩ := (handed_over _).2.2 _ _ _ hwalk rfl
  exact ⟨⟨_, rfl, rfl, congrArg Prod.snd hdangling.2⟩, _, hwalk, hsizes (by decide) 2⟩

end Grapevine
