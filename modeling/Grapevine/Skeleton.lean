import Grapevine.Space

/-! Skeletons: what a drawn word leaves behind.

Nodes are numbered in the order in which they were made, node 0 being the root. Numbers have 32
bits: a skeleton can have more nodes than that, and then numbers are given out again from 0. Edges
and attachments hold numbers, and may name nodes that are missing. -/
namespace Grapevine

namespace Skeleton

/-- The number of a node with so many nodes before it: their count, in 32 bits. -/
def number (i : Nat) : Nat := i % 0x100000000

theorem number_of_lt {i : Nat} (h : i < 0x100000000) : number i = i := Nat.mod_eq_of_lt h

theorem number_lt (i : Nat) : number i < 0x100000000 := Nat.mod_lt i (by decide)

theorem number_le (i : Nat) : number i ≤ i := Nat.mod_le ..

/-- A point of the skeleton, with the orientation that the turtle had there. -/
structure Node where
  position : Vec3
  rotation : Rotation
  width : Float32
  /-- The node this one grew from; a root has none. -/
  parent : Option Nat
deriving DecidableEq, Inhabited

structure Edge where
  parent : Nat
  child : Nat
deriving DecidableEq, Inhabited

/-- A berry on a node. -/
structure Attachment where
  node : Nat
  position : Vec3
  size : Float32
deriving DecidableEq, Inhabited

end Skeleton

open Skeleton

structure Skeleton where
  nodes : Array Node := #[]
  /-- From parent to child, in the order in which they were made. -/
  edges : Array Edge := #[]
  attachments : Array Attachment := #[]
deriving DecidableEq, Inhabited

namespace Skeleton

/-- Appends a node, and the edge from its parent if it has one. -/
def addNode (s : Skeleton) (node : Node) : Skeleton :=
  let id := number s.nodes.size
  { s with
    nodes := s.nodes.push node
    edges := match node.parent with
      | some parent => s.edges.push ⟨parent, id⟩
      | none => s.edges }

theorem size_nodes_addNode (s : Skeleton) (node : Node) :
    (s.addNode node).nodes.size = s.nodes.size + 1 := Array.size_push ..

/-- A skeleton of one node. -/
def ofRoot (position : Vec3) (rotation : Rotation) (width : Float32) : Skeleton :=
  addNode {} ⟨position, rotation, width, none⟩

/-- Hangs a berry on a node, at the node's position; on a missing node, nothing. -/
def attach (s : Skeleton) (node : Nat) (size : Float32) : Skeleton :=
  match s.nodes[node]? with
  | some n => { s with attachments := s.attachments.push ⟨node, n.position, size⟩ }
  | none => s

/-- The direct children of a node, in the order of the edges. -/
def children (s : Skeleton) (node : Nat) : List Nat :=
  s.edges.toList.filterMap fun e => if e.parent = node then some e.child else none

/-- For each node, whether an edge leaves it. -/
def parentFlags (s : Skeleton) : Array Bool :=
  s.edges.foldl (fun flags e => flags.setIfInBounds e.parent true)
    (Array.replicate s.nodes.size false)

/-- The numbers of the nodes that no edge leaves, in the order of the nodes. -/
def leaves (s : Skeleton) : List Nat :=
  s.parentFlags.toList.zipIdx.filterMap fun (isParent, i) =>
    if isParent then none else some (number i)

end Skeleton

end Grapevine
