import Grapevine.Skeleton

/-! Handing a skeleton over.

A *receiver* is whatever makes geometry of a skeleton. It is told of every vertex, then of every
edge, then of every berry, and names vertices by handles of its own. Edges and berries that name a
missing node are left out. -/
namespace Grapevine.Skeleton

/-- A receiver with state `σ` and handles `ν`, which ends in an `ω`. -/
structure Receiver (σ ν ω : Type) where
  vertex : σ → Vec3 → Float32 → ν × σ
  connect : σ → ν → ν → σ
  berry : σ → ν → Float32 → σ
  finish : σ → ω

/-- What a receiver can be told, with vertices named by handles. -/
inductive Call (ν : Type) where
  | vertex (position : Vec3) (width : Float32)
  | connect (parent child : ν)
  | berry (vertex : ν) (size : Float32)
  | finish
deriving DecidableEq

namespace Receiver

variable {σ ν ω : Type}

/-- One vertex more, its handle behind those there are. -/
def takeNode (r : Receiver σ ν ω) (state : Array ν × σ) (node : Node) : Array ν × σ :=
  let (handle, s) := r.vertex state.2 node.position node.width
  (state.1.push handle, s)

/-- An edge between two handles, if there are both. -/
def takeEdge (r : Receiver σ ν ω) (handles : Array ν) (s : σ) (edge : Edge) : σ :=
  match handles[edge.parent]?, handles[edge.child]? with
  | some parent, some child => r.connect s parent child
  | _, _ => s

/-- A berry on a handle, if there is one. -/
def takeBerry (r : Receiver σ ν ω) (handles : Array ν) (s : σ) (berry : Attachment) : σ :=
  match handles[berry.node]? with
  | some handle => r.berry s handle berry.size
  | none => s

/-- The receiver that does what another one does, and notes all that it is told. -/
def noting (r : Receiver σ ν ω) : Receiver (σ × Array (Call ν)) ν (ω × Array (Call ν)) where
  vertex := fun (s, calls) position width =>
    let (handle, s) := r.vertex s position width
    (handle, s, calls.push (.vertex position width))
  connect := fun (s, calls) parent child =>
    (r.connect s parent child, calls.push (.connect parent child))
  berry := fun (s, calls) vertex size => (r.berry s vertex size, calls.push (.berry vertex size))
  finish := fun (s, calls) => (r.finish s, calls.push .finish)

/-- The receiver that counts vertices; its handles are the counts before them. -/
def counter : Receiver Nat Nat Nat where
  vertex := fun count _ _ => (count, count + 1)
  connect := fun count _ _ => count
  berry := fun count _ _ => count
  finish := id

end Receiver

/-- Hands the whole skeleton to a receiver in a given state. -/
def deliver {σ ν ω : Type} (s : Skeleton) (r : Receiver σ ν ω) (start : σ) : ω :=
  let (handles, state) := s.nodes.foldl r.takeNode (#[], start)
  let state := s.edges.foldl (r.takeEdge handles) state
  r.finish (s.attachments.foldl (r.takeBerry handles) state)

/-- All that a receiver is told of a skeleton, in order, with vertices numbered from 0. -/
def calls (s : Skeleton) : Array (Call Nat) := (s.deliver Receiver.counter.noting (0, #[])).2

end Grapevine.Skeleton
