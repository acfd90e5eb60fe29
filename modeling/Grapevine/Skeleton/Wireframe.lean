import Grapevine.Skeleton.Receiver

/-! Wireframes: the plainest geometry of a skeleton, lines between points and a sphere for each
berry. -/
namespace Grapevine

/-- A sphere in place of a berry. -/
structure Sphere where
  center : Vec3
  diameter : Float32
deriving DecidableEq, Inhabited

structure Wireframe where
  positions : Array Vec3 := #[]
  widths : Array Float32 := #[]
  /-- Two positions for each line. -/
  indices : Array Nat := #[]
  berries : Array Sphere := #[]
deriving DecidableEq, Inhabited

namespace Wireframe

/-- The diameter of a sphere for a berry of size 1, unless another is asked for. -/
def defaultScale : Float32 := 1 / 15

/-- The receiver that builds a wireframe; its handles are positions in it, in 32 bits. -/
def receiver (scale : Float32) : Skeleton.Receiver Wireframe Nat Wireframe where
  vertex := fun mesh position width =>
    let index := Skeleton.number mesh.positions.size
    (index,
      { mesh with
        positions := mesh.positions.push position
        widths := mesh.widths.push width })
  connect := fun mesh parent child =>
    { mesh with indices := (mesh.indices.push parent).push child }
  berry := fun mesh vertex size =>
    match mesh.positions[vertex]? with
    | some center => { mesh with berries := mesh.berries.push ⟨center, size * scale⟩ }
    | none => mesh
  finish := id

/-- The wireframe of a skeleton. -/
def ofSkeleton (s : Skeleton) (scale : Float32) : Wireframe := s.deliver (receiver scale) {}

end Wireframe

end Grapevine
