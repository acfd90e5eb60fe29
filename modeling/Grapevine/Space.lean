/-! Points, directions and rotations in space, in single precision.

Every operation is rounded on its own, so the order of operations is part of each definition.
Rotations are quaternions, and nothing is ever normalized. -/
namespace Grapevine

structure Vec3 where
  x : Float32
  y : Float32
  z : Float32
deriving DecidableEq, Inhabited

namespace Vec3

def zero : Vec3 := ⟨0, 0, 0⟩

def add (u v : Vec3) : Vec3 := ⟨u.x + v.x, u.y + v.y, u.z + v.z⟩

def scale (v : Vec3) (k : Float32) : Vec3 := ⟨v.x * k, v.y * k, v.z * k⟩

def dot (u v : Vec3) : Float32 := (u.x * v.x + u.y * v.y) + u.z * v.z

def cross (u v : Vec3) : Vec3 :=
  ⟨u.y * v.z - v.y * u.z, u.z * v.x - v.z * u.x, u.x * v.y - v.x * u.y⟩

end Vec3

/-- An axis of the turtle's own frame. -/
inductive Axis where
  | x | y | z
deriving DecidableEq, Repr, Inhabited

/-- The unit vector along an axis. -/
def Axis.unit : Axis → Vec3
  | .x => ⟨1, 0, 0⟩
  | .y => ⟨0, 1, 0⟩
  | .z => ⟨0, 0, 1⟩

/-- A quaternion with vector part `x`, `y`, `z` and scalar part `w`. -/
structure Rotation where
  x : Float32
  y : Float32
  z : Float32
  w : Float32
deriving DecidableEq, Inhabited

namespace Rotation

def identity : Rotation := ⟨0, 0, 0, 1⟩

/-- First `r`, in the frame that `l` has turned. -/
def compose (l r : Rotation) : Rotation where
  x := (l.w * r.x + l.x * r.w) + (l.y * r.z - l.z * r.y)
  y := (l.w * r.y - l.x * r.z) + (l.y * r.w + l.z * r.x)
  z := (l.w * r.z + l.x * r.y) + (l.z * r.w - l.y * r.x)
  w := (l.w * r.w - l.x * r.x) + (-(l.y * r.y) - l.z * r.z)

/-- Turns a vector. -/
def apply (q : Rotation) (v : Vec3) : Vec3 :=
  let axis : Vec3 := ⟨q.x, q.y, q.z⟩
  ((v.scale (q.w * q.w - axis.dot axis)).add (axis.scale (v.dot axis * 2))).add
    ((axis.cross v).scale (q.w * 2))

/-- A turn about an axis, by an angle in radians. -/
def about (axis : Axis) (angle : Float32) : Rotation :=
  let half := angle * 0.5
  let v := axis.unit.scale half.sin
  ⟨v.x, v.y, v.z, half.cos⟩

/-- Half a turn about the x axis, the scalar part being the cosine of the nearest number to a
quarter turn. -/
def halfTurnX : Rotation := ⟨1, 0, 0, -4.371139e-8⟩

end Rotation

/-- Degrees in radians. -/
def radians (degrees : Float32) : Float32 := degrees * 0.017453292

end Grapevine
