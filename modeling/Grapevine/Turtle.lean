import Grapevine.Space
import Grapevine.Symbol

/-! The turtle: the cursor that draws a word, and what each symbol asks of it. -/
namespace Grapevine

/-- Saved whole at `[` and restored whole at `]`, so that sibling branches share nothing. -/
structure Turtle where
  position : Vec3 := .zero
  rotation : Rotation := .identity
  /-- The width of the nodes made from here on. -/
  width : Float32 := 0.1
  /-- The skeleton node that the turtle stands on. -/
  node : Nat := 0
deriving DecidableEq

namespace Turtle

instance : Inhabited Turtle := ⟨{}⟩

/-- The direction of growth: the turtle's own y axis. -/
def heading (t : Turtle) : Vec3 := t.rotation.apply Axis.y.unit

/-- Turns the turtle about one of its own axes, by an angle in radians. -/
def turn (t : Turtle) (axis : Axis) (angle : Float32) : Turtle :=
  { t with rotation := t.rotation.compose (.about axis angle) }

/-- Moves the turtle along its heading. -/
def advance (t : Turtle) (length : Float32) : Turtle :=
  { t with position := t.position.add (t.heading.scale length) }

/-- One of the two ways round an axis. -/
inductive Sense where
  | positive | negative
deriving DecidableEq, Repr

/-- The factor of an angle. -/
def Sense.factor : Sense → Float32
  | positive => 1
  | negative => -1

/-- What a terminal asks of the turtle. -/
inductive Action where
  /-- Move ahead to a new node. -/
  | draw
  /-- Hang a berry. -/
  | hang
  /-- Turn about the bend, the pitch or the roll axis. -/
  | bend (sense : Sense)
  | pitch (sense : Sense)
  | roll (sense : Sense)
  | setWidth
  /-- Save the cursor, and go back to it. -/
  | save
  | restore
  /-- Pass over the next token. -/
  | swallow
deriving DecidableEq, Repr

/-- Non-terminals ask nothing. -/
def Action.ofSymbol? : Symbol → Option Action
  | .forward => some draw
  | .berry => some hang
  | .bendLeft => some (bend .positive)
  | .bendRight => some (bend .negative)
  | .pitchDown => some (pitch .positive)
  | .pitchUp => some (pitch .negative)
  | .rollLeft => some (roll .positive)
  | .rollRight => some (roll .negative)
  | .width => some setWidth
  | .push => some save
  | .pop => some restore
  | .skip => some swallow
  | .bud _ | .segment => none

theorem Action.isNone_ofSymbol? (s : Symbol) : (ofSymbol? s).isNone = s.isNonterminal := by
  cases s <;> rfl

end Turtle

end Grapevine
