import Grapevine.Fault
import Grapevine.Skeleton
import Grapevine.Turtle

/-! Walking a word.

The turtle walks a word once from left to right and leaves a skeleton and a list of events. A word
is refused at its first non-terminal, even one that would be swallowed, and at a branch that nests
too deep. A `]` without a saved cursor is noted and passed over. -/
namespace Grapevine.Turtle

/-- How a word is walked: what bare symbols mean, which axes turn, and where the root stands. -/
structure Config where
  /-- Length of a bare `F`. -/
  defaultLength : Float32 := 1
  /-- Width of the root, and of all that is drawn before the first `!`. -/
  defaultWidth : Float32 := 0.1
  /-- Angle in degrees of a bare `+`, `-`, `&` or `^`. -/
  defaultAngle : Float32 := 45
  /-- Angle in degrees of a bare `/` or `_`. -/
  rollStep : Float32 := 60
  /-- Size of a bare `S`. -/
  defaultBerrySize : Float32 := 1
  bendAxis : Axis := .z
  pitchAxis : Axis := .x
  rollAxis : Axis := .y
  origin : Vec3 := .zero
  /-- Orientation at the root; unless changed, growth is straight down. -/
  initialRotation : Rotation := .halfTurnX
  /-- How deep branches may nest. -/
  maxStackDepth : Nat := 1024
deriving DecidableEq

instance : Inhabited Config := ⟨{}⟩

/-- One observable step of a walk. The depth of a branch is that after the step. -/
inductive Event where
  /-- A segment was drawn from a node to a new one. -/
  | move (source target : Nat) (position : Vec3) (width : Float32)
  | branchOpen (depth : Nat)
  | branchClose (depth : Nat)
  | turn (axis : Axis) (degrees : Float32)
  /-- A berry was hung on a node. -/
  | berry (node : Nat) (size : Float32)
deriving DecidableEq

/-- What a walk leaves behind. -/
structure Trail where
  events : Array Event := #[]
  skeleton : Skeleton := {}
  /-- The positions of `]` that had no cursor to go back to. -/
  unmatched : Array Nat := #[]
  /-- The branches still open at the end. -/
  openBranches : Nat := 0
deriving DecidableEq, Inhabited

/-- Every bracket had its partner. -/
def Trail.isBalanced (t : Trail) : Bool := t.unmatched.isEmpty && t.openBranches == 0

/-- A walk under way. -/
structure Walk where
  turtle : Turtle
  /-- The saved cursors, the last one first. -/
  saved : List Turtle := []
  /-- The next token is to be swallowed. -/
  skipping : Bool := false
  /-- The position of the next token. -/
  index : Nat := 0
  events : Array Event := #[]
  skeleton : Skeleton
  unmatched : Array Nat := #[]
deriving DecidableEq

namespace Walk

/-- The turtle on the root of a skeleton of one node. -/
def start (cfg : Config) : Walk where
  turtle := ⟨cfg.origin, cfg.initialRotation, cfg.defaultWidth, 0⟩
  skeleton := .ofRoot cfg.origin cfg.initialRotation cfg.defaultWidth

/-- Moves ahead, and makes a node there. -/
def draw (w : Walk) (length : Float32) : Walk :=
  let source := w.turtle.node
  let target := Skeleton.number w.skeleton.nodes.size
  let turtle := { w.turtle.advance length with node := target }
  { w with
    turtle
    events := w.events.push (.move source target turtle.position turtle.width)
    skeleton := w.skeleton.addNode
      ⟨turtle.position, turtle.rotation, turtle.width, some source⟩ }

/-- Hangs a berry on the node that the turtle stands on. -/
def hang (w : Walk) (size : Float32) : Walk :=
  { w with
    events := w.events.push (.berry w.turtle.node size)
    skeleton := w.skeleton.attach w.turtle.node size }

def turn (w : Walk) (axis : Axis) (degrees : Float32) : Walk :=
  { w with
    turtle := w.turtle.turn axis (radians degrees)
    events := w.events.push (.turn axis degrees) }

/-- Saves the cursor, unless branches nest as deep as they may. -/
def save (limit : Nat) (w : Walk) : Except Fault Walk :=
  if limit ≤ w.saved.length then .error (.tooDeep w.index limit)
  else .ok { w with
    saved := w.turtle :: w.saved
    events := w.events.push (.branchOpen (w.saved.length + 1)) }

/-- Goes back to the cursor saved last. -/
def restore (w : Walk) : Walk :=
  match w.saved with
  | turtle :: saved =>
    { w with turtle, saved, events := w.events.push (.branchClose saved.length) }
  | [] => { w with unmatched := w.unmatched.push w.index }

/-- Carries out an action with the parameters of its token. -/
def act (cfg : Config) (w : Walk) (token : Token) : Action → Except Fault Walk
  | .draw => .ok (w.draw (token.paramD 0 cfg.defaultLength))
  | .hang => .ok (w.hang (token.paramD 0 cfg.defaultBerrySize))
  | .bend sense => .ok (w.turn cfg.bendAxis (token.paramD 0 cfg.defaultAngle * sense.factor))
  | .pitch sense => .ok (w.turn cfg.pitchAxis (token.paramD 0 cfg.defaultAngle * sense.factor))
  | .roll sense => .ok (w.turn cfg.rollAxis (token.paramD 0 cfg.rollStep * sense.factor))
  | .setWidth => .ok { w with turtle.width := token.paramD 0 w.turtle.width }
  | .save => w.save cfg.maxStackDepth
  | .restore => .ok w.restore
  | .swallow => .ok { w with skipping := true }

/-- Goes on to the next token. -/
def advance (w : Walk) : Walk := { w with index := w.index + 1 }

/-- One token: refused if it is a non-terminal, swallowed if that was asked for, and carried out
otherwise. -/
def step (cfg : Config) (w : Walk) (token : Token) : Except Fault Walk :=
  match Action.ofSymbol? token.symbol with
  | none => .error (.unreduced w.index token)
  | some action =>
    if w.skipping then .ok { w with skipping := false }.advance
    else (w.act cfg token action).map advance

/-- A whole word, from where the walk stands. -/
def run (cfg : Config) (w : Walk) (word : List Token) : Except Fault Walk :=
  word.foldlM (step cfg) w

theorem run_append (cfg : Config) (w : Walk) (u v : List Token) :
    run cfg w (u ++ v) = (run cfg w u).bind fun w => run cfg w v :=
  List.foldlM_append

/-- What the walk leaves behind if it ends here. -/
def trail (w : Walk) : Trail where
  events := w.events
  skeleton := w.skeleton
  unmatched := w.unmatched
  openBranches := w.saved.length

end Walk

/-- Walks a word from the root. -/
def walk (cfg : Config) (word : List Token) : Except Fault Trail :=
  (Walk.run cfg (.start cfg) word).map Walk.trail

end Grapevine.Turtle
