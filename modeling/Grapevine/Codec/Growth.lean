import Grapevine.Cluster
import Grapevine.Codec.Plant

/-! Stored turtles, skeletons and grown clusters. Node numbers are stored in 32 bits, depths and
positions in a word in 64. -/
namespace Grapevine

def Vec3.codec : Codec Vec3 :=
  .components (fun v => [v.x, v.y, v.z]) fun
    | [x, y, z] => some ⟨x, y, z⟩
    | _ => none

def Rotation.codec : Codec Rotation :=
  .components (fun q => [q.x, q.y, q.z, q.w]) fun
    | [x, y, z, w] => some ⟨x, y, z, w⟩
    | _ => none

namespace Axis

def name : Axis → String
  | x => "X"
  | y => "Y"
  | z => "Z"

def codec : Codec Axis := .enumeration [x, y, z] name

end Axis

namespace Turtle

def codec : Codec Turtle where
  encode t := .obj [("position", Vec3.codec.encode t.position),
    ("rotation", Rotation.codec.encode t.rotation), ("width", Codec.single.encode t.width),
    ("node", (Codec.natural 32).encode t.node)]
  decode j := do
    let m ← Codec.members? ["position", "rotation", "width", "node"] j
    return {
      position := ← Codec.field m "position" Vec3.codec
      rotation := ← Codec.field m "rotation" Rotation.codec
      width := ← Codec.field m "width" .single
      node := ← Codec.field m "node" (.natural 32) }

namespace Config

/-- The names of the fields, in order. -/
def fieldNames : List String :=
  ["default_length", "default_width", "default_angle", "roll_step", "default_berry_size",
    "bend_axis", "pitch_axis", "roll_axis", "origin", "initial_rotation", "max_stack_depth"]

def codec : Codec Config where
  encode c := .obj (fieldNames.zip
    [Codec.single.encode c.defaultLength, Codec.single.encode c.defaultWidth,
      Codec.single.encode c.defaultAngle, Codec.single.encode c.rollStep,
      Codec.single.encode c.defaultBerrySize, Axis.codec.encode c.bendAxis,
      Axis.codec.encode c.pitchAxis, Axis.codec.encode c.rollAxis, Vec3.codec.encode c.origin,
      Rotation.codec.encode c.initialRotation, (Codec.natural 64).encode c.maxStackDepth])
  decode j := do
    let m ← Codec.members? fieldNames j
    return {
      defaultLength := ← Codec.field m "default_length" .single
      defaultWidth := ← Codec.field m "default_width" .single
      defaultAngle := ← Codec.field m "default_angle" .single
      rollStep := ← Codec.field m "roll_step" .single
      defaultBerrySize := ← Codec.field m "default_berry_size" .single
      bendAxis := ← Codec.field m "bend_axis" Axis.codec
      pitchAxis := ← Codec.field m "pitch_axis" Axis.codec
      rollAxis := ← Codec.field m "roll_axis" Axis.codec
      origin := ← Codec.field m "origin" Vec3.codec
      initialRotation := ← Codec.field m "initial_rotation" Rotation.codec
      maxStackDepth := ← Codec.field m "max_stack_depth" (.natural 64) }

end Config

/-- An event is stored as an object with one member, named for the event, that holds its data. -/
def Event.codec : Codec Event where
  encode
    | .move source target position width =>
      .obj [("Move", .obj [("from", (Codec.natural 32).encode source),
        ("to", (Codec.natural 32).encode target), ("position", Vec3.codec.encode position),
        ("width", Codec.single.encode width)])]
    | .branchOpen depth => .obj [("BranchOpen", .obj [("depth", (Codec.natural 64).encode depth)])]
    | .branchClose depth =>
      .obj [("BranchClose", .obj [("depth", (Codec.natural 64).encode depth)])]
    | .turn axis degrees =>
      .obj [("Rotate", .obj [("axis", Axis.codec.encode axis),
        ("degrees", Codec.single.encode degrees)])]
    | .berry node size =>
      .obj [("MarkTerminal", .obj [("node", (Codec.natural 32).encode node),
        ("size", Codec.single.encode size)])]
  decode
    | .obj [(name, .obj m)] =>
      match name with
      | "Move" => do
        return .move (← Codec.field m "from" (.natural 32)) (← Codec.field m "to" (.natural 32))
          (← Codec.field m "position" Vec3.codec) (← Codec.field m "width" .single)
      | "BranchOpen" => return .branchOpen (← Codec.field m "depth" (.natural 64))
      | "BranchClose" => return .branchClose (← Codec.field m "depth" (.natural 64))
      | "Rotate" => do
        return .turn (← Codec.field m "axis" Axis.codec) (← Codec.field m "degrees" .single)
      | "MarkTerminal" => do
        return .berry (← Codec.field m "node" (.natural 32))
          (← Codec.field m "size" .single)
      | _ => none
    | _ => none

end Turtle

namespace Skeleton

def Node.codec : Codec Node where
  encode n := .obj [("position", Vec3.codec.encode n.position),
    ("rotation", Rotation.codec.encode n.rotation), ("width", Codec.single.encode n.width),
    ("parent", (Codec.natural 32).encodeOption n.parent)]
  decode j := do
    let m ← Codec.members? ["position", "rotation", "width", "parent"] j
    return {
      position := ← Codec.field m "position" Vec3.codec
      rotation := ← Codec.field m "rotation" Rotation.codec
      width := ← Codec.field m "width" .single
      parent := ← Codec.optionalField m "parent" (.natural 32) }

def Edge.codec : Codec Edge where
  encode e := .obj [("parent", (Codec.natural 32).encode e.parent),
    ("child", (Codec.natural 32).encode e.child)]
  decode j := do
    let m ← Codec.members? ["parent", "child"] j
    return {
      parent := ← Codec.field m "parent" (.natural 32)
      child := ← Codec.field m "child" (.natural 32) }

def Attachment.codec : Codec Attachment where
  encode a := .obj [("node", (Codec.natural 32).encode a.node),
    ("position", Vec3.codec.encode a.position), ("size", Codec.single.encode a.size)]
  decode j := do
    let m ← Codec.members? ["node", "position", "size"] j
    return {
      node := ← Codec.field m "node" (.natural 32)
      position := ← Codec.field m "position" Vec3.codec
      size := ← Codec.field m "size" .single }

def codec : Codec Skeleton where
  encode s := .obj [("nodes", Node.codec.array.encode s.nodes),
    ("edges", Edge.codec.array.encode s.edges),
    ("attachments", Attachment.codec.array.encode s.attachments)]
  decode j := do
    let m ← Codec.members? ["nodes", "edges", "attachments"] j
    return {
      nodes := ← Codec.field m "nodes" Node.codec.array
      edges := ← Codec.field m "edges" Edge.codec.array
      attachments := ← Codec.field m "attachments" Attachment.codec.array }

end Skeleton

def Turtle.Trail.codec : Codec Turtle.Trail where
  encode t := .obj [("events", Turtle.Event.codec.array.encode t.events),
    ("skeleton", Skeleton.codec.encode t.skeleton),
    ("unmatched_pops", (Codec.natural 64).array.encode t.unmatched),
    ("open_branches", (Codec.natural 64).encode t.openBranches)]
  decode j := do
    let m ← Codec.members? ["events", "skeleton", "unmatched_pops", "open_branches"] j
    return {
      events := ← Codec.field m "events" Turtle.Event.codec.array
      skeleton := ← Codec.field m "skeleton" Skeleton.codec
      unmatched := ← Codec.field m "unmatched_pops" (Codec.natural 64).array
      openBranches := ← Codec.field m "open_branches" (.natural 64) }

def Sphere.codec : Codec Sphere where
  encode b := .obj [("center", Vec3.codec.encode b.center),
    ("diameter", Codec.single.encode b.diameter)]
  decode j := do
    let m ← Codec.members? ["center", "diameter"] j
    return {
      center := ← Codec.field m "center" Vec3.codec
      diameter := ← Codec.field m "diameter" .single }

def Wireframe.codec : Codec Wireframe where
  encode w := .obj [("positions", Vec3.codec.array.encode w.positions),
    ("widths", Codec.single.array.encode w.widths),
    ("indices", (Codec.natural 32).array.encode w.indices),
    ("berries", Sphere.codec.array.encode w.berries)]
  decode j := do
    let m ← Codec.members? ["positions", "widths", "indices", "berries"] j
    return {
      positions := ← Codec.field m "positions" Vec3.codec.array
      widths := ← Codec.field m "widths" Codec.single.array
      indices := ← Codec.field m "indices" (Codec.natural 32).array
      berries := ← Codec.field m "berries" Sphere.codec.array }

def Cluster.Config.codec : Codec Cluster.Config where
  encode c := .obj [("grammar", Grammar.Config.codec.encode c.grammar),
    ("turtle", Turtle.Config.codec.encode c.turtle),
    ("generations", (Codec.natural 64).encode c.generations)]
  decode j := do
    let m ← Codec.members? ["grammar", "turtle", "generations"] j
    return {
      grammar := ← Codec.field m "grammar" Grammar.Config.codec
      turtle := ← Codec.field m "turtle" Turtle.Config.codec
      generations := ← Codec.field m "generations" (.natural 64) }

def Growth.codec : Codec Growth where
  encode g := .obj [("instructions", Token.codec.list.encode g.word),
    ("interpretation", Turtle.Trail.codec.encode g.trail)]
  decode j := do
    let m ← Codec.members? ["instructions", "interpretation"] j
    return {
      word := ← Codec.field m "instructions" Token.codec.list
      trail := ← Codec.field m "interpretation" Turtle.Trail.codec }

end Grapevine
