import Grapevine.Proofs.Codec.Layout
import Grapevine.Codec.Growth

/-! All that can be stored is stored faithfully.

Each type has a layout, which is that of its codec, and values that can be stored: those whose
numbers are finite and whose counts have as many bits as they are stored in. -/
namespace Grapevine

open Codec.Faithful (single natural word64)

/-! ### Numbers together -/

namespace Vec3

def Finite (v : Vec3) : Prop := ∀ x ∈ [v.x, v.y, v.z], x.isFinite = true

theorem faithful : codec.Faithful Finite .plain := .components fun _ => rfl

end Vec3

namespace Rotation

def Finite (q : Rotation) : Prop := ∀ x ∈ [q.x, q.y, q.z, q.w], x.isFinite = true

theorem faithful : codec.Faithful Finite .plain := .components fun _ => rfl

end Rotation

namespace Grammar.SizeRange

def Finite (r : SizeRange) : Prop := ∀ x ∈ [r.low, r.high], x.isFinite = true

theorem faithful : codec.Faithful Finite .plain := .components fun _ => rfl

end Grammar.SizeRange

/-! ### Names -/

theorem Tag.faithful : Tag.codec.Faithful (fun _ => True) .plain :=
  .enumeration fun a => by cases a <;> rfl

theorem Axis.faithful : Axis.codec.Faithful (fun _ => True) .plain :=
  .enumeration fun a => by cases a <;> rfl

theorem Grammar.Variant.faithful : Grammar.Variant.codec.Faithful (fun _ => True) .plain :=
  .enumeration fun a => by cases a <;> rfl

namespace Symbol

def layout : Layout := .cases [("Module", .plain)]

theorem faithful : codec.Faithful (fun _ => True) layout where
  fits a _ := by
    cases a with
    | bud tag => exact .case (List.mem_singleton_self _) (Tag.faithful.fits tag trivial)
    | _ => exact .name _
  decode_encode a _ := by
    cases a with
    | bud tag => exact congrArg (Option.map bud) (Tag.faithful.decode_encode tag trivial)
    | _ => rfl
  rearranged h := by
    cases h with
    | case hname h =>
      cases List.mem_singleton.mp hname
      cases h
  stripped h := by
    cases h with
    | case hname h =>
      cases List.mem_singleton.mp hname
      cases h

end Symbol

/-! ### Tokens and grammars -/

namespace Token

def layout : Layout :=
  .record [⟨"symbol", true, Symbol.layout⟩, ⟨"params", true, .items .plain⟩]

def Storable (t : Token) : Prop := ∀ x ∈ t.params, x.isFinite = true

theorem faithful : codec.Faithful Storable layout := by
  refine .record (by decide) (fun _ => rfl) ?_ fun t ht => ⟨_, rfl, ?_⟩
  · exact .field _ Symbol.faithful fun _ => .field _ single.list fun _ => .nil _
  · exact .field Symbol.faithful trivial <| .field single.list ht <| .nil _

end Token

namespace Grammar.Config

def layout : Layout :=
  .record [⟨"variant", true, .plain⟩, ⟨"depth", true, .plain⟩,
    ⟨"child_counts", true, .items .plain⟩, ⟨"base_length", true, .plain⟩,
    ⟨"length_ratio", true, .plain⟩, ⟨"berry_ratio", true, .plain⟩, ⟨"branch_angle", true, .plain⟩,
    ⟨"base_width", true, .plain⟩, ⟨"secondary_depth", true, .plain⟩,
    ⟨"lateral_angle", true, .plain⟩, ⟨"pedicel_roll", true, .plain⟩, ⟨"tip_ratio", true, .plain⟩,
    ⟨"axis_ratio", true, .plain⟩, ⟨"lateral_ratio", true, .plain⟩,
    ⟨"secondary_ratio", true, .plain⟩, ⟨"secondary_tip_ratio", true, .plain⟩,
    ⟨"pedicel_ratio", true, .plain⟩, ⟨"width_ratio", true, .plain⟩,
    ⟨"suppress_length", true, .plain⟩, ⟨"berry_size_range", true, .plain⟩, ⟨"seed", true, .plain⟩]

structure Storable (c : Config) : Prop where
  depth : c.depth < 2 ^ 32
  lateralDepths : ∀ n ∈ c.lateralDepths, n < 2 ^ 32
  baseLength : c.baseLength.isFinite = true
  lengthRatio : c.lengthRatio.isFinite = true
  berryRatio : c.berryRatio.isFinite = true
  branchAngle : c.branchAngle.isFinite = true
  baseWidth : c.baseWidth.isFinite = true
  secondaryDepth : c.secondaryDepth < 2 ^ 32
  lateralAngle : c.lateralAngle.isFinite = true
  pedicelRoll : c.pedicelRoll.isFinite = true
  tipRatio : c.tipRatio.isFinite = true
  axisRatio : c.axisRatio.isFinite = true
  lateralRatio : c.lateralRatio.isFinite = true
  secondaryRatio : c.secondaryRatio.isFinite = true
  secondaryTipRatio : c.secondaryTipRatio.isFinite = true
  pedicelRatio : c.pedicelRatio.isFinite = true
  widthRatio : c.widthRatio.isFinite = true
  suppressLength : c.suppressLength.isFinite = true
  berrySizes : c.berrySizes.Finite

theorem faithful : codec.Faithful Storable layout := by
  refine .record (by decide) (fun _ => rfl) ?_ fun c hc => ⟨_, rfl, ?_⟩
  · exact .field _ Variant.faithful fun _ => .field _ (natural 32) fun _ =>
      .field _ (natural 32).list fun _ => .field _ single fun _ => .field _ single fun _ =>
      .field _ single fun _ => .field _ single fun _ => .field _ single fun _ =>
      .field _ (natural 32) fun _ => .field _ single fun _ => .field _ single fun _ =>
      .field _ single fun _ => .field _ single fun _ => .field _ single fun _ =>
      .field _ single fun _ => .field _ single fun _ => .field _ single fun _ =>
      .field _ single fun _ => .field _ single fun _ => .field _ SizeRange.faithful fun _ =>
      .field _ word64 fun _ => .nil _
  · exact .field Variant.faithful trivial <| .field (natural 32) hc.depth <|
      .field (natural 32).list hc.lateralDepths <| .field single hc.baseLength <|
      .field single hc.lengthRatio <| .field single hc.berryRatio <| .field single hc.branchAngle <|
      .field single hc.baseWidth <| .field (natural 32) hc.secondaryDepth <|
      .field single hc.lateralAngle <| .field single hc.pedicelRoll <| .field single hc.tipRatio <|
      .field single hc.axisRatio <| .field single hc.lateralRatio <|
      .field single hc.secondaryRatio <| .field single hc.secondaryTipRatio <|
      .field single hc.pedicelRatio <| .field single hc.widthRatio <|
      .field single hc.suppressLength <| .field SizeRange.faithful hc.berrySizes <|
      .field word64 trivial <| .nil _

end Grammar.Config

/-! ### Turtles -/

namespace Turtle

def layout : Layout :=
  .record [⟨"position", true, .plain⟩, ⟨"rotation", true, .plain⟩, ⟨"width", true, .plain⟩,
    ⟨"node", true, .plain⟩]

structure Storable (t : Turtle) : Prop where
  position : t.position.Finite
  rotation : t.rotation.Finite
  width : t.width.isFinite = true
  node : t.node < 2 ^ 32

theorem faithful : codec.Faithful Storable layout := by
  refine .record (by decide) (fun _ => rfl) ?_ fun t ht => ⟨_, rfl, ?_⟩
  · exact .field _ Vec3.faithful fun _ => .field _ Rotation.faithful fun _ =>
      .field _ single fun _ => .field _ (natural 32) fun _ => .nil _
  · exact .field Vec3.faithful ht.position <| .field Rotation.faithful ht.rotation <|
      .field single ht.width <| .field (natural 32) ht.node <| .nil _

namespace Config

def layout : Layout :=
  .record [⟨"default_length", true, .plain⟩, ⟨"default_width", true, .plain⟩,
    ⟨"default_angle", true, .plain⟩, ⟨"roll_step", true, .plain⟩,
    ⟨"default_berry_size", true, .plain⟩, ⟨"bend_axis", true, .plain⟩, ⟨"pitch_axis", true, .plain⟩,
    ⟨"roll_axis", true, .plain⟩, ⟨"origin", true, .plain⟩, ⟨"initial_rotation", true, .plain⟩,
    ⟨"max_stack_depth", true, .plain⟩]

structure Storable (c : Config) : Prop where
  defaultLength : c.defaultLength.isFinite = true
  defaultWidth : c.defaultWidth.isFinite = true
  defaultAngle : c.defaultAngle.isFinite = true
  rollStep : c.rollStep.isFinite = true
  defaultBerrySize : c.defaultBerrySize.isFinite = true
  origin : c.origin.Finite
  initialRotation : c.initialRotation.Finite
  maxStackDepth : c.maxStackDepth < 2 ^ 64

theorem faithful : codec.Faithful Storable layout := by
  refine .record (by decide) (fun _ => rfl) ?_ fun c hc => ⟨_, rfl, ?_⟩
  · exact .field _ single fun _ => .field _ single fun _ => .field _ single fun _ =>
      .field _ single fun _ => .field _ single fun _ => .field _ Axis.faithful fun _ =>
      .field _ Axis.faithful fun _ => .field _ Axis.faithful fun _ =>
      .field _ Vec3.faithful fun _ => .field _ Rotation.faithful fun _ =>
      .field _ (natural 64) fun _ => .nil _
  · exact .field single hc.defaultLength <| .field single hc.defaultWidth <|
      .field single hc.defaultAngle <| .field single hc.rollStep <|
      .field single hc.defaultBerrySize <| .field Axis.faithful trivial <|
      .field Axis.faithful trivial <| .field Axis.faithful trivial <|
      .field Vec3.faithful hc.origin <| .field Rotation.faithful hc.initialRotation <|
      .field (natural 64) hc.maxStackDepth <| .nil _

end Config

namespace Event

def layout : Layout :=
  .cases [
    ("Move", .record [⟨"from", true, .plain⟩, ⟨"to", true, .plain⟩, ⟨"position", true, .plain⟩,
      ⟨"width", true, .plain⟩]),
    ("BranchOpen", .record [⟨"depth", true, .plain⟩]),
    ("BranchClose", .record [⟨"depth", true, .plain⟩]),
    ("Rotate", .record [⟨"axis", true, .plain⟩, ⟨"degrees", true, .plain⟩]),
    ("MarkTerminal", .record [⟨"node", true, .plain⟩, ⟨"size", true, .plain⟩])]

def Storable : Event → Prop
  | .move source target position width =>
    source < 2 ^ 32 ∧ target < 2 ^ 32 ∧ position.Finite ∧ width.isFinite = true
  | .branchOpen depth | .branchClose depth => depth < 2 ^ 64
  | .turn _ degrees => degrees.isFinite = true
  | .berry node size => node < 2 ^ 32 ∧ size.isFinite = true

theorem faithful : codec.Faithful Storable layout := by
  refine .cases (fun p hp => ?_) fun e he => ?_
  · simp only [List.mem_cons, List.not_mem_nil, or_false] at hp
    rcases hp with rfl | rfl | rfl | rfl | rfl <;> refine ⟨_, rfl, by decide, ?_⟩ <;>
      simp only [codec]
    · exact .field _ (natural 32) fun _ => .field _ (natural 32) fun _ =>
        .field _ Vec3.faithful fun _ => .field _ single fun _ => .nil _
    · exact .field _ (natural 64) fun _ => .nil _
    · exact .field _ (natural 64) fun _ => .nil _
    · exact .field _ Axis.faithful fun _ => .field _ single fun _ => .nil _
    · exact .field _ (natural 32) fun _ => .field _ single fun _ => .nil _
  · cases e with
    | move source target position width =>
      obtain ⟨hsource, htarget, hposition, hwidth⟩ := he
      refine ⟨_, _, _, .head _, rfl, ?_⟩
      simp only [codec]
      exact .field (natural 32) hsource <| .field (natural 32) htarget <|
        .field Vec3.faithful hposition <| .field single hwidth <| .nil _
    | branchOpen depth =>
      refine ⟨_, _, _, .tail _ (.head _), rfl, ?_⟩
      simp only [codec]
      exact .field (natural 64) he <| .nil _
    | branchClose depth =>
      refine ⟨_, _, _, .tail _ (.tail _ (.head _)), rfl, ?_⟩
      simp only [codec]
      exact .field (natural 64) he <| .nil _
    | turn axis degrees =>
      refine ⟨_, _, _, .tail _ (.tail _ (.tail _ (.head _))), rfl, ?_⟩
      simp only [codec]
      exact .field Axis.faithful trivial <| .field single he <| .nil _
    | berry node size =>
      obtain ⟨hnode, hsize⟩ := he
      refine ⟨_, _, _, .tail _ (.tail _ (.tail _ (.tail _ (.head _)))), rfl, ?_⟩
      simp only [codec]
      exact .field (natural 32) hnode <| .field single hsize <| .nil _

end Event

end Turtle

/-! ### Skeletons -/

namespace Skeleton

namespace Node

def layout : Layout :=
  .record [⟨"position", true, .plain⟩, ⟨"rotation", true, .plain⟩, ⟨"width", true, .plain⟩,
    ⟨"parent", false, .plain⟩]

structure Storable (n : Node) : Prop where
  position : n.position.Finite
  rotation : n.rotation.Finite
  width : n.width.isFinite = true
  parent : ∀ id ∈ n.parent, id < 2 ^ 32

theorem faithful : codec.Faithful Storable layout := by
  refine .record (by decide) (fun _ => rfl) ?_ fun n hn => ⟨_, rfl, ?_⟩
  · exact .field _ Vec3.faithful fun _ => .field _ Rotation.faithful fun _ =>
      .field _ single fun _ => .optionalField _ (.natural 32) fun _ => .nil _
  · exact .field Vec3.faithful hn.position <| .field Rotation.faithful hn.rotation <|
      .field single hn.width <| .optionalField (natural 32) (fun _ => nofun) hn.parent <| .nil _

end Node

namespace Edge

def layout : Layout :=
  .record [⟨"parent", true, .plain⟩, ⟨"child", true, .plain⟩]

structure Storable (e : Edge) : Prop where
  parent : e.parent < 2 ^ 32
  child : e.child < 2 ^ 32

theorem faithful : codec.Faithful Storable layout := by
  refine .record (by decide) (fun _ => rfl) ?_ fun e he => ⟨_, rfl, ?_⟩
  · exact .field _ (natural 32) fun _ => .field _ (natural 32) fun _ => .nil _
  · exact .field (natural 32) he.parent <| .field (natural 32) he.child <| .nil _

end Edge

namespace Attachment

def layout : Layout :=
  .record [⟨"node", true, .plain⟩, ⟨"position", true, .plain⟩, ⟨"size", true, .plain⟩]

structure Storable (a : Attachment) : Prop where
  node : a.node < 2 ^ 32
  position : a.position.Finite
  size : a.size.isFinite = true

theorem faithful : codec.Faithful Storable layout := by
  refine .record (by decide) (fun _ => rfl) ?_ fun a ha => ⟨_, rfl, ?_⟩
  · exact .field _ (natural 32) fun _ => .field _ Vec3.faithful fun _ => .field _ single fun _ =>
      .nil _
  · exact .field (natural 32) ha.node <| .field Vec3.faithful ha.position <|
      .field single ha.size <| .nil _

end Attachment

def layout : Layout :=
  .record [⟨"nodes", true, .items Node.layout⟩, ⟨"edges", true, .items Edge.layout⟩,
    ⟨"attachments", true, .items Attachment.layout⟩]

structure Storable (s : Skeleton) : Prop where
  nodes : ∀ n ∈ s.nodes, n.Storable
  edges : ∀ e ∈ s.edges, e.Storable
  attachments : ∀ a ∈ s.attachments, a.Storable

theorem faithful : codec.Faithful Storable layout := by
  refine .record (by decide) (fun _ => rfl) ?_ fun s hs => ⟨_, rfl, ?_⟩
  · exact .field _ Node.faithful.array fun _ => .field _ Edge.faithful.array fun _ =>
      .field _ Attachment.faithful.array fun _ => .nil _
  · exact .field Node.faithful.array hs.nodes <| .field Edge.faithful.array hs.edges <|
      .field Attachment.faithful.array hs.attachments <| .nil _

end Skeleton

/-! ### Grown clusters -/

namespace Turtle.Trail

def layout : Layout :=
  .record [⟨"events", true, .items Event.layout⟩, ⟨"skeleton", true, Skeleton.layout⟩,
    ⟨"unmatched_pops", true, .items .plain⟩, ⟨"open_branches", true, .plain⟩]

structure Storable (t : Trail) : Prop where
  events : ∀ e ∈ t.events, e.Storable
  skeleton : t.skeleton.Storable
  unmatched : ∀ n ∈ t.unmatched, n < 2 ^ 64
  openBranches : t.openBranches < 2 ^ 64

theorem faithful : codec.Faithful Storable layout := by
  refine .record (by decide) (fun _ => rfl) ?_ fun t ht => ⟨_, rfl, ?_⟩
  · exact .field _ Event.faithful.array fun _ => .field _ Skeleton.faithful fun _ =>
      .field _ (natural 64).array fun _ => .field _ (natural 64) fun _ => .nil _
  · exact .field Event.faithful.array ht.events <| .field Skeleton.faithful ht.skeleton <|
      .field (natural 64).array ht.unmatched <| .field (natural 64) ht.openBranches <| .nil _

end Turtle.Trail

namespace Sphere

def layout : Layout :=
  .record [⟨"center", true, .plain⟩, ⟨"diameter", true, .plain⟩]

structure Storable (b : Sphere) : Prop where
  center : b.center.Finite
  diameter : b.diameter.isFinite = true

theorem faithful : codec.Faithful Storable layout := by
  refine .record (by decide) (fun _ => rfl) ?_ fun b hb => ⟨_, rfl, ?_⟩
  · exact .field _ Vec3.faithful fun _ => .field _ single fun _ => .nil _
  · exact .field Vec3.faithful hb.center <| .field single hb.diameter <| .nil _

end Sphere

namespace Wireframe

def layout : Layout :=
  .record [⟨"positions", true, .items .plain⟩, ⟨"widths", true, .items .plain⟩,
    ⟨"indices", true, .items .plain⟩, ⟨"berries", true, .items Sphere.layout⟩]

structure Storable (w : Wireframe) : Prop where
  positions : ∀ v ∈ w.positions, v.Finite
  widths : ∀ x ∈ w.widths, x.isFinite = true
  indices : ∀ n ∈ w.indices, n < 2 ^ 32
  berries : ∀ b ∈ w.berries, b.Storable

theorem faithful : codec.Faithful Storable layout := by
  refine .record (by decide) (fun _ => rfl) ?_ fun w hw => ⟨_, rfl, ?_⟩
  · exact .field _ Vec3.faithful.array fun _ => .field _ single.array fun _ =>
      .field _ (natural 32).array fun _ => .field _ Sphere.faithful.array fun _ => .nil _
  · exact .field Vec3.faithful.array hw.positions <| .field single.array hw.widths <|
      .field (natural 32).array hw.indices <| .field Sphere.faithful.array hw.berries <| .nil _

end Wireframe

namespace Cluster.Config

def layout : Layout :=
  .record [⟨"grammar", true, Grammar.Config.layout⟩, ⟨"turtle", true, Turtle.Config.layout⟩,
    ⟨"generations", true, .plain⟩]

structure Storable (c : Config) : Prop where
  grammar : c.grammar.Storable
  turtle : c.turtle.Storable
  generations : c.generations < 2 ^ 64

theorem faithful : codec.Faithful Storable layout := by
  refine .record (by decide) (fun _ => rfl) ?_ fun c hc => ⟨_, rfl, ?_⟩
  · exact .field _ Grammar.Config.faithful fun _ => .field _ Turtle.Config.faithful fun _ =>
      .field _ (natural 64) fun _ => .nil _
  · exact .field Grammar.Config.faithful hc.grammar <| .field Turtle.Config.faithful hc.turtle <|
      .field (natural 64) hc.generations <| .nil _

end Cluster.Config

namespace Growth

def layout : Layout :=
  .record [⟨"instructions", true, .items Token.layout⟩,
    ⟨"interpretation", true, Turtle.Trail.layout⟩]

structure Storable (g : Growth) : Prop where
  word : ∀ t ∈ g.word, t.Storable
  trail : g.trail.Storable

theorem faithful : codec.Faithful Storable layout := by
  refine .record (by decide) (fun _ => rfl) ?_ fun g hg => ⟨_, rfl, ?_⟩
  · exact .field _ Token.faithful.list fun _ => .field _ Turtle.Trail.faithful fun _ => .nil _
  · exact .field Token.faithful.list hg.word <| .field Turtle.Trail.faithful hg.trail <| .nil _

end Growth

/-! ### All of them -/

/-- **What is stored is what is taken back**, for all types that are stored: with the members of
its structures in any order and with others among them, but with none missing, save the parent of a
node. -/
theorem stored_values_survive :
    Tag.codec.Survives (fun _ => True) .plain ∧
    Symbol.codec.Survives (fun _ => True) Symbol.layout ∧
    Token.codec.Survives Token.Storable Token.layout ∧
    Grammar.Variant.codec.Survives (fun _ => True) .plain ∧
    Grammar.Config.codec.Survives Grammar.Config.Storable Grammar.Config.layout ∧
    Axis.codec.Survives (fun _ => True) .plain ∧
    Turtle.Config.codec.Survives Turtle.Config.Storable Turtle.Config.layout ∧
    Turtle.codec.Survives Turtle.Storable Turtle.layout ∧
    Turtle.Event.codec.Survives Turtle.Event.Storable Turtle.Event.layout ∧
    Cluster.Config.codec.Survives Cluster.Config.Storable Cluster.Config.layout ∧
    Skeleton.codec.Survives Skeleton.Storable Skeleton.layout ∧
    Turtle.Trail.codec.Survives Turtle.Trail.Storable Turtle.Trail.layout ∧
    Wireframe.codec.Survives Wireframe.Storable Wireframe.layout ∧
    Growth.codec.Survives Growth.Storable Growth.layout :=
  ⟨Tag.faithful.survives, Symbol.faithful.survives, Token.faithful.survives,
    Grammar.Variant.faithful.survives, Grammar.Config.faithful.survives, Axis.faithful.survives,
    Turtle.Config.faithful.survives, Turtle.faithful.survives, Turtle.Event.faithful.survives,
    Cluster.Config.faithful.survives, Skeleton.faithful.survives, Turtle.Trail.faithful.survives,
    Wireframe.faithful.survives, Growth.faithful.survives⟩

/-- A skeleton of one edge is taken back although the ends of the edge are stored in the other
order, with a name between them, and not if one of them is missing. -/
theorem stored_values_survive_edge :
    Skeleton.codec.decode (.obj [("nodes", .arr []),
      ("edges", .arr [.obj [("child", .int 1), ("name", .str "e"), ("parent", .int 0)]]),
      ("attachments", .arr [])]) = some { edges := #[⟨0, 1⟩] } ∧
    Skeleton.codec.decode (.obj [("nodes", .arr []),
      ("edges", .arr [.obj [("child", .int 1), ("name", .str "e")]]),
      ("attachments", .arr [])]) = none := by
  obtain ⟨_, _, _, _, _, _, _, _, _, _, hskeleton, _⟩ := stored_values_survive
  have hstorable : Skeleton.Storable { edges := #[⟨0, 1⟩] } :=
    ⟨by simp, by simpa using ⟨by decide, by decide⟩, by simp⟩
  have hinside : ∀ {edit e e'}, Layout.Edited edit Skeleton.Edge.layout e e' →
      Layout.Edited edit Skeleton.layout
        (.obj [("nodes", .arr []), ("edges", .arr [e]), ("attachments", .arr [])])
        (.obj [("nodes", .arr []), ("edges", .arr [e']), ("attachments", .arr [])]) := by
    intro edit e e' h
    have hitem : Layout.Edited edit (.items Skeleton.Edge.layout) (.arr ([] ++ [e]))
        (.arr ([] ++ [e'])) := .item h
    have hnodes : ∀ p ∈ [("nodes", Json.arr [])], p.1 ≠ "edges" := by simp
    exact @Layout.Edited.field _ _ ⟨"edges", true, .items Skeleton.Edge.layout⟩
      [("nodes", .arr [])] [("attachments", .arr [])] _ _ (.tail _ (.head _)) hnodes hitem
  have hswapped : Layout.Rearranged [⟨"parent", true, .plain⟩, ⟨"child", true, .plain⟩]
      [("parent", .int 0), ("child", .int 1)]
      [("child", .int 1), ("name", .str "e"), ("parent", .int 0)] :=
    ⟨by decide, [("name", .str "e")], List.perm_append_singleton _ [_, _], by simp⟩
  obtain ⟨htaken, hmissing⟩ := (hskeleton _ hstorable).2 _ (.single (hinside (.here hswapped)))
  exact ⟨htaken, hmissing _ (hinside (.here ⟨_, .head _, rfl, by simp⟩))⟩

end Grapevine
