import Grapevine.Codec
import Grapevine.Grammar.Config

/-! Stored tokens and grammars. -/
namespace Grapevine

namespace Tag

def name : Tag → String
  | root => "Root"
  | secondary => "Secondary"
  | tip => "Tip"
  | pedicel => "Pedicel"
  | faceC => "FaceC"
  | faceV => "FaceV"
  | faceB => "FaceB"
  | faceN => "FaceN"

def codec : Codec Tag := .enumeration all name

end Tag

namespace Symbol

/-- The symbols other than buds. -/
def plain : List Symbol :=
  [forward, berry, segment, bendLeft, bendRight, rollLeft, rollRight, pitchDown, pitchUp, push, pop,
    skip, width]

/-- The name of a symbol; of a bud, without its tag. -/
def name : Symbol → String
  | forward => "Forward"
  | berry => "Berry"
  | segment => "Segment"
  | bud _ => "Module"
  | bendLeft => "BendLeft"
  | bendRight => "BendRight"
  | rollLeft => "RollLeft"
  | rollRight => "RollRight"
  | pitchDown => "PitchDown"
  | pitchUp => "PitchUp"
  | push => "Push"
  | pop => "Pop"
  | skip => "Skip"
  | width => "Width"

/-- A bud is stored as an object that holds its tag, any other symbol as its name. -/
def codec : Codec Symbol where
  encode
    | bud tag => .obj [("Module", Tag.codec.encode tag)]
    | symbol => .str symbol.name
  decode
    | .obj [("Module", j)] => (Tag.codec.decode j).map bud
    | j => (Codec.enumeration plain name).decode j

end Symbol

def Token.codec : Codec Token where
  encode t := .obj [("symbol", Symbol.codec.encode t.symbol),
    ("params", Codec.single.list.encode t.params)]
  decode j := do
    let m ← Codec.members? ["symbol", "params"] j
    return {
      symbol := ← Codec.field m "symbol" Symbol.codec
      params := ← Codec.field m "params" Codec.single.list }

namespace Grammar

namespace Variant

def name : Variant → String
  | planar => "Planar"
  | phyllotactic => "Phyllotactic"

def codec : Codec Variant := .enumeration [planar, phyllotactic] name

end Variant

def SizeRange.codec : Codec SizeRange :=
  .components (fun r => [r.low, r.high]) fun
    | [low, high] => some ⟨low, high⟩
    | _ => none

namespace Config

/-- The names of the fields, in order. -/
def fieldNames : List String :=
  ["variant", "depth", "child_counts", "base_length", "length_ratio", "berry_ratio",
    "branch_angle", "base_width", "secondary_depth", "lateral_angle", "pedicel_roll", "tip_ratio",
    "axis_ratio", "lateral_ratio", "secondary_ratio", "secondary_tip_ratio", "pedicel_ratio",
    "width_ratio", "suppress_length", "berry_size_range", "seed"]

/-- Depths and counts are stored in 32 bits, the seed in 64. -/
def codec : Codec Config where
  encode c := .obj (fieldNames.zip
    [Variant.codec.encode c.variant, (Codec.natural 32).encode c.depth,
      (Codec.natural 32).list.encode c.lateralDepths, Codec.single.encode c.baseLength,
      Codec.single.encode c.lengthRatio, Codec.single.encode c.berryRatio,
      Codec.single.encode c.branchAngle, Codec.single.encode c.baseWidth,
      (Codec.natural 32).encode c.secondaryDepth, Codec.single.encode c.lateralAngle,
      Codec.single.encode c.pedicelRoll, Codec.single.encode c.tipRatio,
      Codec.single.encode c.axisRatio, Codec.single.encode c.lateralRatio,
      Codec.single.encode c.secondaryRatio, Codec.single.encode c.secondaryTipRatio,
      Codec.single.encode c.pedicelRatio, Codec.single.encode c.widthRatio,
      Codec.single.encode c.suppressLength, SizeRange.codec.encode c.berrySizes,
      Codec.word64.encode c.seed])
  decode j := do
    let m ← Codec.members? fieldNames j
    return {
      variant := ← Codec.field m "variant" Variant.codec
      depth := ← Codec.field m "depth" (.natural 32)
      lateralDepths := ← Codec.field m "child_counts" (Codec.natural 32).list
      baseLength := ← Codec.field m "base_length" .single
      lengthRatio := ← Codec.field m "length_ratio" .single
      berryRatio := ← Codec.field m "berry_ratio" .single
      branchAngle := ← Codec.field m "branch_angle" .single
      baseWidth := ← Codec.field m "base_width" .single
      secondaryDepth := ← Codec.field m "secondary_depth" (.natural 32)
      lateralAngle := ← Codec.field m "lateral_angle" .single
      pedicelRoll := ← Codec.field m "pedicel_roll" .single
      tipRatio := ← Codec.field m "tip_ratio" .single
      axisRatio := ← Codec.field m "axis_ratio" .single
      lateralRatio := ← Codec.field m "lateral_ratio" .single
      secondaryRatio := ← Codec.field m "secondary_ratio" .single
      secondaryTipRatio := ← Codec.field m "secondary_tip_ratio" .single
      pedicelRatio := ← Codec.field m "pedicel_ratio" .single
      widthRatio := ← Codec.field m "width_ratio" .single
      suppressLength := ← Codec.field m "suppress_length" .single
      berrySizes := ← Codec.field m "berry_size_range" SizeRange.codec
      seed := ← Codec.field m "seed" .word64 }

end Config

end Grammar

end Grapevine
