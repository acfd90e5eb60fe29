import Grapevine.Fault

/-! The constants of a grammar: two presets, what makes constants usable, and the token that
growth starts from. -/
namespace Grapevine.Grammar

open Number

/-- Which family of productions grows the cluster. -/
inductive Variant where
  /-- A flat cluster: every lateral stands on the same side of its parent. -/
  | planar
  /-- A cluster in space: successive internodes turn their lateral through four azimuths. -/
  | phyllotactic
deriving DecidableEq, Repr, Inhabited

/-- Berry sizes from `low` up to, but without, `high`; equal ends stand for that one size. -/
structure SizeRange where
  low : Float32
  high : Float32
deriving DecidableEq, Inhabited

structure Config where
  variant : Variant
  /-- Depth of the main axis. -/
  depth : Nat
  /-- Depth of the lateral at each depth of the main axis, from depth 2 upwards (planar only). -/
  lateralDepths : List Nat
  /-- Length of the first internode. -/
  baseLength : Float32
  /-- Length from one generation to the next (planar only). -/
  lengthRatio : Float32
  /-- Berry size as a fraction of the base length (planar only). -/
  berryRatio : Float32
  /-- Angle of a lateral, in degrees (planar only). -/
  branchAngle : Float32
  /-- Width of the main axis. -/
  baseWidth : Float32
  /-- Depth of every lateral (phyllotactic only, as all that follows up to the seed). -/
  secondaryDepth : Nat
  /-- Angle of a lateral, in degrees. -/
  lateralAngle : Float32
  /-- Roll of the two outer pedicels, in degrees. -/
  pedicelRoll : Float32
  /-- Length of a tip to that of the axis which ends in it. -/
  tipRatio : Float32
  /-- Length of an internode of the main axis to that of the one before. -/
  axisRatio : Float32
  /-- Length of a lateral to that of the internode it leaves. -/
  lateralRatio : Float32
  /-- Length of an internode of a lateral to that of the one before. -/
  secondaryRatio : Float32
  /-- Length of a tip to that of the lateral's internode it leaves. -/
  secondaryTipRatio : Float32
  /-- Length of a pedicel to that of its tip. -/
  pedicelRatio : Float32
  /-- Width of a segment to the width it was asked for. -/
  widthRatio : Float32
  /-- Pedicels of this length carry no berry. -/
  suppressLength : Float32
  berrySizes : SizeRange
  /-- Seed of the berry sizes. -/
  seed : UInt64
deriving DecidableEq

namespace Config

/-- The flat cluster: three internodes, laterals at 45 degrees. -/
def planar : Config where
  variant := .planar
  depth := 3
  lateralDepths := [1, 2]
  baseLength := 40
  lengthRatio := 1
  berryRatio := 0.75
  branchAngle := 45
  baseWidth := 1.5
  secondaryDepth := 3
  lateralAngle := 60
  pedicelRoll := 120
  tipRatio := 0.6
  axisRatio := 0.99
  lateralRatio := 0.89
  secondaryRatio := 0.99
  secondaryTipRatio := 0.6
  pedicelRatio := 1.5
  widthRatio := 0.98
  suppressLength := 3
  berrySizes := ⟨2, 3⟩
  seed := 0

/-- The cluster in space: seven short internodes with laterals of depth one. -/
def phyllotactic : Config :=
  { planar with
    variant := .phyllotactic
    depth := 7
    lateralDepths := []
    baseLength := 0.3
    baseWidth := 3
    secondaryDepth := 1 }

instance : Inhabited Config := ⟨planar⟩

/-- The bud that growth starts from: the root with depth and length, or the first face, which
carries a width as well. -/
def start (cfg : Config) : Token :=
  match cfg.variant with
  | .planar => .bud .root [Single.ofNat cfg.depth, cfg.baseLength]
  | .phyllotactic => .bud .faceC [Single.ofNat cfg.depth, cfg.baseLength, cfg.baseWidth]

/-- The first of the faults that keep a grammar from being used. -/
def validate (cfg : Config) : Except ConfigFault Unit :=
  let needed := cfg.depth - 1
  let ⟨low, high⟩ := cfg.berrySizes
  if cfg.depth = 0 then .error .depthZero
  else if cfg.variant = .planar ∧ cfg.lateralDepths.length < needed then
    .error (.tableShort cfg.lateralDepths.length cfg.depth needed)
  else if !(low.isFinite && high.isFinite) ∨ high < low then .error (.sizeRange low high)
  else if !(cfg.baseLength.isFinite && cfg.baseWidth.isFinite) then .error .baseNotFinite
  else .ok ()

/-- The depth of the lateral that leaves the main axis at the given depth. -/
def lateralDepth (cfg : Config) (depth : Int) : Except Fault Nat :=
  let index := (depth - 2).toNat
  match cfg.lateralDepths[index]? with
  | some count => .ok count
  | none => .error (.config (.noLateralDepth cfg.lateralDepths.length depth index))

end Config

end Grapevine.Grammar
