import Grapevine.Grammar.Production

/-! The rules of the cluster in space. Buds carry a width behind their length; what they draw is
left to the segment `E`, which turns, sets the width, draws, and may hang a berry. A depth of 1 or
less ends an axis in a tip. -/
namespace Grapevine.Grammar.Tapered

open Number

/-- The face after this one in the cycle c, v, b, n; the root counts as c. -/
def nextFace : Tag → Tag
  | .faceC | .root => .faceV
  | .faceV => .faceB
  | .faceB => .faceN
  | _ => .faceC

/-- The roll before the axis goes on, by face. -/
def faceRoll : Tag → List Token
  | .faceV => [.bare .rollLeft]
  | .faceN => [.bare .rollRight]
  | _ => [.bare .rollLeft, .bare .rollLeft]

/-- A segment that turns nowhere and carries no berry. -/
def straight (length width : Float32) : Token := ⟨.segment, [0, 0, 0, length, width]⟩

/-- An internode of the main axis: the axis goes on from the next face with one less in depth, and
a lateral leaves it. -/
def axis : Rule := fun cfg token =>
  match token.symbol with
  | .bud face =>
    match token.params with
    | [depth, length, width] =>
      let depth := Single.truncate depth
      if depth ≤ 1 then .ok [.bud .tip [length * cfg.tipRatio, width]]
      else
        .ok (straight length width ::
          branch (faceRoll face ++
            [.bud (nextFace face) [Single.ofInt (depth - 1), length * cfg.axisRatio, width]]) ++
          branch [⟨.bendLeft, [cfg.lateralAngle]⟩,
            .bud .secondary [Single.ofNat cfg.secondaryDepth, length * cfg.lateralRatio, width]])
    | params => .error (.arity token.symbol 3 params.length)
  | symbol => .error (.noProduction symbol)

/-- An internode of a lateral: the lateral goes on, and a tip leaves it. -/
def secondary : Rule := fun cfg token =>
  match token.params with
  | [depth, length, width] =>
    let depth := Single.truncate depth
    if depth ≤ 1 then .ok [.bud .tip [length * cfg.tipRatio, width]]
    else
      .ok (straight length width ::
        branch [.bare .rollRight,
          .bud .secondary [Single.ofInt (depth - 1), length * cfg.secondaryRatio, width]] ++
        branch [⟨.bendLeft, [cfg.lateralAngle]⟩,
          .bud .tip [length * cfg.secondaryTipRatio, width]])
  | params => .error (.arity token.symbol 3 params.length)

/-- A last internode, which fans out into three pedicels, the outer two rolled apart. -/
def tip : Rule := fun cfg token =>
  match token.params with
  | [length, width] =>
    let pedicel := Token.bud .pedicel [length * cfg.pedicelRatio, width]
    .ok (straight length width :: branch [pedicel] ++
      branch [⟨.bendLeft, [cfg.lateralAngle]⟩, ⟨.rollLeft, [cfg.pedicelRoll]⟩, pedicel] ++
      branch [⟨.bendRight, [cfg.lateralAngle]⟩, ⟨.rollRight, [cfg.pedicelRoll]⟩, pedicel])
  | params => .error (.arity token.symbol 2 params.length)

/-- A segment with a berry. -/
def pedicel : Rule := fun _ token =>
  match token.params with
  | [length, width] => .ok [⟨.segment, [1, 0, 0, length, width]⟩]
  | params => .error (.arity token.symbol 2 params.length)

/-- Lengths that differ by no more than this count as equal: `2⁻²³`, times the suppressed length
where that is above 1. -/
def tolerance (cfg : Config) : Float32 :=
  Float32.ofBits 0x34000000 * Single.larger cfg.suppressLength.abs 1

/-- A pedicel of this length carries no berry. -/
def suppressed (cfg : Config) (length : Float32) : Bool :=
  decide ((length - cfg.suppressLength).abs ≤ tolerance cfg)

/-- A segment: turn, set the width, draw, and for a segment of type 1 hang a berry. A suppressed
berry is drawn like any other, and written behind a `%` that swallows it. -/
def segment : Production := fun cfg token =>
  match token.params with
  | [kind, bend, pitch, length, width] =>
    let stalk : List Token := [⟨.bendLeft, [bend]⟩, ⟨.pitchDown, [pitch]⟩,
      ⟨.width, [width * cfg.widthRatio]⟩, ⟨.forward, [length]⟩]
    match Single.truncate kind with
    | 0 => pure stalk
    | 1 => do
      let size ← berrySize cfg
      let guard := if suppressed cfg length then [Token.bare .skip] else []
      pure (stalk ++ guard ++ [⟨.berry, [size]⟩])
    | other => throw (.config (.segmentKind other))
  | params => throw (.arity token.symbol 5 params.length)

end Grapevine.Grammar.Tapered
