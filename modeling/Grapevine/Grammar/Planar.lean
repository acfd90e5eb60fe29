import Grapevine.Grammar.Production

/-! The rules of the flat cluster. Axes carry a depth and a length, tips and pedicels a length; each
rule passes on its length times the length ratio. A depth of 1 or less ends an axis in a tip. -/
namespace Grapevine.Grammar.Planar

open Number

/-- An internode of the main axis: the axis goes on with one less in depth, and a lateral leaves it
whose depth the table gives. -/
def root : Rule := fun cfg token =>
  match token.params with
  | [depth, length] =>
    let depth := Single.truncate depth
    let next := length * cfg.lengthRatio
    if depth ≤ 1 then .ok [.bud .tip [next]]
    else do
      let children ← cfg.lateralDepth depth
      .ok (⟨.forward, [length]⟩ ::
        branch [.bare .rollLeft, .bare .rollLeft, .bud .root [Single.ofInt (depth - 1), next]] ++
        branch [⟨.bendLeft, [cfg.branchAngle]⟩, .bud .secondary [Single.ofNat children, next]])
  | params => .error (.arity token.symbol 2 params.length)

/-- An internode of a lateral: the lateral goes on, and a tip leaves it. -/
def secondary : Rule := fun cfg token =>
  match token.params with
  | [depth, length] =>
    let depth := Single.truncate depth
    let next := length * cfg.lengthRatio
    if depth ≤ 1 then .ok [.bud .tip [next]]
    else
      .ok (⟨.forward, [length]⟩ ::
        branch [.bare .rollLeft, .bare .rollLeft,
          .bud .secondary [Single.ofInt (depth - 1), next]] ++
        branch [⟨.bendLeft, [cfg.branchAngle]⟩, .bud .tip [next]])
  | params => .error (.arity token.symbol 2 params.length)

/-- A last internode, which fans out into three pedicels. -/
def tip : Rule := fun cfg token =>
  match token.params with
  | [length] =>
    let pedicel := Token.bud .pedicel [length * cfg.lengthRatio]
    .ok (⟨.forward, [length]⟩ :: branch [pedicel] ++
      branch [⟨.bendLeft, [cfg.branchAngle]⟩, pedicel] ++
      branch [⟨.bendRight, [cfg.branchAngle]⟩, pedicel])
  | params => .error (.arity token.symbol 1 params.length)

/-- A stalk and its berry, all berries being of one size. -/
def pedicel : Rule := fun cfg token =>
  match token.params with
  | [length] => .ok [⟨.forward, [length]⟩, ⟨.berry, [cfg.baseLength * cfg.berryRatio]⟩]
  | params => .error (.arity token.symbol 1 params.length)

end Grapevine.Grammar.Planar
