import Grapevine.Number.Decimal

/-! The fewest decimal digits that read back.

A pattern is the nearest one for a whole interval of numbers. Decimal grids, the multiples of
`10 ^ g`, are tried from coarse to fine; on each, only the two neighbours of the number itself can
be the first to fall into the interval. Of two that do, the nearer one is taken, and the upper one
if they are equally near. -/
namespace Grapevine.Number.Decimal

open Float.Model (Format)

/-- The best of the two neighbours on the grid of `10 ^ g` that round to the pattern, if one does. -/
def onGrid (f : Format) (p : Nat) (g : Int) : Option Decimal :=
  let units := Binary.units f p
  let (num, den) := step f g
  let below := units * den / num
  let nearer := if 2 * units * den < (2 * below + 1) * num then below else below + 1
  let other := 2 * below + 1 - nearer
  if Binary.RoundsTo f p (nearer * num) den then some ⟨nearer, g⟩
  else if Binary.RoundsTo f p (other * num) den then some ⟨other, g⟩
  else none

/-- The first hit on `count` grids, from that of `10 ^ g` downwards. -/
def firstOnGrids (f : Format) (p : Nat) (g : Int) : Nat → Option Decimal
  | 0 => none
  | count + 1 =>
    match onGrid f p g with
    | some d => some d
    | none => firstOnGrids f p (g - 1) count

/-- The number of a pattern, digit for digit. -/
def exact (f : Format) (p : Nat) : Decimal :=
  ⟨Binary.units f p * Nat.pow 5 (Binary.unitExponent f), -Binary.unitExponent f⟩

/-- The decimal of fewest digits that rounds to a finite pattern. The scan starts at a power of ten
above the number and needs at most seventeen digits; the exact number stands behind it, which
rounds to its pattern in any case. -/
def shortest (f : Format) (p : Nat) : Decimal :=
  if p = 0 then ⟨0, 0⟩
  else
    let above : Int := (Binary.units f p).log2 + 2 - Binary.unitExponent f
    (firstOnGrids f p (above * 30103 / 100000 + 1) 24).getD (exact f p)

end Grapevine.Number.Decimal
