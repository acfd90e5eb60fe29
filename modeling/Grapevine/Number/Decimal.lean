import Grapevine.Number.Binary

/-! Decimals: a natural number of powers of ten, and the binary number nearest to one. -/
namespace Grapevine.Number

/-- The number `digits · 10 ^ exponent`. -/
structure Decimal where
  digits : Nat
  exponent : Int
deriving DecidableEq, Repr

namespace Decimal

open Float.Model (Format)

/-- Numerator and denominator of `10 ^ g`, counted in units of the format. -/
def step (f : Format) (g : Int) : Nat × Nat :=
  (Nat.pow 10 g.toNat * Nat.pow 2 (Binary.unitExponent f), Nat.pow 10 (-g).toNat)

/-- The pattern nearest to a decimal. A decimal of at least `10⁴⁰⁰`, or of less than `10⁻⁴⁰⁰`, is
past the ends of both formats, and its power of ten is not computed. -/
def nearest (f : Format) (d : Decimal) : Nat :=
  if d.digits = 0 then 0
  else if 400 < d.exponent then Binary.infinity f
  else if d.exponent + d.digits.log2 + 1 < -400 then 0
  else Binary.nearest f (d.digits * (step f d.exponent).1) (step f d.exponent).2

end Decimal

end Grapevine.Number
