/-! Binary floating point as exact arithmetic.

Every finite number of an interchange format is a whole number of *units*, the unit being the
least positive number of the format. Its bits below the sign are its *pattern*; patterns, read as
natural numbers, count the nonnegative numbers in increasing order, and the pattern of infinity
stands where the next finite number would. Rounding is therefore the choice of a pattern
(`nearest`), and `RoundsTo` says which quotients a pattern is chosen for. -/
namespace Grapevine.Number.Binary

open Float.Model (Format)

/-- The pattern of infinity. Patterns below it are the finite numbers, patterns above it are no
numbers at all. -/
def infinity (f : Format) : Nat :=
  (Nat.pow 2 f.exponentBits - 1) * Nat.pow 2 f.mantissaBitsWithoutImplicit

/-- The unit of a format is `2⁻ᵏ` for this `k`. -/
def unitExponent (f : Format) : Nat :=
  Nat.pow 2 (f.exponentBits - 1) - 2 + f.mantissaBitsWithoutImplicit

/-- The number of units that a pattern stands for. Up to the second power of two above the unit's
binade, patterns are spaced by one unit; in each later binade the spacing doubles. -/
def units (f : Format) (p : Nat) : Nat :=
  let w := Nat.pow 2 f.mantissaBitsWithoutImplicit
  if p / w ≤ 1 then p else (w + p % w) * Nat.pow 2 (p / w - 1)

/-- The pattern nearest to `num / den` units; a tie goes to the even pattern, and what lies too far
above the largest finite number goes to infinity. -/
def nearest (f : Format) (num den : Nat) : Nat :=
  let binade := (num / den).log2 - f.mantissaBitsWithoutImplicit
  let step := Nat.pow 2 binade * den
  let below := binade * Nat.pow 2 f.mantissaBitsWithoutImplicit + num / step
  let twice := 2 * (num % step)
  min (if step < twice ∨ (step = twice ∧ below % 2 = 1) then below + 1 else below) (infinity f)

/-- `num / den` units lie where rounding to nearest chooses the positive pattern `p`: between the
midpoints to its neighbours, which belong to it exactly when it is even. -/
def RoundsTo (f : Format) (p num den : Nat) : Prop :=
  let low := (units f (p - 1) + units f p) * den
  let high := (units f p + units f (p + 1)) * den
  if p % 2 = 0 then low ≤ 2 * num ∧ 2 * num ≤ high else low < 2 * num ∧ 2 * num < high

instance (f : Format) (p num den : Nat) : Decidable (RoundsTo f p num den) := by
  unfold RoundsTo; infer_instance

end Grapevine.Number.Binary
