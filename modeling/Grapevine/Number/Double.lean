import Grapevine.Number.Single

/-! Double precision, and the passage between the two precisions. -/
namespace Grapevine.Number.Double

open Float.Model (Format)

abbrev format : Format := .binary64

/-- The bits below the sign. -/
def pattern (x : Float) : Nat := x.toBits.toNat % 0x8000000000000000

/-- The sign bit, set also on `-0`. -/
def negative (x : Float) : Bool := decide (0x8000000000000000 ≤ x.toBits.toNat)

/-- A pattern up to infinity is stored as it stands: only numbers above it have a form of their own. -/
theorem valid_of_pattern (b : UInt64) (h : b.toNat % 0x8000000000000000 ≤ Binary.infinity format) :
    format.Valid b.toBitVec := by
  refine ⟨fun he hm => absurd ?_ hm⟩
  have he' := congrArg BitVec.toNat he
  apply BitVec.eq_of_toNat_eq
  simp [Binary.infinity, Float.Model.UnpackedFloat.unpackExponent,
    Float.Model.UnpackedFloat.unpackMantissa, BitVec.extractLsb, Nat.shiftRight_eq_div_pow]
    at he' h ⊢
  omega

/-- The number with a given sign and pattern; patterns above infinity count as infinity. -/
def ofPattern (negative : Bool) (p : Nat) : Float :=
  let bits := UInt64.ofNat
    ((if negative then 0x8000000000000000 else 0) + min p (Binary.infinity format))
  .ofModel ⟨bits, valid_of_pattern bits (by
    have hp : min p (Binary.infinity format) ≤ 0x7ff0000000000000 := Nat.min_le_right _ _
    have hb : bits.toNat =
        (if negative then 0x8000000000000000 else 0) + min p (Binary.infinity format) := by
      simp only [bits, UInt64.toNat_ofNat']
      split <;> omega
    rw [hb]
    show _ ≤ 0x7ff0000000000000
    split <;> omega)⟩

/-- The one value that is not a number. -/
def notANumber : Float := .ofBits 0x7ff8000000000000

/-- Single precision in double precision: exact, every unit being `2⁹²⁵` smaller units. -/
def ofSingle (x : Float32) : Float :=
  let p := Single.pattern x
  if Binary.infinity Single.format < p then notANumber
  else if p = Binary.infinity Single.format then
    ofPattern (Single.negative x) (Binary.infinity format)
  else
    let scale := Nat.pow 2 (Binary.unitExponent format - Binary.unitExponent Single.format)
    ofPattern (Single.negative x)
      (Binary.nearest format (Binary.units Single.format p * scale) 1)

/-- Double precision in single precision, to nearest. -/
def toSingle (x : Float) : Float32 :=
  let p := pattern x
  if Binary.infinity format < p then Single.notANumber
  else
    let scale := Nat.pow 2 (Binary.unitExponent format - Binary.unitExponent Single.format)
    Single.ofPattern (negative x) (Binary.nearest Single.format (Binary.units format p) scale)

end Grapevine.Number.Double
