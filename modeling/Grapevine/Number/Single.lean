import Grapevine.Number.Binary

/-! Single precision: what a `Float32` stands for, and whole numbers in both directions. -/
namespace Grapevine.Number.Single

open Float.Model (Format)

abbrev format : Format := .binary32

/-- The bits below the sign. -/
def pattern (x : Float32) : Nat := x.toBits.toNat % 0x80000000

/-- The sign bit, set also on `-0`. -/
def negative (x : Float32) : Bool := decide (0x80000000 ≤ x.toBits.toNat)

/-- A pattern up to infinity is stored as it stands: only numbers above it have a form of their own. -/
theorem valid_of_pattern (b : UInt32) (h : b.toNat % 0x80000000 ≤ Binary.infinity format) :
    format.Valid b.toBitVec := by
  refine ⟨fun he hm => absurd ?_ hm⟩
  have he' := congrArg BitVec.toNat he
  apply BitVec.eq_of_toNat_eq
  simp [Binary.infinity, Float.Model.UnpackedFloat.unpackExponent,
    Float.Model.UnpackedFloat.unpackMantissa, BitVec.extractLsb, Nat.shiftRight_eq_div_pow]
    at he' h ⊢
  omega

/-- The number with a given sign and pattern; patterns above infinity count as infinity. -/
def ofPattern (negative : Bool) (p : Nat) : Float32 :=
  let bits := UInt32.ofNat ((if negative then 0x80000000 else 0) + min p (Binary.infinity format))
  .ofModel ⟨bits, valid_of_pattern bits (by
    have hp : min p (Binary.infinity format) ≤ 0x7f800000 := Nat.min_le_right _ _
    have hb : bits.toNat =
        (if negative then 0x80000000 else 0) + min p (Binary.infinity format) := by
      simp only [bits, UInt32.toNat_ofNat']
      split <;> omega
    rw [hb]
    show _ ≤ 0x7f800000
    split <;> omega)⟩

/-- The one value that is not a number. -/
def notANumber : Float32 := .ofBits 0x7fc00000

/-- A natural number, to nearest. -/
def ofNat (n : Nat) : Float32 :=
  ofPattern false (Binary.nearest format (n * Nat.pow 2 (Binary.unitExponent format)) 1)

/-- A whole number, to nearest. -/
def ofInt (n : Int) : Float32 :=
  ofPattern (decide (n < 0))
    (Binary.nearest format (n.natAbs * Nat.pow 2 (Binary.unitExponent format)) 1)

/-- The whole part, kept between the least and the greatest 64-bit integer; `0` for what is not a
number. -/
def truncate (x : Float32) : Int :=
  let p := pattern x
  if Binary.infinity format < p then 0
  else
    let whole := Binary.units format p / Nat.pow 2 (Binary.unitExponent format)
    if negative x then - min (whole : Int) 0x8000000000000000
    else min (whole : Int) 0x7fffffffffffffff

/-- The larger of two numbers; one that is not a number gives way to the other. -/
def larger (x y : Float32) : Float32 :=
  if x.isNaN then y else if x < y then y else x

end Grapevine.Number.Single
