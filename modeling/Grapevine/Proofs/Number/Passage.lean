import Grapevine.Proofs.Number.Rounding
import Grapevine.Number.Double

/-! The passage to double precision and back.

Numbers in single precision are numbers in double precision too: what `ofSingle` rounds is a number
already, and what `toSingle` rounds is one again (`toSingle_ofSingle`). -/
namespace Grapevine.Number.Double

variable {p : Nat}

/-- How many binades below the unit of single precision that of double precision lies. -/
def places : Nat := Binary.unitExponent format - Binary.unitExponent Single.format

theorem places_eq : places = 925 := rfl

theorem infinity_eq : Binary.infinity format = 2047 * 2 ^ 52 := rfl

theorem toNat_toBits_ofPattern (sign : Bool) (hp : p ≤ Binary.infinity format) :
    (ofPattern sign p).toBits.toNat = (if sign then 2 ^ 63 else 0) + p := by
  show (UInt64.ofNat ((if sign then 2 ^ 63 else 0) + min p (Binary.infinity format))).toNat = _
  rw [Nat.min_eq_left hp, UInt64.toNat_ofNat']
  rw [infinity_eq] at hp
  split <;> omega

theorem pattern_ofPattern (sign : Bool) (hp : p ≤ Binary.infinity format) :
    pattern (ofPattern sign p) = p := by
  rw [pattern, toNat_toBits_ofPattern sign hp]
  exact Binary.signed_mod sign (Nat.lt_of_le_of_lt hp (by decide))

theorem negative_ofPattern (sign : Bool) (hp : p ≤ Binary.infinity format) :
    negative (ofPattern sign p) = sign := by
  rw [negative, toNat_toBits_ofPattern sign hp]
  exact Binary.decide_le_signed sign (Nat.lt_of_le_of_lt hp (by decide))

/-- A number of single precision is one of double precision. -/
theorem units_nearest_scaled (hp : p < Binary.infinity Single.format) :
    Binary.units format (Binary.nearest format (Binary.units Single.format p * 2 ^ places) 1) =
      Binary.units Single.format p * 2 ^ places := by
  rcases Nat.eq_zero_or_pos p with rfl | hpos
  · rw [Binary.units_of_lt Single.format (by decide), Nat.zero_mul, Binary.nearest_zero,
      Binary.units_of_lt format (by decide)]
  have hinfinity : Binary.infinity Single.format = 255 * 2 ^ 23 := Single.infinity_eq
  obtain ⟨k, hk⟩ : ∃ k, (Single.exponent p + 149).toNat = k := ⟨_, rfl⟩
  have hk' : k ≤ 253 := by
    rw [← hk, Single.exponent]
    omega
  have hm := Single.significand_pos (Nat.ne_of_gt hpos)
  have hlog : (Single.significand p).log2 < 24 :=
    (Nat.log2_lt (Nat.ne_of_gt hm)).mpr (Single.significand_lt p)
  have hnumber : Binary.units Single.format p * 2 ^ places =
      Single.significand p * 2 ^ (k + places) := by
    rw [Single.units_eq, hk, Nat.mul_assoc, ← Nat.pow_add]
  have hbinade : Binary.binade format (Single.significand p * 2 ^ (k + places)) 1 =
      (Single.significand p).log2 + (k + places) - 52 := by
    have hdiv := Single.log2_mul_two_pow_div hm (k + places) 0
    rw [Nat.pow_zero, Nat.sub_zero] at hdiv
    rw [Binary.binade, hdiv]
  have hstep := Binary.div_step_lt format (Single.significand p * 2 ^ (k + places)) 1
  rw [hnumber]
  apply Binary.units_nearest
  · rw [hbinade]
    exact Nat.dvd_mul_left_of_dvd (Nat.pow_dvd_pow 2 (by omega)) _
  · have hwidth : 2 ^ format.mantissaBitsWithoutImplicit = 2 ^ 52 := rfl
    rw [Binary.below, infinity_eq, hwidth]
    rw [hwidth] at hstep
    have hplaces := places_eq
    rw [hbinade] at *
    omega

/-- **Single precision survives the passage to double precision and back.** -/
theorem toSingle_ofSingle {x : Float32} (hx : x.isFinite = true) : toSingle (ofSingle x) = x := by
  have hlt := Single.pattern_lt_of_isFinite hx
  obtain ⟨wide, hwide⟩ : ∃ wide, Binary.nearest format
      (Binary.units Single.format (Single.pattern x) * 2 ^ places) 1 = wide := ⟨_, rfl⟩
  have hle : wide ≤ Binary.infinity format := hwide ▸ Binary.nearest_le_infinity ..
  have hunits : Binary.units format wide =
      Binary.units Single.format (Single.pattern x) * 2 ^ places :=
    hwide ▸ units_nearest_scaled hlt
  have hpow : ∀ k, Nat.pow 2 k = 2 ^ k := fun _ => rfl
  have hofSingle : ofSingle x = ofPattern (Single.negative x) wide := by
    rw [ofSingle, if_neg (Nat.not_lt.mpr (Nat.le_of_lt hlt)), if_neg (Nat.ne_of_lt hlt), ← hwide,
      ← hpow, places]
  have htoSingle : toSingle (ofPattern (Single.negative x) wide) =
      Single.ofPattern (Single.negative x)
        (Binary.nearest Single.format (Binary.units format wide) (2 ^ places)) := by
    rw [toSingle, pattern_ofPattern _ hle, negative_ofPattern _ hle, if_neg (Nat.not_lt.mpr hle),
      ← hpow, places]
  rw [hofSingle, htoSingle, hunits,
    Binary.nearest_units_mul Single.format (Nat.two_pow_pos places) (Nat.le_of_lt hlt),
    Single.ofPattern_pattern (Nat.le_of_lt hlt)]

end Grapevine.Number.Double
