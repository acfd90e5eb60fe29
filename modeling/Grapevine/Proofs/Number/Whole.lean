import Mathlib
import Grapevine.Number.Single

/-! Whole numbers in single precision.

Rounding keeps the order of numbers (`Binary.nearest_mono`) and leaves alone what the format holds
(`Binary.units_nearest`). For whole numbers that are stored in single precision and taken out again
this says that those up to `2 ^ 24` come back as they are (`Single.truncate_ofNat_of_le`), and that
none falls behind a smaller one (`Single.truncate_ofNat_mono`). -/
namespace Grapevine.Number

namespace Binary

open Float.Model (Format)

variable (f : Format)

/-! ### Patterns count upwards -/

theorem units_of_lt {p : Nat} (hp : p < 2 ^ f.mantissaBitsWithoutImplicit) : units f p = p := by
  have hdiv : p / 2 ^ f.mantissaBitsWithoutImplicit = 0 := Nat.div_eq_of_lt hp
  simp [units, hdiv]

/-- The patterns of one binade, spaced by one step. -/
theorem units_binade (k : Nat) {r : Nat} (hr : r < 2 ^ f.mantissaBitsWithoutImplicit) :
    units f (2 ^ f.mantissaBitsWithoutImplicit * (k + 1) + r) =
      (2 ^ f.mantissaBitsWithoutImplicit + r) * 2 ^ k := by
  have hw : 0 < 2 ^ f.mantissaBitsWithoutImplicit := Nat.two_pow_pos _
  simp only [units, Nat.pow_eq]
  generalize 2 ^ f.mantissaBitsWithoutImplicit = w at *
  have hdiv : (w * (k + 1) + r) / w = k + 1 := by
    rw [Nat.mul_add_div hw, Nat.div_eq_of_lt hr, Nat.add_zero]
  have hmod : (w * (k + 1) + r) % w = r := by
    rw [Nat.mul_add_mod, Nat.mod_eq_of_lt hr]
  rw [hdiv, hmod]
  split
  · have hk : k = 0 := by omega
    subst hk
    omega
  · rfl

/-- Greater patterns stand for greater numbers. -/
theorem units_strictMono : StrictMono (units f) := by
  apply strictMono_nat_of_lt_succ
  intro p
  have hw : 0 < 2 ^ f.mantissaBitsWithoutImplicit := Nat.two_pow_pos _
  obtain ⟨a, r, hr, rfl⟩ : ∃ a r, r < 2 ^ f.mantissaBitsWithoutImplicit ∧
      p = 2 ^ f.mantissaBitsWithoutImplicit * a + r :=
    ⟨_, _, Nat.mod_lt p hw, (Nat.div_add_mod ..).symm⟩
  -- Within a binade one step is added; at its end the next binade goes on where this one stopped.
  by_cases hend : r + 1 < 2 ^ f.mantissaBitsWithoutImplicit
  · rw [Nat.add_assoc]
    cases a with
    | zero =>
      rw [Nat.mul_zero, Nat.zero_add, Nat.zero_add, units_of_lt f hr, units_of_lt f hend]
      exact Nat.lt_succ_self _
    | succ k =>
      rw [units_binade f k hr, units_binade f k hend]
      exact Nat.mul_lt_mul_of_pos_right (by omega) (Nat.two_pow_pos k)
  · have hlast : 2 ^ f.mantissaBitsWithoutImplicit * a + r + 1 =
        2 ^ f.mantissaBitsWithoutImplicit * (a + 1) + 0 := by
      rw [Nat.mul_succ]
      omega
    rw [hlast, units_binade f a hw, Nat.add_zero]
    cases a with
    | zero =>
      rw [Nat.mul_zero, Nat.zero_add, units_of_lt f hr, Nat.pow_zero, Nat.mul_one]
      exact hr
    | succ k =>
      rw [units_binade f k hr, Nat.pow_succ, Nat.mul_comm _ 2, ← Nat.mul_assoc]
      exact Nat.mul_lt_mul_of_pos_right (by omega) (Nat.two_pow_pos k)

theorem units_mono : Monotone (units f) := (units_strictMono f).monotone

/-! ### Rounding -/

/-- The binade that a number is rounded in. -/
def binade (num den : Nat) : Nat := (num / den).log2 - f.mantissaBitsWithoutImplicit

/-- The pattern below a number. -/
def below (num den : Nat) : Nat :=
  binade f num den * 2 ^ f.mantissaBitsWithoutImplicit + num / (2 ^ binade f num den * den)

/-- A number is rounded up from more than half a step, and from half a step to an even pattern. -/
def RoundsUp (num den : Nat) : Prop :=
  2 ^ binade f num den * den < 2 * (num % (2 ^ binade f num den * den)) ∨
    (2 ^ binade f num den * den = 2 * (num % (2 ^ binade f num den * den)) ∧
      below f num den % 2 = 1)

instance (num den : Nat) : Decidable (RoundsUp f num den) :=
  inferInstanceAs (Decidable (_ ∨ _))

theorem nearest_eq (num den : Nat) :
    nearest f num den =
      min (if RoundsUp f num den then below f num den + 1 else below f num den) (infinity f) := rfl

theorem nearest_le_infinity (num den : Nat) : nearest f num den ≤ infinity f := Nat.min_le_right ..

/-- Below a number stand less than twice as many steps as a binade has. -/
theorem div_step_lt (num den : Nat) :
    num / (2 ^ binade f num den * den) < 2 * 2 ^ f.mantissaBitsWithoutImplicit := by
  rw [Nat.mul_comm (2 ^ _) den, ← Nat.div_div_eq_div_mul, Nat.div_lt_iff_lt_mul (Nat.two_pow_pos _),
    Nat.mul_comm 2, ← Nat.pow_succ, ← Nat.pow_add]
  refine Nat.lt_of_lt_of_le Nat.lt_log2_self (Nat.pow_le_pow_right (by decide) ?_)
  simp only [binade]
  omega

/-- Above the lowest binade, below a number stand at least as many steps as a binade has. -/
theorem le_div_step (num den : Nat) (h : 0 < binade f num den) :
    2 ^ f.mantissaBitsWithoutImplicit ≤ num / (2 ^ binade f num den * den) := by
  rw [Nat.mul_comm (2 ^ _) den, ← Nat.div_div_eq_div_mul, Nat.le_div_iff_mul_le (Nat.two_pow_pos _),
    ← Nat.pow_add]
  have hlog : f.mantissaBitsWithoutImplicit + binade f num den = (num / den).log2 := by
    simp only [binade] at h ⊢
    omega
  rw [hlog]
  refine Nat.log2_self_le fun hzero => ?_
  simp [binade, hzero] at h

theorem binade_mono {num num' : Nat} (den : Nat) (h : num ≤ num') :
    binade f num den ≤ binade f num' den := by
  have hlog : (num / den).log2 ≤ (num' / den).log2 := by
    rcases Nat.eq_zero_or_pos (num / den) with hzero | hpos
    · simp [hzero]
    · have hle := Nat.div_le_div_right (c := den) h
      exact (Nat.le_log2 (by omega)).mpr (Nat.le_trans (Nat.log2_self_le (by omega)) hle)
  simp only [binade]
  omega

/-- In one binade the quotients decide, and the rests where the quotients agree. -/
theorem RoundsUp.mono {num num' den : Nat} (h : num ≤ num')
    (hbinade : binade f num den = binade f num' den) (hbelow : below f num den = below f num' den)
    (hup : RoundsUp f num den) : RoundsUp f num' den := by
  have hquot : num / (2 ^ binade f num den * den) = num' / (2 ^ binade f num den * den) := by
    simp only [below, ← hbinade] at hbelow
    omega
  have hrest : num % (2 ^ binade f num den * den) ≤ num' % (2 ^ binade f num den * den) := by
    have hnum := Nat.div_add_mod num (2 ^ binade f num den * den)
    have hnum' := Nat.div_add_mod num' (2 ^ binade f num den * den)
    rw [hquot] at hnum
    omega
  unfold RoundsUp at hup ⊢
  rw [← hbinade, ← hbelow]
  omega

/-- Rounding keeps the order. -/
theorem nearest_mono {num num' : Nat} (den : Nat) (h : num ≤ num') :
    nearest f num den ≤ nearest f num' den := by
  rw [nearest_eq, nearest_eq]
  have hle : (if RoundsUp f num den then below f num den + 1 else below f num den) ≤
      if RoundsUp f num' den then below f num' den + 1 else below f num' den := by
    rcases Nat.eq_or_lt_of_le (binade_mono f den h) with hsame | hless
    · have hquot := Nat.div_le_div_right (c := 2 ^ binade f num den * den) h
      have hbelow : below f num den ≤ below f num' den := by
        simp only [below, ← hsame]
        omega
      rcases Nat.eq_or_lt_of_le hbelow with heq | hlt
      · have hup := RoundsUp.mono f h hsame heq
        split <;> split <;> simp_all
      · split <;> split <;> omega
    · -- A later binade starts where an earlier one ends.
      have hend := div_step_lt f num den
      have hstart := le_div_step f num' den (by omega)
      have hpast : (binade f num den + 1) * 2 ^ f.mantissaBitsWithoutImplicit ≤
          binade f num' den * 2 ^ f.mantissaBitsWithoutImplicit := Nat.mul_le_mul_right _ hless
      rw [Nat.succ_mul] at hpast
      have hbelow : below f num den + 1 ≤ below f num' den := by
        simp only [below]
        omega
      split <;> split <;> omega
  omega

/-- A binade and the steps in it, as one pattern: the last step leads into the next binade. -/
theorem units_steps (k : Nat) {q : Nat} (hend : q ≤ 2 * 2 ^ f.mantissaBitsWithoutImplicit)
    (hstart : 0 < k → 2 ^ f.mantissaBitsWithoutImplicit ≤ q) :
    units f (k * 2 ^ f.mantissaBitsWithoutImplicit + q) = q * 2 ^ k := by
  have hw : 0 < 2 ^ f.mantissaBitsWithoutImplicit := Nat.two_pow_pos _
  rcases Nat.lt_or_ge q (2 ^ f.mantissaBitsWithoutImplicit) with hlow | hhigh
  · have hk : k = 0 := by
      by_contra hpos
      exact absurd (hstart (Nat.pos_of_ne_zero hpos)) (Nat.not_le.mpr hlow)
    rw [hk, Nat.zero_mul, Nat.zero_add, units_of_lt f hlow, Nat.pow_zero, Nat.mul_one]
  · rcases Nat.eq_or_lt_of_le hend with rfl | hlt
    · have hnext : k * 2 ^ f.mantissaBitsWithoutImplicit + 2 * 2 ^ f.mantissaBitsWithoutImplicit =
          2 ^ f.mantissaBitsWithoutImplicit * (k + 1 + 1) + 0 := by ring
      rw [hnext, units_binade f (k + 1) hw]
      ring
    · have hsplit : k * 2 ^ f.mantissaBitsWithoutImplicit + q =
          2 ^ f.mantissaBitsWithoutImplicit * (k + 1) +
            (q - 2 ^ f.mantissaBitsWithoutImplicit) := by
        rw [Nat.mul_succ, Nat.mul_comm]
        omega
      rw [hsplit, units_binade f k (by omega), Nat.add_sub_cancel' hhigh]

theorem units_below (num den : Nat) :
    units f (below f num den) =
      num / (2 ^ binade f num den * den) * 2 ^ binade f num den :=
  units_steps f _ (Nat.le_of_lt (div_step_lt f num den)) (le_div_step f num den)

theorem units_below_succ (num den : Nat) :
    units f (below f num den + 1) =
      (num / (2 ^ binade f num den * den) + 1) * 2 ^ binade f num den :=
  units_steps f _ (div_step_lt f num den) fun h => Nat.le_succ_of_le (le_div_step f num den h)

/-- What stands on a pattern is not moved. -/
theorem units_nearest {num : Nat} (hdvd : 2 ^ binade f num 1 ∣ num)
    (hfinite : below f num 1 ≤ infinity f) : units f (nearest f num 1) = num := by
  have hrest : num % 2 ^ binade f num 1 = 0 := Nat.mod_eq_zero_of_dvd hdvd
  have hpos : 0 < 2 ^ binade f num 1 := Nat.two_pow_pos _
  have hdown : ¬ RoundsUp f num 1 := by
    unfold RoundsUp
    rw [Nat.mul_one, hrest]
    omega
  rw [nearest_eq, if_neg hdown, Nat.min_eq_left hfinite, units_below, Nat.mul_one,
    Nat.div_mul_cancel hdvd]

/-! ### A sign bit above a pattern -/

theorem signed_mod (sign : Bool) {p half : Nat} (hp : p < half) :
    ((if sign then half else 0) + p) % half = p := by
  cases sign with
  | false => exact (congrArg (· % half) (Nat.zero_add p)).trans (Nat.mod_eq_of_lt hp)
  | true => exact (Nat.add_mod_left half p).trans (Nat.mod_eq_of_lt hp)

theorem decide_le_signed (sign : Bool) {p half : Nat} (hp : p < half) :
    decide (half ≤ (if sign then half else 0) + p) = sign := by
  cases sign with
  | false => exact decide_eq_false fun hle => Nat.not_lt.mpr hle ((Nat.zero_add p).symm ▸ hp)
  | true => exact decide_eq_true (Nat.le_add_right half p)

end Binary

namespace Single

/-! ### Storing a whole number and taking it out again -/

theorem infinity_eq : Binary.infinity format = 255 * 2 ^ 23 := rfl

theorem toNat_toBits_ofPattern (sign : Bool) {p : Nat} (hp : p ≤ Binary.infinity format) :
    (ofPattern sign p).toBits.toNat = (if sign then 2 ^ 31 else 0) + p := by
  show (UInt32.ofNat ((if sign then 2 ^ 31 else 0) + min p (Binary.infinity format))).toNat = _
  rw [Nat.min_eq_left hp, UInt32.toNat_ofNat']
  rw [infinity_eq] at hp
  split <;> omega

theorem pattern_ofPattern (sign : Bool) {p : Nat} (hp : p ≤ Binary.infinity format) :
    pattern (ofPattern sign p) = p := by
  rw [pattern, toNat_toBits_ofPattern sign hp]
  exact Binary.signed_mod sign (Nat.lt_of_le_of_lt hp (by decide))

theorem negative_ofPattern (sign : Bool) {p : Nat} (hp : p ≤ Binary.infinity format) :
    negative (ofPattern sign p) = sign := by
  rw [negative, toNat_toBits_ofPattern sign hp]
  exact Binary.decide_le_signed sign (Nat.lt_of_le_of_lt hp (by decide))

theorem ofInt_natCast (n : Nat) : ofInt (n : Int) = ofNat n := by
  have hsign : decide ((n : Int) < 0) = false := decide_eq_false (by omega)
  simp only [ofInt, ofNat, hsign, Int.natAbs_natCast]

/-- The whole number that a natural number is rounded to, up to the greatest 64-bit integer. -/
theorem truncate_ofNat (n : Nat) :
    truncate (ofNat n) =
      min ((Binary.units format (Binary.nearest format (n * 2 ^ 149) 1) / 2 ^ 149 : Nat) : Int)
        (2 ^ 63 - 1) := by
  have hp := Binary.nearest_le_infinity format (n * Nat.pow 2 (Binary.unitExponent format)) 1
  simp only [truncate, ofNat, pattern_ofPattern false hp, negative_ofPattern false hp,
    Nat.not_lt.mpr hp, if_false, Bool.false_eq_true]
  rfl

theorem truncate_ofNat_mono {m n : Nat} (h : m ≤ n) : truncate (ofNat m) ≤ truncate (ofNat n) := by
  have hunits := Binary.units_mono format
    (Binary.nearest_mono format 1 (Nat.mul_le_mul_right (2 ^ 149) h))
  have hwhole := Nat.div_le_div_right (c := 2 ^ 149) hunits
  rw [truncate_ofNat, truncate_ofNat]
  omega

private theorem binade_whole {n : Nat} (hn : 0 < n) :
    Binary.binade format (n * 2 ^ 149) 1 = n.log2 + 126 := by
  have hlog : (n * 2 ^ 149).log2 = n.log2 + 149 := by
    rw [Nat.log2_eq_iff (Nat.ne_of_gt (Nat.mul_pos hn (Nat.two_pow_pos _)))]
    have hlow := Nat.log2_self_le (Nat.ne_of_gt hn)
    have hup := Nat.lt_log2_self (n := n)
    apply And.intro
    · rw [Nat.pow_add]
      exact Nat.mul_le_mul_right _ hlow
    · rw [show n.log2 + 149 + 1 = n.log2 + 1 + 149 by omega, Nat.pow_add]
      exact Nat.mul_lt_mul_of_pos_right hup (Nat.two_pow_pos _)
  rw [Binary.binade, Nat.div_one, hlog]
  rfl

/-- **Whole numbers up to `2 ^ 24` are kept.** -/
theorem truncate_ofNat_of_le {n : Nat} (h : n ≤ 2 ^ 24) : truncate (ofNat n) = n := by
  rcases Nat.eq_zero_or_pos n with rfl | hn
  · decide
  have hlog : n.log2 ≤ 24 := (Nat.log2_lt (by omega)).mpr (by omega) |> Nat.le_of_lt_succ
  have hbinade := binade_whole hn
  have hdvd : 2 ^ Binary.binade format (n * 2 ^ 149) 1 ∣ n * 2 ^ 149 := by
    rw [hbinade]
    by_cases hlast : n = 2 ^ 24
    · subst hlast
      decide
    · have hlow : n.log2 < 24 := (Nat.log2_lt (by omega)).mpr (by omega)
      exact Nat.dvd_mul_left_of_dvd (Nat.pow_dvd_pow 2 (by omega)) n
  have hfinite : Binary.below format (n * 2 ^ 149) 1 ≤ Binary.infinity format := by
    have hend := Binary.div_step_lt format (n * 2 ^ 149) 1
    have hbound : (n.log2 + 126) * 2 ^ 23 ≤ 150 * 2 ^ 23 := Nat.mul_le_mul_right _ (by omega)
    rw [hbinade] at hend
    rw [Binary.below, hbinade, infinity_eq]
    exact Nat.le_trans (Nat.add_le_add hbound (Nat.le_of_lt hend)) (by decide)
  rw [truncate_ofNat, Binary.units_nearest format hdvd hfinite,
    Nat.mul_div_cancel _ (Nat.two_pow_pos _)]
  omega

end Single

end Grapevine.Number
