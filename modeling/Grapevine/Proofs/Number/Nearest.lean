import Grapevine.Proofs.Number.Whole

/-! The nearest pattern.

`Binary.nearest` finds the pattern below a number and may take one step up from it, and
`Binary.RoundsTo` says of any pattern which numbers lie about it. Numbers that lie about a pattern
are rounded to it (`Binary.nearest_of_roundsTo`). So a pattern is what its own number is rounded to
(`Binary.nearest_units`), and no whole number becomes greater than a stored one that it is not
greater than (`Single.truncate_ofNat_le_truncate`). -/
namespace Grapevine.Number

namespace Binary

open Float.Model (Format)

variable (f : Format) {num den p : Nat}

/-! ### Between two patterns -/

theorem units_below_mul_le (num den : Nat) : units f (below f num den) * den ≤ num := by
  rw [units_below, Nat.mul_assoc]
  exact Nat.div_mul_le_self ..

theorem lt_units_below_succ_mul (num : Nat) (hden : 0 < den) :
    num < units f (below f num den + 1) * den := by
  rw [units_below_succ, Nat.mul_assoc, Nat.mul_comm]
  exact Nat.lt_mul_div_succ num (Nat.mul_pos (Nat.two_pow_pos _) hden)

/-- A number is rounded up from the midpoint of its neighbours on, and from the midpoint itself to
an even pattern. -/
theorem roundsUp_iff (num den : Nat) :
    RoundsUp f num den ↔
      (units f (below f num den) + units f (below f num den + 1)) * den < 2 * num ∨
        ((units f (below f num den) + units f (below f num den + 1)) * den = 2 * num ∧
          below f num den % 2 = 1) := by
  have hnum := Nat.div_add_mod num (2 ^ binade f num den * den)
  have hsum : (units f (below f num den) + units f (below f num den + 1)) * den =
      2 * (2 ^ binade f num den * den * (num / (2 ^ binade f num den * den))) +
        2 ^ binade f num den * den := by
    rw [units_below, units_below_succ]
    ring
  rw [hsum, RoundsUp]
  omega

/-- Of a number about a pattern, the pattern below is this one or the one before it. -/
theorem below_of_roundsTo (hden : 0 < den) (h : RoundsTo f p num den) :
    below f num den = p ∨ below f num den + 1 = p := by
  have hmono := units_strictMono f
  have hlow := units_below_mul_le f num den
  have hhigh := lt_units_below_succ_mul f num hden
  have hbounds : (units f (p - 1) + units f p) * den ≤ 2 * num ∧
      2 * num ≤ (units f p + units f (p + 1)) * den := by
    simp only [RoundsTo] at h
    split at h <;> omega
  rw [Nat.add_mul, Nat.add_mul] at hbounds
  have hle : below f num den ≤ p := by
    by_contra hlt
    have hunits : units f (p + 1) ≤ units f (below f num den) :=
      hmono.monotone (Nat.lt_of_not_le hlt)
    have hnext : units f p * den < units f (p + 1) * den :=
      Nat.mul_lt_mul_of_pos_right (hmono (Nat.lt_succ_self p)) hden
    have hpast := Nat.mul_le_mul_right den hunits
    omega
  have hge : p ≤ below f num den + 1 := by
    by_contra hlt
    have hunits : units f (below f num den + 1) ≤ units f (p - 1) := hmono.monotone (by omega)
    have hprev : units f (p - 1) ≤ units f p := hmono.monotone (Nat.sub_le p 1)
    have hpast := Nat.mul_le_mul_right den hunits
    have hstep := Nat.mul_le_mul_right den hprev
    omega
  omega

/-- **Numbers about a pattern are rounded to it.** -/
theorem nearest_of_roundsTo (hden : 0 < den) (hp : p ≤ infinity f) (h : RoundsTo f p num den) :
    nearest f num den = p := by
  have hup := roundsUp_iff f num den
  rcases below_of_roundsTo f hden h with heq | hprev
  · have hdown : ¬ RoundsUp f num den := by
      rw [hup, heq]
      simp only [RoundsTo] at h
      split at h <;> omega
    rw [nearest_eq, if_neg hdown, heq, Nat.min_eq_left hp]
  · have hroundsUp : RoundsUp f num den := by
      rw [hup]
      rw [← hprev] at h
      simp only [RoundsTo, Nat.add_sub_cancel] at h
      split at h <;> omega
    rw [nearest_eq, if_pos hroundsUp, hprev, Nat.min_eq_left hp]

/-- The number that a pattern stands for lies about it, in whatever fraction it is written. -/
theorem roundsTo_units (hden : 0 < den) (p : Nat) : RoundsTo f p (units f p * den) den := by
  have hprev : units f (p - 1) * den ≤ units f p * den :=
    Nat.mul_le_mul_right den (units_mono f (Nat.sub_le p 1))
  have hnext : units f p * den < units f (p + 1) * den :=
    Nat.mul_lt_mul_of_pos_right (units_strictMono f (Nat.lt_succ_self p)) hden
  simp only [RoundsTo, Nat.add_mul]
  split
  · omega
  · have hstrict : units f (p - 1) * den < units f p * den :=
      Nat.mul_lt_mul_of_pos_right (units_strictMono f (by omega)) hden
    omega

theorem nearest_units_mul (hden : 0 < den) (hp : p ≤ infinity f) :
    nearest f (units f p * den) den = p :=
  nearest_of_roundsTo f hden hp (roundsTo_units f hden p)

theorem nearest_units (hp : p ≤ infinity f) : nearest f (units f p) 1 = p := by
  have hone := nearest_units_mul f Nat.one_pos hp
  rwa [Nat.mul_one] at hone

theorem nearest_zero (den : Nat) : nearest f 0 den = 0 := by
  simp [nearest]

/-- A number is rounded up to a pattern from its midpoint with a lesser one on, -/
theorem units_add_nearest_le (h : p < nearest f num den) :
    (units f p + units f (nearest f num den)) * den ≤ 2 * num := by
  have hup := roundsUp_iff f num den
  have hlow := units_below_mul_le f num den
  have hmono : ∀ {i j : Nat}, i ≤ j → units f i * den ≤ units f j * den :=
    fun h => Nat.mul_le_mul_right den (units_mono f h)
  have hle : nearest f num den ≤ if RoundsUp f num den then below f num den + 1
      else below f num den := by
    rw [nearest_eq]
    exact Nat.min_le_left ..
  have hnearest := hmono hle
  rw [Nat.add_mul] at hup ⊢
  split at hle
  · rename_i hround
    have hhalf := hup.mp hround
    have hp := hmono (show p ≤ below f num den by omega)
    rw [if_pos hround] at hnearest
    omega
  · rename_i hround
    have hp := hmono (show p ≤ below f num den by omega)
    rw [if_neg hround] at hnearest
    omega

/-- and down to it up to its midpoint with a greater one. -/
theorem le_units_add_nearest (hden : 0 < den) (hp : p ≤ infinity f) (h : nearest f num den < p) :
    2 * num ≤ (units f (nearest f num den) + units f p) * den := by
  have hup := roundsUp_iff f num den
  have hhigh := lt_units_below_succ_mul f num hden
  have hmono : ∀ {i j : Nat}, i ≤ j → units f i * den ≤ units f j * den :=
    fun h => Nat.mul_le_mul_right den (units_mono f h)
  have hnearest : nearest f num den = if RoundsUp f num den then below f num den + 1
      else below f num den := by
    have hmin := nearest_eq f num den
    omega
  rw [Nat.add_mul] at hup ⊢
  split at hnearest
  · have hnext := hmono (show below f num den + 1 ≤ nearest f num den by omega)
    have hp := hmono (show below f num den + 1 ≤ p by omega)
    omega
  · rename_i hround
    have hhalf := mt hup.mpr hround
    have hnext := hmono (show below f num den ≤ nearest f num den by omega)
    have hp := hmono (show below f num den + 1 ≤ p by omega)
    omega

end Binary

namespace Single

/-! ### Whole parts -/

theorem truncate_eq_of_pos {x : Float32} (h : 0 < truncate x) :
    pattern x ≤ Binary.infinity format ∧
      truncate x = min ((Binary.units format (pattern x) / 2 ^ 149 : Nat) : Int) (2 ^ 63 - 1) := by
  have hunit : Nat.pow 2 (Binary.unitExponent format) = 2 ^ 149 := rfl
  have hmax : (0x7fffffffffffffff : Int) = 2 ^ 63 - 1 := by decide
  unfold truncate at h ⊢
  rw [hunit] at h ⊢
  by_cases hnan : Binary.infinity format < pattern x
  · simp only [hnan, if_true] at h
    exact absurd h (Int.lt_irrefl 0)
  · cases hsign : negative x
    · simp only [hnan, if_false, Bool.false_eq_true]
      refine ⟨Nat.le_of_not_lt hnan, ?_⟩
      rw [hmax]
    · simp only [hnan, hsign, if_true, if_false] at h
      omega

/-- **A whole number that is stored does not get past a stored number.** -/
theorem truncate_ofNat_le_truncate {x : Float32} {n : Nat} (hx : 0 < truncate x)
    (h : (n : Int) ≤ truncate x) : truncate (ofNat n) ≤ truncate x := by
  obtain ⟨hp, heq⟩ := truncate_eq_of_pos hx
  have hwhole : n ≤ Binary.units format (pattern x) / 2 ^ 149 := by omega
  have hnum : n * 2 ^ 149 ≤ Binary.units format (pattern x) :=
    (Nat.le_div_iff_mul_le (Nat.two_pow_pos 149)).mp hwhole
  have hnear := Binary.nearest_mono format 1 hnum
  rw [Binary.nearest_units format hp] at hnear
  have hunits := Nat.div_le_div_right (c := 2 ^ 149) (Binary.units_mono format hnear)
  rw [truncate_ofNat, heq]
  exact min_le_min_right (2 ^ 63 - 1) (Int.ofNat_le.mpr hunits)

end Single

end Grapevine.Number
