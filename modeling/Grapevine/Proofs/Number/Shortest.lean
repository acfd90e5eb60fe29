import Grapevine.Number.Shortest
import Grapevine.Proofs.Number.Nearest

/-! The fewest digits read back.

A grid is left with a decimal that rounds to the pattern, and where no grid has one the exact
number stands, which rounds to it as well. So the decimal that is written for a pattern has that
pattern nearest to it (`Decimal.nearest_shortest`). That is so in a format whose numbers keep well
inside the powers of ten that are computed, as those of single precision do. -/
namespace Grapevine.Number

namespace Decimal

open Float.Model (Format)

variable {f : Format} {d : Decimal} {p : Nat} {g : Int}

/-! ### Powers of ten that are computed -/

structure InReach (d : Decimal) : Prop where
  low : -400 ≤ d.exponent + d.digits.log2 + 1
  high : d.exponent ≤ 400

/-- Within reach, the power of ten is computed exactly. -/
theorem nearest_of_inReach (h : d.InReach) :
    d.nearest f =
      Binary.nearest f (d.digits * (step f d.exponent).1) (step f d.exponent).2 := by
  unfold nearest
  by_cases hzero : d.digits = 0
  · rw [if_pos hzero, hzero, Nat.zero_mul, Binary.nearest_zero]
  · rw [if_neg hzero, if_neg (Int.not_lt.mpr h.high), if_neg (Int.not_lt.mpr h.low)]

theorem step_snd_pos (f : Format) (g : Int) : 0 < (step f g).2 := Nat.pow_pos (by decide)

/-- The decimal lies about the pattern. -/
def Hits (f : Format) (p : Nat) (d : Decimal) : Prop :=
  Binary.RoundsTo f p (d.digits * (step f d.exponent).1) (step f d.exponent).2

theorem Hits.nearest_eq (h : Hits f p d) (hd : d.InReach) (hp : p ≤ Binary.infinity f) :
    d.nearest f = p := by
  rw [nearest_of_inReach hd]
  exact Binary.nearest_of_roundsTo f (step_snd_pos f d.exponent) hp h

/-! ### Grids -/

/-- What a grid offers hits the pattern it was made for. -/
theorem hits_of_onGrid (h : onGrid f p g = some d) : d.exponent = g ∧ Hits f p d := by
  simp only [onGrid] at h
  -- Which of the two neighbours is the nearer one does not matter.
  generalize (if 2 * Binary.units f p * (step f g).2 < _ then _ else _) = nearer at h
  split at h
  · rename_i hnearer
    cases h
    exact ⟨rfl, hnearer⟩
  · split at h
    · rename_i hother
      cases h
      exact ⟨rfl, hother⟩
    · cases h

theorem hits_of_firstOnGrids {count : Nat} (h : firstOnGrids f p g count = some d) :
    (g - count < d.exponent ∧ d.exponent ≤ g) ∧ Hits f p d := by
  induction count generalizing g with
  | zero => cases h
  | succ count ih =>
    rw [firstOnGrids] at h
    split at h
    · rename_i hgrid
      cases h
      obtain ⟨hexponent, hhits⟩ := hits_of_onGrid hgrid
      exact ⟨by omega, hhits⟩
    · obtain ⟨hbounds, hhits⟩ := ih h
      exact ⟨by omega, hhits⟩

/-- The exact decimal of a pattern hits it. -/
theorem hits_exact (f : Format) (p : Nat) : Hits f p (exact f p) := by
  have hnum : (exact f p).digits * (step f (exact f p).exponent).1 =
      Binary.units f p * (step f (exact f p).exponent).2 := by
    show Binary.units f p * 5 ^ Binary.unitExponent f *
      (10 ^ (-(Binary.unitExponent f : Int)).toNat * 2 ^ Binary.unitExponent f) =
        Binary.units f p * 10 ^ (- -(Binary.unitExponent f : Int)).toNat
    rw [Int.toNat_neg_natCast, Int.neg_neg, Int.toNat_natCast, Nat.pow_zero, Nat.one_mul,
      Nat.mul_assoc, ← Nat.mul_pow]
  rw [Hits, hnum]
  exact Binary.roundsTo_units f (step_snd_pos f _) p

theorem units_pos (hp : p ≠ 0) : 0 < Binary.units f p :=
  Nat.lt_of_le_of_lt (Nat.zero_le _) (Binary.units_strictMono f (Nat.pos_of_ne_zero hp))

theorem inReach_exact (hp : p ≠ 0) : (exact f p).InReach := by
  have hlog : Binary.unitExponent f ≤ (exact f p).digits.log2 := by
    have hdigits : 2 ^ Binary.unitExponent f ≤ (exact f p).digits := by
      calc 2 ^ Binary.unitExponent f
          ≤ 5 ^ Binary.unitExponent f := Nat.pow_le_pow_left (by decide) _
        _ ≤ Binary.units f p * 5 ^ Binary.unitExponent f :=
          Nat.le_mul_of_pos_left _ (units_pos hp)
    exact (Nat.le_log2 (Nat.ne_of_gt (Nat.lt_of_lt_of_le (Nat.two_pow_pos _) hdigits))).mpr hdigits
  have hexponent : (exact f p).exponent = -Binary.unitExponent f := rfl
  exact ⟨by omega, by omega⟩

/-! ### The shortest decimal -/

theorem shortest_zero : shortest f 0 = ⟨0, 0⟩ := rfl

/-- What the shortest decimal of a positive number can be: a hit on a grid that was tried, or the
number as it is. -/
theorem shortest_cases (hp : p ≠ 0) :
    shortest f p = exact f p ∨
      ∃ g : Int, g = ((Binary.units f p).log2 + 2 - Binary.unitExponent f) * 30103 / 100000 + 1 ∧
        (g - 24 < (shortest f p).exponent ∧ (shortest f p).exponent ≤ g) ∧
          Hits f p (shortest f p) := by
  simp only [shortest, if_neg hp]
  cases hgrids : firstOnGrids f p
    (((Binary.units f p).log2 + 2 - Binary.unitExponent f) * 30103 / 100000 + 1) 24 with
  | none => exact .inl rfl
  | some d => exact .inr ⟨_, rfl, hits_of_firstOnGrids hgrids⟩

/-- The shortest decimal hits its pattern, whichever grid it comes from. -/
theorem hits_shortest (hp : p ≠ 0) : Hits f p (shortest f p) := by
  rcases shortest_cases hp with hexact | hgrid
  · rw [hexact]
    exact hits_exact f p
  · obtain ⟨_, _, _, hhits⟩ := hgrid
    exact hhits

/-- The numbers of the format are neither too small nor too great for the powers of ten. -/
structure Moderate (f : Format) : Prop where
  low : Binary.unitExponent f ≤ 1200
  high : (Binary.units f (Binary.infinity f)).log2 ≤ Binary.unitExponent f + 1200

theorem log2_units_le (hp : p ≤ Binary.infinity f) :
    (Binary.units f p).log2 ≤ (Binary.units f (Binary.infinity f)).log2 := by
  rw [Nat.log2_eq_log_two, Nat.log2_eq_log_two]
  exact Nat.log_mono_right (Binary.units_mono f hp)

/-- The shortest decimal is within reach, even of the greatest numbers. -/
theorem inReach_shortest (hf : Moderate f) (hp : p ≤ Binary.infinity f) :
    (shortest f p).InReach := by
  by_cases hzero : p = 0
  · rw [hzero, shortest_zero]
    exact ⟨by decide, by decide⟩
  · rcases shortest_cases hzero with hexact | hgrid
    · rw [hexact]
      exact inReach_exact hzero
    · obtain ⟨g, hg, hbounds, _⟩ := hgrid
      have hlow := hf.low
      have hhigh := hf.high
      have hlog := log2_units_le hp
      exact ⟨by omega, by omega⟩

/-- **The shortest decimal of a pattern has that pattern nearest to it.** -/
theorem nearest_shortest (hf : Moderate f) (hp : p ≤ Binary.infinity f) :
    (shortest f p).nearest f = p := by
  by_cases hzero : p = 0
  · subst hzero
    rfl
  · exact (hits_shortest hzero).nearest_eq (inReach_shortest hf hp) hp

end Decimal

namespace Single

theorem moderate_format : Decimal.Moderate format := ⟨by decide, by decide⟩

end Single

end Grapevine.Number
