import Grapevine.Chance.Uniform
import Grapevine.Proofs.Number.Rounding

/-! Draws from a range.

A draw scales a fraction to the width of the range and shifts it to the lower end. Rounding keeps
the order of numbers, so what comes of that is never below this end (`Proper.low_le_scaled`). It can
be the upper end, and then the next word is tried, until one hits (`Hits`). A word in the lowest
eighth of all words always does (`scaled_lt_of_word`). So it makes no difference that a draw gives
up after 256 words, unless all of them are above that eighth (`drawWithin_hits`), and even then what
it answers lies in the range (`drawWithin_mem`). -/
namespace Grapevine.Chance

open Number Single

variable {low high u : Float32} {s : Keystream} {k n : Nat} {r r' : Float32 × Keystream}

/-! ### Fractions -/

/-- The pattern of the number between 1 and 2 that a fraction is cut from. -/
def unitPattern (word : UInt32) : Nat := 0x3f800000 + word.toNat / 2 ^ 9

theorem unitPattern_lt (word : UInt32) : unitPattern word < Binary.infinity format := by
  have hword := word.toNat_lt
  rw [unitPattern, infinity_eq]
  omega

theorem fraction_eq (word : UInt32) : fraction word = ofPattern false (unitPattern word) - 1 := by
  have hshifted : (word >>> 9).toNat = word.toNat / 2 ^ 9 := by
    rw [UInt32.toNat_shiftRight, Nat.shiftRight_eq_div_pow]
    rfl
  have hbits : ((0x3f800000 : UInt32) ||| (word >>> 9)).toNat = unitPattern word := by
    have hword := word.toNat_lt
    have hor := Nat.two_pow_add_eq_or_of_lt (i := 23)
      (show word.toNat / 2 ^ 9 < 2 ^ 23 by omega) 127
    rw [UInt32.toNat_or, hshifted]
    exact hor.symm
  have hfinite := Nat.le_of_lt (unitPattern_lt word)
  rw [fraction, ofBits_eq_ofPattern (hbits.trans_le hfinite), hbits]

/-- A fraction is the distance to 1 of a number that is not less. -/
theorem isNearest_fraction (word : UInt32) :
    IsNearest (value (ofPattern false (unitPattern word)) - value 1) (fraction word) := by
  have hfinite := unitPattern_lt word
  have hone : pattern 1 < Binary.infinity format := by decide
  rw [fraction_eq]
  exact isNearest_sub ((pattern_ofPattern _ (Nat.le_of_lt hfinite)).trans_lt hfinite) hone

theorem rank_unitPattern (word : UInt32) :
    rank (ofPattern false (unitPattern word)) = unitPattern word :=
  rank_ofPattern _ (Nat.le_of_lt (unitPattern_lt word))

/-- Greater words give greater fractions. -/
theorem rank_fraction_mono {word word' : UInt32} (h : word.toNat ≤ word'.toNat) :
    rank (fraction word) ≤ rank (fraction word') := by
  have hpattern : unitPattern word ≤ unitPattern word' :=
    Nat.add_le_add_left (Nat.div_le_div_right h) _
  have hvalue : value (ofPattern false (unitPattern word)) ≤
      value (ofPattern false (unitPattern word')) := by
    apply value_le_value
    rw [rank_unitPattern, rank_unitPattern]
    exact Int.ofNat_le.mpr hpattern
  rw [(isNearest_fraction word).rank_eq, (isNearest_fraction word').rank_eq]
  exact nearestRank_mono (Int.sub_le_sub_right hvalue _)

/-- No fraction is less than that of the least word, or greater than that of the greatest. -/
theorem isNonneg_fraction (word : UInt32) :
    IsNonneg (fraction word) ∧ pattern (fraction word) < Binary.infinity format := by
  have hleast : rank (fraction 0) = 0 := by decide
  have hgreatest : rank (fraction 0xffffffff) < Binary.infinity format := by decide
  have hword : word.toNat ≤ (0xffffffff : UInt32).toNat := Nat.le_of_lt_succ word.toNat_lt
  have hlow : rank (fraction 0) ≤ rank (fraction word) := rank_fraction_mono (Nat.zero_le _)
  have hhigh := rank_fraction_mono hword
  have hnonneg : IsNonneg (fraction word) :=
    ⟨(isNearest_fraction word).pattern_le, hleast.symm.trans_le hlow⟩
  have hpattern := hnonneg.rank_eq
  exact ⟨hnonneg, by omega⟩

/-! ### Scaled fractions -/

/-- A range that can be drawn from: its ends are numbers in order, and so is its width a number. -/
structure Proper (low high : Float32) : Prop where
  low_finite : low.isFinite = true
  high_finite : high.isFinite = true
  width_finite : (high - low).isFinite = true
  lt : low < high

namespace Proper

theorem low_lt (h : Proper low high) : pattern low < Binary.infinity format :=
  pattern_lt_of_isFinite h.low_finite

theorem high_lt (h : Proper low high) : pattern high < Binary.infinity format :=
  pattern_lt_of_isFinite h.high_finite

theorem width_lt (h : Proper low high) : pattern (high - low) < Binary.infinity format :=
  pattern_lt_of_isFinite h.width_finite

theorem rank_lt (h : Proper low high) : rank low < rank high :=
  (lt_iff_rank_lt (Nat.le_of_lt h.low_lt) (Nat.le_of_lt h.high_lt)).mp h.lt

theorem isNonneg_width (h : Proper low high) : IsNonneg (high - low) :=
  isNonneg_sub h.high_lt h.low_lt (Int.le_of_lt h.rank_lt)

/-- **Rounding does not take a draw below the lower end.** -/
theorem low_le_scaled (h : Proper low high) (hu : IsNonneg u)
    (hu' : pattern u < Binary.infinity format) : low ≤ u * (high - low) + low := by
  have hscaled := isNonneg_mul hu h.isNonneg_width hu' h.width_lt
  obtain ⟨hle, hrank⟩ := rank_le_rank_add hscaled h.low_lt
  exact (le_iff_rank_le (Nat.le_of_lt h.low_lt) hle).mpr hrank

/-- Of a range, a fraction less than an eighth makes less than half: rounding at most doubles the
width, and then the product. -/
theorem value_scaled_lt (h : Proper low high) (hu : IsNonneg u) (hu' : 8 * value u < 2 ^ 149)
    (hfinite : pattern u < Binary.infinity format) :
    2 * value (u * (high - low)) < value high - value low := by
  have hdistance := value_lt_value (Nat.le_of_lt h.low_lt) (Nat.le_of_lt h.high_lt) h.rank_lt
  have hproduct := value_mul_le hu h.isNonneg_width hfinite h.width_lt
  have hwidth := value_sub_le h.high_lt h.low_lt (Int.le_of_lt h.rank_lt)
  have hdoubled := Int.mul_le_mul_of_nonneg_left hwidth hu.value_nonneg
  have heighth := Int.mul_lt_mul_of_pos_right hu' (Int.sub_pos.mpr hdistance)
  linarith

/-- **A fraction less than an eighth does not come to the upper end**, since the lower one would be
nearer. -/
theorem scaled_lt_high (h : Proper low high) (hu : IsNonneg u) (hu' : 8 * value u < 2 ^ 149)
    (hfinite : pattern u < Binary.infinity format) : u * (high - low) + low < high := by
  have hhalf := h.value_scaled_lt hu hu' hfinite
  have hscaled := isNonneg_mul hu h.isNonneg_width hfinite h.width_lt
  have hproduct : pattern (u * (high - low)) < Binary.infinity format := by
    have hwidth := h.isNonneg_width.value_nonneg
    have hunits : value (u * (high - low)) ≤ value (high - low) := by
      have hle := value_mul_le hu h.isNonneg_width hfinite h.width_lt
      have heighth := Int.mul_le_mul_of_nonneg_right (Int.le_of_lt hu') hwidth
      linarith
    rw [hscaled.value_eq, h.isNonneg_width.value_eq, Int.ofNat_le,
      (Binary.units_strictMono format).le_iff_le] at hunits
    exact hunits.trans_lt h.width_lt
  have hsum := isNearest_add hproduct h.low_lt
  rw [lt_iff_rank_lt hsum.pattern_le (Nat.le_of_lt h.high_lt)]
  by_contra hge
  have hrank := h.rank_lt
  have hbeyond := value_le_value (Int.not_lt.mp hge)
  have hmidpoint := hsum.value_add_le (Nat.le_of_lt h.low_lt) (by omega)
  omega

end Proper

/-! ### Draws that go on -/

/-- What the next word of a stream is scaled to. -/
def scaled (low high : Float32) (s : Keystream) : Float32 := fraction s.word * (high - low) + low

/-- A draw that is repeated as often as it takes: what it gives, and the stream behind it, when it
hits after so many misses. -/
inductive Hits (low high : Float32) : Nat → Keystream → Float32 × Keystream → Prop where
  | hit {s : Keystream} (h : scaled low high s < high) :
      Hits low high 0 s (scaled low high s, s.next)
  | miss {k : Nat} {s : Keystream} {r : Float32 × Keystream} (h : ¬ scaled low high s < high)
      (hrest : Hits low high k s.next r) : Hits low high (k + 1) s r

theorem drawWithin_succ (low high : Float32) (n : Nat) (s : Keystream) :
    drawWithin low high (n + 1) s =
      if scaled low high s < high then (scaled low high s, s.next)
      else drawWithin low high n s.next := rfl

/-- Words that are left over are not read. -/
theorem drawWithin_of_hits (h : Hits low high k s r) (hk : k < n) : drawWithin low high n s = r := by
  induction h generalizing n with
  | hit h =>
    obtain ⟨n, rfl⟩ := Nat.exists_eq_add_one.mpr hk
    rw [drawWithin_succ, if_pos h]
  | miss h _ ih =>
    obtain ⟨n, rfl⟩ := Nat.exists_eq_add_one.mpr (Nat.zero_lt_of_lt hk)
    rw [drawWithin_succ, if_neg h]
    exact ih (Nat.lt_of_succ_lt_succ hk)

/-- A draw that is repeated hits in one way at most. -/
theorem Hits.unique (h : Hits low high k s r) {k' : Nat} (h' : Hits low high k' s r') : r = r' := by
  rw [← drawWithin_of_hits h (show k < max k k' + 1 by omega),
    ← drawWithin_of_hits h' (show k' < max k k' + 1 by omega)]

/-- A word in the lowest eighth hits. -/
theorem scaled_lt_of_word (h : Proper low high) (hword : s.word.toNat < 2 ^ 29) :
    scaled low high s < high := by
  have heighth : 8 * value (fraction 0x1fffffff) < 2 ^ 149 := by decide
  have hle : rank (fraction s.word) ≤ rank (fraction 0x1fffffff) :=
    rank_fraction_mono (Nat.le_of_lt_succ hword)
  have hvalue := value_le_value hle
  obtain ⟨hu, hu'⟩ := isNonneg_fraction s.word
  exact h.scaled_lt_high hu (by omega) hu'

/-- **To give up makes no difference**, unless all words tried are above the lowest eighth. -/
theorem drawWithin_hits (h : Proper low high) (n : Nat) (s : Keystream) :
    (∃ k < n, Hits low high k s (drawWithin low high n s)) ∨
      ∀ i < n, 2 ^ 29 ≤ (Keystream.next^[i] s).word.toNat := by
  induction n generalizing s with
  | zero => exact .inr fun i hi => absurd hi (Nat.not_lt_zero i)
  | succ n ih =>
    rw [drawWithin_succ]
    by_cases hless : scaled low high s < high
    · rw [if_pos hless]
      exact .inl ⟨0, Nat.succ_pos n, .hit hless⟩
    · rw [if_neg hless]
      refine (ih s.next).imp (fun ⟨k, hk, hits⟩ => ⟨k + 1, Nat.succ_lt_succ hk, .miss hless hits⟩)
        fun hwords i hi => ?_
      cases i with
      | zero => exact Nat.le_of_not_lt (mt (scaled_lt_of_word h) hless)
      | succ i => exact hwords i (Nat.lt_of_succ_lt_succ hi)

/-- However often a draw is repeated, it ends within the range. -/
theorem drawWithin_mem (h : Proper low high) (n : Nat) (s : Keystream) :
    low ≤ (drawWithin low high n s).1 ∧ (drawWithin low high n s).1 < high := by
  induction n generalizing s with
  | zero =>
    have hlow := Nat.le_of_lt h.low_lt
    exact ⟨(le_iff_rank_le hlow hlow).mpr (Int.le_refl _), h.lt⟩
  | succ n ih =>
    obtain ⟨hu, hu'⟩ := isNonneg_fraction s.word
    rw [drawWithin_succ]
    split
    · rename_i hless
      exact ⟨h.low_le_scaled hu hu', hless⟩
    · exact ih s.next

end Grapevine.Chance
