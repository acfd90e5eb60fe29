import Grapevine.Proofs.Number.Packing
import Grapevine.Proofs.Number.Nearest

/-! Arithmetic is rounded to nearest.

A result is shifted until as many digits are left as a significand has, the digits that fall out
leaving a round bit and a sticky bit behind; rounded by these; and shifted once more if rounding
carried into a new digit. What is stored then is the nearest number (`packed_roundWithAccuracy`).
A sum, in particular, is the number that is nearest to the sum of what is added (`IsNearest`), so
that a larger sum is never stored as a smaller number. -/
namespace Grapevine.Number.Single

open Float.Model Float.Model.UnpackedFloat

variable {x y z : Float32} {p q m : Nat} {s t : Sign} {e n n' : Int}

/-! ### Shifts -/

/-- Digits, none of which has fallen out yet. -/
def exactly (m : Nat) : ExtendedMantissa := .ofMantissaAndAccuracy m .exact

theorem shiftRight_succ (em : ExtendedMantissa) (k : Nat) :
    em >>> (k + 1) = (em >>> k).shiftRightOne := rfl

/-- After a shift, the round bit tells whether at least half a step fell out, and the sticky bit
whether something else did. -/
theorem exactly_shiftRight (m k : Nat) :
    exactly m >>> k =
      ⟨m / 2 ^ k, decide (2 ^ k ≤ 2 * (m % 2 ^ k)), decide (2 * (m % 2 ^ k) % 2 ^ k ≠ 0)⟩ := by
  induction k with
  | zero =>
    show exactly m = _
    simp [exactly, ExtendedMantissa.ofMantissaAndAccuracy, Nat.mod_one]
  | succ k ih =>
    have hpos : 0 < 2 ^ k := Nat.two_pow_pos k
    have hpow : 2 ^ (k + 1) = 2 ^ k * 2 := Nat.pow_succ ..
    have hrest : m % 2 ^ (k + 1) = m % 2 ^ k + 2 ^ k * (m / 2 ^ k % 2) := by
      rw [hpow, Nat.mod_mul]
    have hlt : m % 2 ^ k < 2 ^ k := Nat.mod_lt _ hpos
    rw [shiftRight_succ, ih, ExtendedMantissa.shiftRightOne, ExtendedMantissa.mk.injEq]
    generalize hr : m % 2 ^ k = r at *
    refine ⟨?_, ?_, ?_⟩
    · rw [hpow, Nat.div_div_eq_div_mul]
    · rcases Nat.mod_two_eq_zero_or_one (m / 2 ^ k) with hbit | hbit
      · rw [hrest, hbit, hpow]
        simp
        omega
      · rw [hrest, hbit, hpow]
        simp
        omega
    · have htwice : 2 * (m % 2 ^ (k + 1)) % 2 ^ (k + 1) = 2 * r := by
        rw [hrest, hpow, Nat.mul_add, ← Nat.mul_assoc, Nat.mul_comm 2 (2 ^ k),
          Nat.add_mul_mod_self_left, Nat.mod_eq_of_lt (by omega)]
      rw [htwice, ← Bool.decide_or, decide_eq_decide]
      rcases Nat.lt_or_ge (2 * r) (2 ^ k) with hless | hmore
      · rw [Nat.mod_eq_of_lt hless]
        omega
      · omega

/-- A shift rounds up from more than half a step, and from half a step to an even significand. -/
theorem roundedMantissa_shiftRight (m k : Nat) :
    (exactly m >>> k).roundedMantissa =
      if 2 ^ k < 2 * (m % 2 ^ k) ∨ (2 ^ k = 2 * (m % 2 ^ k) ∧ m / 2 ^ k % 2 = 1)
      then m / 2 ^ k + 1 else m / 2 ^ k := by
  have hlt : m % 2 ^ k < 2 ^ k := Nat.mod_lt _ (Nat.two_pow_pos k)
  rw [exactly_shiftRight, ExtendedMantissa.roundedMantissa]
  generalize m % 2 ^ k = r at *
  generalize m / 2 ^ k = quot
  rcases Nat.lt_or_ge (2 * r) (2 ^ k) with hless | hmore
  · rw [decide_eq_false (Nat.not_le.mpr hless), if_neg (by omega)]
    cases decide (2 * r % 2 ^ k ≠ 0) <;> rfl
  · have hmod : 2 * r % 2 ^ k = 2 * r - 2 ^ k := by
      rw [Nat.mod_eq_sub_mod hmore, Nat.mod_eq_of_lt (by omega)]
    rw [decide_eq_true hmore, hmod]
    rcases Nat.eq_or_lt_of_le hmore with heq | hless
    · rw [decide_eq_false (by omega)]
      show quot + quot % 2 = _
      split <;> omega
    · rw [decide_eq_true (by omega), if_pos (.inl hless)]
      rfl

theorem log2_mul_two_pow_div (hm : 0 < m) (c d : Nat) :
    (m * 2 ^ c / 2 ^ d).log2 = m.log2 + c - d := by
  have hlow : 2 ^ m.log2 ≤ m := Nat.log2_self_le (Nat.ne_of_gt hm)
  have hhigh : m < 2 ^ (m.log2 + 1) := Nat.lt_log2_self
  rcases Nat.lt_or_ge (m.log2 + c) d with hless | hmore
  · have hzero : m * 2 ^ c / 2 ^ d = 0 := by
      apply Nat.div_eq_of_lt
      calc m * 2 ^ c < 2 ^ (m.log2 + 1) * 2 ^ c :=
            Nat.mul_lt_mul_of_pos_right hhigh (Nat.two_pow_pos c)
        _ = 2 ^ (m.log2 + 1 + c) := (Nat.pow_add ..).symm
        _ ≤ 2 ^ d := Nat.pow_le_pow_right Nat.two_pos (by omega)
    rw [hzero, Nat.log2_zero]
    omega
  · have hpow : ∀ j, d ≤ j → 2 ^ (j - d) * 2 ^ d = 2 ^ j := by
      intro j hj
      rw [← Nat.pow_add, Nat.sub_add_cancel hj]
    have hle : 2 ^ (m.log2 + c - d) ≤ m * 2 ^ c / 2 ^ d := by
      rw [Nat.le_div_iff_mul_le (Nat.two_pow_pos d), hpow _ hmore, Nat.pow_add]
      exact Nat.mul_le_mul_right _ hlow
    have hlt : m * 2 ^ c / 2 ^ d < 2 ^ (m.log2 + c - d + 1) := by
      have hsucc : m.log2 + c - d + 1 = m.log2 + 1 + c - d := by omega
      rw [Nat.div_lt_iff_lt_mul (Nat.two_pow_pos d), hsucc, hpow _ (by omega), Nat.pow_add]
      exact Nat.mul_lt_mul_of_pos_right hhigh (Nat.two_pow_pos c)
    have hne : m * 2 ^ c / 2 ^ d ≠ 0 := Nat.ne_of_gt (Nat.lt_of_lt_of_le (Nat.two_pow_pos _) hle)
    have := (Nat.le_log2 hne).mpr hle
    have := (Nat.log2_lt hne).mpr hlt
    omega

/-! ### Rounding -/

/-- The exponent of the last digit that is kept. -/
def target (m : Nat) (e : Int) : Int := Format.binary32.targetExponent (totalExponent m e)

theorem target_eq (m : Nat) (e : Int) : target m e = max (m.log2 + 1 + e - 24) (-149) := rfl

/-- What is stored of a rounded significand: rounding may have carried into a new digit. -/
def settled (s : Sign) (r : Nat) (e : Int) : UnpackedFloat :=
  if h : (exactly r >>> (target r e - e).toNat).mantissa = 0 then .zero s
  else .finite s (exactly r >>> (target r e - e).toNat).mantissa (e + (target r e - e).toNat)
    (Nat.pos_of_ne_zero h)

theorem roundWithAccuracy_exact (s : Sign) (m : Nat) (e : Int) :
    roundWithAccuracy .binary32 s m e .exact =
      settled s (exactly m >>> (target m e - e).toNat).roundedMantissa
        (e + (target m e - e).toNat) := rfl

theorem settled_eq {r k d : Nat} {e' : Int} (hk : (target r e - e).toNat = k)
    (hd : r / 2 ^ k = d) (he : e + k = e') (hpos : 0 < d) :
    settled s r e = .finite s d e' hpos := by
  subst hk hd he
  have hmantissa : (exactly r >>> (target r e - e).toNat).mantissa =
      r / 2 ^ (target r e - e).toNat := by rw [exactly_shiftRight]
  rw [settled, dif_neg (by omega)]
  exact finite_congr _ _ hmantissa rfl

/-- A significand that rounding has carried into a new digit is put together as well. -/
theorem packed_settled {r b : Nat} (hr : r ≤ 2 ^ 24) (hb : b = 0 ∨ 2 ^ 23 ≤ r) :
    packed (settled s r (b - 149)) = ofPattern (signBit s) (b * 2 ^ 23 + r) := by
  rcases Nat.eq_zero_or_pos r with rfl | hpos
  · have hzero : settled s 0 (b - 149) = .zero s := by
      rw [settled, dif_pos (by rw [exactly_shiftRight, Nat.zero_div])]
    rw [hzero, packed_zero]
    congr 1
    omega
  rcases Nat.eq_or_lt_of_le hr with htop | hlt
  · -- the carry leaves half the significand, one exponent higher
    have hk : (target r (b - 149) - (b - 149)).toNat = 1 := by
      rw [target_eq, htop, Nat.log2_two_pow]
      omega
    have hhalf : r / 2 ^ 1 = 2 ^ 23 := by omega
    have hexponent : (b : Int) - 149 + (1 : Nat) = (b + 1 : Nat) - 149 := by omega
    have hsum : (b + 1) * 2 ^ 23 + 2 ^ 23 = b * 2 ^ 23 + r := by omega
    rw [settled_eq hk hhalf hexponent (Nat.two_pow_pos 23),
      packed_finite _ (by decide) (.inr (Nat.le_refl _)), hsum]
  · have hk : (target r (b - 149) - (b - 149)).toNat = 0 := by
      have hlog := (Nat.log2_lt (Nat.ne_of_gt hpos)).mpr hlt
      rw [target_eq]
      omega
    rw [settled_eq hk (Nat.div_one r) (Int.add_zero _) hpos, packed_finite hpos hlt hb]

/-- The steps of the binade that a shift ends in are those between the significands it leaves. -/
theorem nearest_of_shift {k c d : Nat}
    (h : Binary.binade format (m * 2 ^ c) (2 ^ d) + d = k + c) :
    Binary.nearest format (m * 2 ^ c) (2 ^ d) =
      min (Binary.binade format (m * 2 ^ c) (2 ^ d) * 2 ^ 23 +
        (exactly m >>> k).roundedMantissa) (Binary.infinity format) := by
  have hpos : 0 < 2 ^ c := Nat.two_pow_pos c
  have hstep : 2 ^ Binary.binade format (m * 2 ^ c) (2 ^ d) * 2 ^ d = 2 ^ k * 2 ^ c := by
    rw [← Nat.pow_add, h, Nat.pow_add]
  have hbelow : Binary.below format (m * 2 ^ c) (2 ^ d) =
      Binary.binade format (m * 2 ^ c) (2 ^ d) * 2 ^ 23 + m / 2 ^ k := by
    rw [Binary.below, hstep, Nat.mul_div_mul_right _ _ hpos]
  have hodd : Binary.below format (m * 2 ^ c) (2 ^ d) % 2 = m / 2 ^ k % 2 := by omega
  have hups : Binary.RoundsUp format (m * 2 ^ c) (2 ^ d) ↔
      2 ^ k < 2 * (m % 2 ^ k) ∨ (2 ^ k = 2 * (m % 2 ^ k) ∧ m / 2 ^ k % 2 = 1) := by
    rw [Binary.RoundsUp, hstep, Nat.mul_mod_mul_right, ← Nat.mul_assoc 2,
      Nat.mul_lt_mul_right hpos, Nat.mul_left_inj (Nat.ne_of_gt hpos), hodd]
  rw [Binary.nearest_eq, roundedMantissa_shiftRight, hbelow]
  simp only [hups]
  congr 1
  split <;> omega

/-- **What is stored of an exact result is the number nearest to it.** -/
theorem packed_roundWithAccuracy (hm : 0 < m) (he : e ≤ target m e) :
    packed (roundWithAccuracy .binary32 s m e .exact) =
      ofPattern (signBit s)
        (Binary.nearest format (m * 2 ^ (e + 149).toNat) (2 ^ (-(e + 149)).toNat)) := by
  obtain ⟨k, hk⟩ := Int.eq_ofNat_of_zero_le (Int.sub_nonneg.mpr he)
  have hmantissa : format.mantissaBitsWithoutImplicit = 23 := rfl
  generalize hc : (e + 149).toNat = c
  generalize hd : (-(e + 149)).toNat = d
  generalize hb : Binary.binade format (m * 2 ^ c) (2 ^ d) = b
  have htarget := target_eq m e
  have hbinade : (b : Int) = target m e + 149 := by
    rw [← hb, Binary.binade, log2_mul_two_pow_div hm, hmantissa]
    omega
  have hshift : b + d = k + c := by omega
  have hstep : m * 2 ^ c / (2 ^ b * 2 ^ d) = m / 2 ^ k := by
    rw [← Nat.pow_add, hshift, Nat.pow_add, Nat.mul_div_mul_right _ _ (Nat.two_pow_pos c)]
  have hlt := Binary.div_step_lt format (m * 2 ^ c) (2 ^ d)
  have hle := Binary.le_div_step format (m * 2 ^ c) (2 ^ d)
  rw [hb, hstep, hmantissa] at hlt hle
  have hrounded := roundedMantissa_shiftRight m k
  have hexponent : e + (k : Nat) = b - 149 := by omega
  rw [nearest_of_shift (hb.symm ▸ hshift), hb, ofPattern_min, roundWithAccuracy_exact, hk,
    Int.toNat_natCast, hexponent]
  generalize (exactly m >>> k).roundedMantissa = r at *
  apply packed_settled <;> split at hrounded <;> omega

/-- A result with no digit below the last place is the number nearest to it in units. -/
theorem packed_round (hm : 0 < m) (he : -149 ≤ e) :
    packed (UnpackedFloat.round .binary32 s m e) =
      ofPattern (signBit s) (Binary.nearest format (m * 2 ^ (e + 149).toNat) 1) := by
  obtain ⟨k, hk⟩ : ∃ k, (e - target m e).toNat = k := ⟨_, rfl⟩
  have hround : UnpackedFloat.round .binary32 s m e =
      roundWithAccuracy .binary32 s (m <<< (e - target m e).toNat)
        (e - (e - target m e).toNat) .exact := rfl
  have hlog : (m * 2 ^ k).log2 = m.log2 + k := by
    have hdiv := log2_mul_two_pow_div hm k 0
    rwa [Nat.pow_zero, Nat.div_one, Nat.sub_zero] at hdiv
  have htarget := target_eq m e
  have htarget' := target_eq (m * 2 ^ k) (e - k)
  have hplaces : (e - k + 149).toNat + k = (e + 149).toNat := by omega
  have hnone : (-(e - k + 149)).toNat = 0 := by omega
  rw [hround, hk, Nat.shiftLeft_eq,
    packed_roundWithAccuracy (Nat.mul_pos hm (Nat.two_pow_pos k)) (by omega), hnone, Nat.pow_zero,
    Nat.mul_assoc, ← Nat.pow_add, Nat.add_comm k, hplaces]

/-! ### Sums -/

/-- What a number stands for, in units of the last place of the least numbers. -/
def value (x : Float32) : Int := (signOf (negative x)).apply (Binary.units format (pattern x))

/-- The rank of the number nearest to so many units. -/
def nearestRank (n : Int) : Int :=
  if n < 0 then -(Binary.nearest format n.natAbs 1 : Int) else Binary.nearest format n.natAbs 1

/-- A number is stored for so many units. -/
structure IsNearest (n : Int) (z : Float32) : Prop where
  pattern_le : pattern z ≤ Binary.infinity format
  rank_eq : rank z = nearestRank n

/-- A larger sum is never stored as a smaller number. -/
theorem nearestRank_mono (h : n ≤ n') : nearestRank n ≤ nearestRank n' := by
  have hmono : ∀ {a b : Nat}, a ≤ b → Binary.nearest format a 1 ≤ Binary.nearest format b 1 :=
    Binary.nearest_mono format 1
  simp only [nearestRank]
  split <;> split
  · have := hmono (show n'.natAbs ≤ n.natAbs by omega)
    omega
  · omega
  · omega
  · have := hmono (show n.natAbs ≤ n'.natAbs by omega)
    omega

theorem nearestRank_zero : nearestRank 0 = 0 := rfl

theorem nearestRank_apply_units (s : Sign) (hp : p ≤ Binary.infinity format) :
    nearestRank (s.apply (Binary.units format p)) = s.apply p := by
  have hzero : Binary.units format 0 = 0 := Binary.units_of_lt format (by decide)
  have hnearest := Binary.nearest_units format hp
  cases s with
  | negative =>
    simp only [nearestRank, Sign.apply, Int.natAbs_neg, Int.natAbs_natCast, hnearest]
    split
    · rfl
    · have hnone : Binary.units format p = 0 := by omega
      rw [hnone, Binary.nearest_zero] at hnearest
      omega
  | positive =>
    simp only [nearestRank, Sign.apply, Int.natAbs_natCast, hnearest]
    split
    · omega
    · rfl

theorem isNearest_value (hx : pattern x ≤ Binary.infinity format) : IsNearest (value x) x :=
  ⟨hx, (nearestRank_apply_units _ hx).symm⟩

theorem value_le_value (h : rank x ≤ rank y) : value x ≤ value y := by
  have hzero : Binary.units format 0 = 0 := Binary.units_of_lt format (by decide)
  have hmono := Binary.units_mono format
  rw [rank, rank] at h
  rw [value, value]
  generalize signOf (negative x) = s at *
  generalize signOf (negative y) = t at *
  cases s <;> cases t <;> simp only [Sign.apply] at *
  · have := hmono (show pattern y ≤ pattern x by omega)
    omega
  · omega
  · have hx : pattern x = 0 := by omega
    have hy : pattern y = 0 := by omega
    rw [hx, hy, hzero]
    decide
  · have := hmono (show pattern x ≤ pattern y by omega)
    omega

theorem value_lt_value (hx : pattern x ≤ Binary.infinity format)
    (hy : pattern y ≤ Binary.infinity format) (h : rank x < rank y) : value x < value y := by
  by_contra hge
  have hmono := nearestRank_mono (Int.not_lt.mp hge)
  rw [← (isNearest_value hx).rank_eq, ← (isNearest_value hy).rank_eq] at hmono
  omega

theorem isNearest_ofPattern (n : Int) :
    IsNearest n (ofPattern (decide (n < 0)) (Binary.nearest format n.natAbs 1)) where
  pattern_le := by
    rw [pattern_ofPattern _ (Binary.nearest_le_infinity ..)]
    exact Binary.nearest_le_infinity ..
  rank_eq := by
    rw [rank_ofPattern _ (Binary.nearest_le_infinity ..), nearestRank]
    by_cases h : n < 0
    · rw [decide_eq_true h, if_pos h]
      rfl
    · rw [decide_eq_false h, if_neg h]
      rfl

theorem value_ofPattern (negative : Bool) (hp : p ≤ Binary.infinity format) :
    value (ofPattern negative p) = (signOf negative).apply (Binary.units format p) := by
  rw [value, pattern_ofPattern _ hp, negative_ofPattern _ hp]

theorem IsNearest.value_eq (h : IsNearest n x) :
    value x = (signOf (decide (n < 0))).apply
      (Binary.units format (Binary.nearest format n.natAbs 1)) := by
  have hrank := h.rank_eq.trans (isNearest_ofPattern n).rank_eq.symm
  rw [← value_ofPattern _ (Binary.nearest_le_infinity ..)]
  exact Int.le_antisymm (value_le_value hrank.le) (value_le_value hrank.ge)

/-- **A result is not stored beyond its midpoint with a lesser number.** -/
theorem IsNearest.value_add_le (h : IsNearest n x) (hy : pattern y ≤ Binary.infinity format)
    (hlt : rank y < rank x) : value y + value x ≤ 2 * n := by
  have hzero : Binary.units format 0 = 0 := Binary.units_of_lt format (by decide)
  have hup : ∀ {p : Nat}, p < Binary.nearest format n.natAbs 1 →
      Binary.units format p + Binary.units format (Binary.nearest format n.natAbs 1) ≤
        2 * n.natAbs :=
    fun hp => Nat.mul_one (_ + _) ▸ Binary.units_add_nearest_le format hp
  have hdown : Binary.nearest format n.natAbs 1 < pattern y →
      2 * n.natAbs ≤
        Binary.units format (Binary.nearest format n.natAbs 1) + Binary.units format (pattern y) :=
    fun hp => Nat.mul_one (_ + _) ▸ Binary.le_units_add_nearest format Nat.one_pos hy hp
  rw [h.rank_eq, nearestRank, rank] at hlt
  rw [h.value_eq, value]
  generalize Binary.nearest format n.natAbs 1 = q at *
  generalize signOf (negative y) = t at *
  by_cases hn : n < 0
  · rw [if_pos hn] at hlt
    rw [decide_eq_true hn]
    cases t with
    | negative =>
      simp only [Sign.apply, signOf, if_true] at *
      have := hdown (by omega)
      omega
    | positive =>
      simp only [Sign.apply] at hlt
      omega
  · rw [if_neg hn] at hlt
    rw [decide_eq_false hn]
    cases t with
    | negative =>
      simp only [Sign.apply, signOf, Bool.false_eq_true, if_false] at *
      rcases Nat.eq_zero_or_pos q with rfl | hpos
      · omega
      · have := hup hpos
        omega
    | positive =>
      simp only [Sign.apply, signOf, Bool.false_eq_true, if_false] at *
      have := hup (p := pattern y) (by omega)
      omega

theorem isNearest_signed (s : Sign) (hp : p ≤ Binary.infinity format) :
    IsNearest (s.apply (Binary.units format p)) (ofPattern (signBit s) p) where
  pattern_le := by rwa [pattern_ofPattern _ hp]
  rank_eq := by rw [rank_ofPattern _ hp, signOf_signBit, nearestRank_apply_units s hp]

theorem apply_units_zero (s : Sign) : s.apply (Binary.units format 0) = 0 := by
  rw [Binary.units_of_lt format (by decide)]
  cases s <;> rfl

theorem isNearest_zero (s : Sign) : IsNearest 0 (packed (.zero s)) := by
  rw [packed_zero, ← apply_units_zero s]
  exact isNearest_signed s (Nat.zero_le _)

/-- A pattern stands for its significand, shifted to its exponent. -/
theorem units_eq (p : Nat) :
    Binary.units format p = significand p * 2 ^ (exponent p + 149).toNat := by
  have hshift : (exponent p + 149).toNat = p / 2 ^ 23 - 1 := by
    rw [exponent]
    omega
  rw [hshift, significand]
  split
  · rename_i hlt
    have hnone : p / 2 ^ 23 - 1 = 0 := by omega
    rw [hnone, Nat.pow_zero, Nat.mul_one, Binary.units_of_lt format hlt]
  · have hsplit : p = 2 ^ 23 * (p / 2 ^ 23 - 1 + 1) + p % 2 ^ 23 := by omega
    have hbinade := Binary.units_binade format (p / 2 ^ 23 - 1) (Nat.mod_lt p (Nat.two_pow_pos 23))
    exact (congrArg (Binary.units format) hsplit).trans hbinade

/-- Whole digits are put together for the units they stand for. -/
theorem isNearest_normalize (he : -149 ≤ e) (zeroSign : Sign) :
    IsNearest (n * 2 ^ (e + 149).toNat)
      (packed (UnpackedFloat.normalize .binary32 n e zeroSign)) := by
  have hpow : (0 : Int) < 2 ^ (e + 149).toNat := Int.pow_pos (by decide)
  have hunits : (n * 2 ^ (e + 149).toNat).natAbs = n.natAbs * 2 ^ (e + 149).toNat := by
    rw [Int.natAbs_mul, Int.natAbs_pow]
    rfl
  have hnearest := isNearest_ofPattern (n * 2 ^ (e + 149).toNat)
  rw [hunits] at hnearest
  unfold UnpackedFloat.normalize
  split
  · rename_i h
    have hneg : n < 0 := compare_lt_iff_lt.mp h
    have habs : (-n).toNat = n.natAbs := by omega
    rw [decide_eq_true (Int.mul_neg_of_neg_of_pos hneg hpow)] at hnearest
    rw [packed_round (by omega) he, habs]
    exact hnearest
  · rename_i h
    have hzero : n = 0 := compare_eq_iff_eq.mp h
    rw [hzero, Int.zero_mul]
    exact isNearest_zero zeroSign
  · rename_i h
    have hpos : 0 < n := compare_gt_iff_gt.mp h
    have habs : n.toNat = n.natAbs := by omega
    have hnot : ¬ n * 2 ^ (e + 149).toNat < 0 :=
      Int.not_lt.mpr (Int.le_of_lt (Int.mul_pos hpos hpow))
    rw [decide_eq_false hnot] at hnearest
    rw [packed_round (by omega) he, habs]
    exact hnearest

theorem apply_shiftLeft_mul {e' : Int} (s : Sign) (m : Nat) (he : -149 ≤ e) (h : e ≤ e') :
    s.apply (m <<< (e' - e).toNat : Nat) * 2 ^ (e + 149).toNat =
      s.apply (m * 2 ^ (e' + 149).toNat : Nat) := by
  have hplaces : (e' + 149).toNat = (e' - e).toNat + (e + 149).toNat := by omega
  rw [Nat.shiftLeft_eq, hplaces, Nat.pow_add, ← Nat.mul_assoc]
  cases s <;> simp [Sign.apply]

theorem Unpacks.isNearest {u : UnpackedFloat} (hu : Unpacks s p u)
    (hp : p ≤ Binary.infinity format) :
    IsNearest (s.apply (Binary.units format p)) (packed u) := by
  rw [hu.packed_eq]
  exact isNearest_signed s hp

/-- Unpacked numbers are added to the number nearest to their sum. -/
theorem Unpacks.isNearest_add {u v : UnpackedFloat} (hu : Unpacks s p u) (hv : Unpacks t q v)
    (hp : p < Binary.infinity format) (hq : q < Binary.infinity format) :
    IsNearest (s.apply (Binary.units format p) + t.apply (Binary.units format q))
      (packed (UnpackedFloat.add .binary32 u v)) := by
  cases hu with
  | infinity => exact absurd hp (Nat.lt_irrefl _)
  | zero =>
    rw [apply_units_zero, Int.zero_add]
    cases hv with
    | infinity => exact absurd hq (Nat.lt_irrefl _)
    | zero =>
      rw [apply_units_zero]
      show IsNearest 0 (packed (if s == t then .zero s else .zero .positive))
      split
      · exact isNearest_zero s
      · exact isNearest_zero .positive
    | finite hpos hlt =>
      exact (Unpacks.finite hpos hlt).isNearest (Nat.le_of_lt hlt)
  | finite hpos hlt =>
    cases hv with
    | infinity => exact absurd hq (Nat.lt_irrefl _)
    | zero =>
      rw [apply_units_zero, Int.add_zero]
      exact (Unpacks.finite hpos hlt).isNearest (Nat.le_of_lt hlt)
    | finite hpos' hlt' =>
      have hleast : -149 ≤ min (exponent p) (exponent q) :=
        Int.le_min.mpr ⟨exponent_ge p, exponent_ge q⟩
      have hsum := isNearest_normalize (n := s.apply (significand p <<<
          (exponent p - min (exponent p) (exponent q)).toNat) + t.apply (significand q <<<
          (exponent q - min (exponent p) (exponent q)).toNat)) hleast .positive
      rw [Int.add_mul, apply_shiftLeft_mul s _ hleast (Int.min_le_left ..),
        apply_shiftLeft_mul t _ hleast (Int.min_le_right ..), ← units_eq, ← units_eq] at hsum
      exact hsum

/-- **A sum is the number nearest to what its parts stand for together.** -/
theorem isNearest_add (hx : pattern x < Binary.infinity format)
    (hy : pattern y < Binary.infinity format) : IsNearest (value x + value y) (x + y) := by
  have hsum : x + y = packed (UnpackedFloat.add .binary32 x.toModel.unpack y.toModel.unpack) := rfl
  rw [hsum, unpack_eq, unpack_eq]
  exact (unpacks _ (Nat.le_of_lt hx)).isNearest_add (unpacks _ (Nat.le_of_lt hy)) hx hy

theorem Unpacks.neg {u : UnpackedFloat} (hu : Unpacks s p u) : Unpacks (-s) p u.neg := by
  cases hu with
  | zero => exact .zero
  | finite hpos hlt => exact .finite hpos hlt
  | infinity => exact .infinity

theorem neg_apply (s : Sign) (k : Nat) : (-s).apply k = -s.apply k := by
  cases s with
  | negative => exact (Int.neg_neg _).symm
  | positive => rfl

theorem sub_eq_add (u v : UnpackedFloat) :
    UnpackedFloat.sub .binary32 u v = UnpackedFloat.add .binary32 u v.neg := by
  cases u with
  | finite s m e =>
    cases v with
    | finite t =>
      simp only [UnpackedFloat.sub, UnpackedFloat.add, UnpackedFloat.neg, neg_apply,
        Int.sub_eq_add_neg]
    | _ => rfl
  | _ => cases v <;> rfl

/-- A difference is the number nearest to what lies between the two. -/
theorem isNearest_sub (hx : pattern x < Binary.infinity format)
    (hy : pattern y < Binary.infinity format) : IsNearest (value x - value y) (x - y) := by
  have hdifference : x - y =
      packed (UnpackedFloat.sub .binary32 x.toModel.unpack y.toModel.unpack) := rfl
  rw [hdifference, sub_eq_add, unpack_eq, unpack_eq, Int.sub_eq_add_neg, value, value,
    ← neg_apply]
  exact (unpacks _ (Nat.le_of_lt hx)).isNearest_add (unpacks _ (Nat.le_of_lt hy)).neg hx hy

/-- A difference is stored as at most twice what it is. -/
theorem value_sub_le (hx : pattern x < Binary.infinity format)
    (hy : pattern y < Binary.infinity format) (h : rank y ≤ rank x) :
    value (x - y) ≤ 2 * (value x - value y) := by
  have hzero : value 0 = 0 ∧ rank 0 = 0 ∧ pattern 0 ≤ Binary.infinity format := by decide
  have hvalue := value_le_value h
  rcases Int.lt_or_le 0 (rank (x - y)) with hpos | hnone
  · have hmidpoint := (isNearest_sub hx hy).value_add_le hzero.2.2 (hzero.2.1 ▸ hpos)
    omega
  · have hle := value_le_value (hnone.trans hzero.2.1.ge)
    omega

/-! ### Signs -/

/-- What is at least zero. -/
structure IsNonneg (x : Float32) : Prop where
  pattern_le : pattern x ≤ Binary.infinity format
  rank_nonneg : 0 ≤ rank x

theorem eq_positive_of_rank (h : 0 ≤ s.apply p) (hp : p ≠ 0) : s = .positive := by
  cases s with
  | negative =>
    simp only [Sign.apply] at h
    omega
  | positive => rfl

theorem IsNonneg.rank_eq (hx : IsNonneg x) : rank x = pattern x := by
  have hrank := hx.rank_nonneg
  rw [rank] at *
  rcases Nat.eq_zero_or_pos (pattern x) with hzero | hpos
  · rw [hzero]
    cases signOf (negative x) <;> rfl
  · rw [eq_positive_of_rank hrank (Nat.ne_of_gt hpos)]
    rfl

theorem IsNonneg.value_eq (hx : IsNonneg x) :
    value x = (Binary.units format (pattern x) : Int) := by
  have hrank := hx.rank_nonneg
  rw [rank] at hrank
  rw [value]
  rcases Nat.eq_zero_or_pos (pattern x) with hzero | hpos
  · rw [hzero, apply_units_zero, Binary.units_of_lt format (by decide)]
    rfl
  · rw [eq_positive_of_rank hrank (Nat.ne_of_gt hpos)]
    rfl

theorem IsNonneg.value_nonneg (hx : IsNonneg x) : 0 ≤ value x := by
  rw [hx.value_eq]
  exact Int.natCast_nonneg _

/-- What is taken from a number that is not less leaves at least zero. -/
theorem isNonneg_sub (hx : pattern x < Binary.infinity format)
    (hy : pattern y < Binary.infinity format) (h : rank y ≤ rank x) : IsNonneg (x - y) := by
  have hnearest := isNearest_sub hx hy
  have hvalue := value_le_value h
  refine ⟨hnearest.pattern_le, ?_⟩
  rw [hnearest.rank_eq, ← nearestRank_zero]
  exact nearestRank_mono (by omega)

theorem le_target_mul (hp : p ≠ 0) (hq : q ≠ 0) :
    exponent p + exponent q ≤
      target (significand p * significand q) (exponent p + exponent q) := by
  have hlog : ∀ {a b : Nat}, 2 ^ 23 ≤ a → 0 < b → 23 ≤ (a * b).log2 := by
    intro a b ha hb
    have hle : a ≤ a * b := Nat.le_mul_of_pos_right a hb
    exact (Nat.le_log2 (by omega)).mpr (by omega)
  have hlead : ∀ p, exponent p = -149 ∨ 2 ^ 23 ≤ significand p := by
    intro p
    rw [exponent]
    exact (leads p).imp_left (by omega)
  have hp := significand_pos hp
  have hq := significand_pos hq
  rw [target_eq]
  rcases hlead p with hp' | hp'
  · rcases hlead q with hq' | hq'
    · omega
    · have := hlog hq' hp
      rw [Nat.mul_comm] at this
      omega
  · have := hlog hp' hq
    omega

/-- **A product is the number nearest to the product of the significands.** -/
theorem mul_eq_ofPattern (hx : pattern x < Binary.infinity format)
    (hy : pattern y < Binary.infinity format) :
    x * y = ofPattern (signBit (signOf (negative x) * signOf (negative y)))
      (Binary.nearest format (significand (pattern x) * significand (pattern y) *
          2 ^ (exponent (pattern x) + exponent (pattern y) + 149).toNat)
        (2 ^ (-(exponent (pattern x) + exponent (pattern y) + 149)).toNat)) := by
  have hproduct : x * y = packed (UnpackedFloat.mul .binary32 x.toModel.unpack y.toModel.unpack) :=
    rfl
  rw [hproduct, unpack_eq, unpack_eq]
  generalize signOf (negative x) = s
  generalize signOf (negative y) = t
  rcases Nat.eq_zero_or_pos (pattern x) with hzero | hpos
  · rw [hzero, unpacked_zero, significand_zero, Nat.zero_mul, Nat.zero_mul, Binary.nearest_zero,
      ← packed_zero]
    rcases Nat.eq_zero_or_pos (pattern y) with hzero' | hpos'
    · rw [hzero', unpacked_zero]
      rfl
    · rw [unpacked_finite (Nat.ne_of_gt hpos') hy]
      rfl
  · rw [unpacked_finite (Nat.ne_of_gt hpos) hx]
    rcases Nat.eq_zero_or_pos (pattern y) with hzero' | hpos'
    · rw [hzero', unpacked_zero, significand_zero, Nat.mul_zero, Nat.zero_mul, Binary.nearest_zero,
        ← packed_zero]
      rfl
    · rw [unpacked_finite (Nat.ne_of_gt hpos') hy]
      exact packed_roundWithAccuracy
        (Nat.mul_pos (significand_pos (Nat.ne_of_gt hpos)) (significand_pos (Nat.ne_of_gt hpos')))
        (le_target_mul (Nat.ne_of_gt hpos) (Nat.ne_of_gt hpos'))

/-- A product of what is at least zero is at least zero. -/
theorem isNonneg_mul (hx : IsNonneg x) (hy : IsNonneg y)
    (hx' : pattern x < Binary.infinity format) (hy' : pattern y < Binary.infinity format) :
    IsNonneg (x * y) := by
  have hsx := hx.rank_nonneg
  have hsy := hy.rank_nonneg
  rw [rank] at hsx hsy
  have hle := Binary.nearest_le_infinity format
    (significand (pattern x) * significand (pattern y) *
      2 ^ (exponent (pattern x) + exponent (pattern y) + 149).toNat)
    (2 ^ (-(exponent (pattern x) + exponent (pattern y) + 149)).toNat)
  rw [mul_eq_ofPattern hx' hy']
  refine ⟨(pattern_ofPattern _ hle).trans_le hle, ?_⟩
  rw [rank_ofPattern _ hle, signOf_signBit]
  rcases Nat.eq_zero_or_pos (pattern x) with hzero | hpos
  · rw [hzero, significand_zero, Nat.zero_mul, Nat.zero_mul, Binary.nearest_zero]
    cases signOf (negative x) * signOf (negative y) <;> decide
  rcases Nat.eq_zero_or_pos (pattern y) with hzero' | hpos'
  · rw [hzero', significand_zero, Nat.mul_zero, Nat.zero_mul, Binary.nearest_zero]
    cases signOf (negative x) * signOf (negative y) <;> decide
  rw [eq_positive_of_rank hsx (Nat.ne_of_gt hpos), eq_positive_of_rank hsy (Nat.ne_of_gt hpos')]
  exact Int.natCast_nonneg _

/-- A product of what is at least zero is stored as at most twice the product. -/
theorem value_mul_le (hx : IsNonneg x) (hy : IsNonneg y) (hx' : pattern x < Binary.infinity format)
    (hy' : pattern y < Binary.infinity format) :
    value (x * y) * 2 ^ 149 ≤ 2 * (value x * value y) := by
  have hproduct := isNonneg_mul hx hy hx' hy'
  have hp := congrArg pattern (mul_eq_ofPattern hx' hy')
  rw [pattern_ofPattern _ (Binary.nearest_le_infinity ..)] at hp
  rw [hproduct.value_eq, hx.value_eq, hy.value_eq, units_eq (pattern x), units_eq (pattern y)]
  have hx := exponent_ge (pattern x)
  have hy := exponent_ge (pattern y)
  generalize significand (pattern x) = a at *
  generalize significand (pattern y) = b at *
  generalize exponent (pattern x) = i at *
  generalize exponent (pattern y) = j at *
  rcases Nat.eq_zero_or_pos (pattern (x * y)) with hzero | hpos
  · rw [hzero, Binary.units_of_lt format (by decide)]
    simp only [Nat.cast_zero, Int.zero_mul]
    positivity
  have hle := @Binary.units_add_nearest_le format (a * b * 2 ^ (i + j + 149).toNat)
    (2 ^ (-(i + j + 149)).toNat) 0 (hp ▸ hpos)
  rw [← hp, Binary.units_of_lt format (by decide), Nat.zero_add] at hle
  obtain ⟨k, hk⟩ : ∃ k, (-(i + j + 149)).toNat + k = 149 :=
    ⟨149 - (-(i + j + 149)).toNat, by omega⟩
  have hplaces : (i + j + 149).toNat + k = (i + 149).toNat + (j + 149).toNat := by omega
  have hscaled : Binary.units format (pattern (x * y)) * 2 ^ 149 ≤
      2 * (a * 2 ^ (i + 149).toNat * (b * 2 ^ (j + 149).toNat)) := by
    calc Binary.units format (pattern (x * y)) * 2 ^ 149
        = Binary.units format (pattern (x * y)) * 2 ^ (-(i + j + 149)).toNat * 2 ^ k := by
          rw [Nat.mul_assoc, ← Nat.pow_add, hk]
      _ ≤ 2 * (a * b * 2 ^ (i + j + 149).toNat) * 2 ^ k := Nat.mul_le_mul_right _ hle
      _ = 2 * (a * b * 2 ^ ((i + j + 149).toNat + k)) := by
          rw [Nat.pow_add, Nat.mul_assoc 2, Nat.mul_assoc (a * b)]
      _ = 2 * (a * 2 ^ (i + 149).toNat * (b * 2 ^ (j + 149).toNat)) := by
          rw [hplaces, Nat.pow_add, Nat.mul_mul_mul_comm]
  exact_mod_cast hscaled

theorem rank_le_infinity (hy : pattern y ≤ Binary.infinity format) :
    rank y ≤ Binary.infinity format := by
  rw [rank]
  cases signOf (negative y) <;> simp only [Sign.apply] <;> omega

/-- To an infinite number, a finite one adds nothing. -/
theorem infinity_add (s : Sign) {v : UnpackedFloat} (hv : Unpacks t q v)
    (hq : q < Binary.infinity format) :
    UnpackedFloat.add .binary32 (.infinity s) v = .infinity s := by
  cases hv with
  | zero => rfl
  | finite => rfl
  | infinity => exact absurd hq (Nat.lt_irrefl _)

/-- **What is at least zero makes no number smaller**, though rounding may make it no larger. -/
theorem rank_le_rank_add (hx : IsNonneg x) (hy : pattern y < Binary.infinity format) :
    pattern (x + y) ≤ Binary.infinity format ∧ rank y ≤ rank (x + y) := by
  have hrank := hx.rank_nonneg
  rw [rank] at hrank
  rcases Nat.eq_or_lt_of_le hx.pattern_le with hinfinity | hfinite
  · have hsign : signOf (negative x) = .positive :=
      eq_positive_of_rank hrank (by rw [hinfinity]; decide)
    have hsum : x + y = ofPattern false (Binary.infinity format) := by
      have hadd : x + y =
          packed (UnpackedFloat.add .binary32 x.toModel.unpack y.toModel.unpack) := rfl
      have hunpack : unpacked .positive (Binary.infinity format) = .infinity .positive := rfl
      rw [hadd, unpack_eq, unpack_eq, hsign, hinfinity, hunpack,
        infinity_add _ (unpacks _ (Nat.le_of_lt hy)) hy, packed_infinity]
      rfl
    rw [hsum, pattern_ofPattern _ (Nat.le_refl _), rank_ofPattern _ (Nat.le_refl _)]
    exact ⟨Nat.le_refl _, rank_le_infinity (Nat.le_of_lt hy)⟩
  · have hvalue := hx.value_nonneg
    have hnearest := isNearest_add hfinite hy
    refine ⟨hnearest.pattern_le, ?_⟩
    rw [hnearest.rank_eq, (isNearest_value (Nat.le_of_lt hy)).rank_eq]
    exact nearestRank_mono (by omega)

end Grapevine.Number.Single
