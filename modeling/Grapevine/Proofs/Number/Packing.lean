import Grapevine.Proofs.Number.Text

/-! What a stored number stands for.

The arithmetic of floating point takes numbers apart into a sign, a significand and an exponent, and
puts results together again. Here both are said of signs and patterns: `unpack_eq` and
`packed_finite`. Zeros aside, numbers are in the order of their patterns, which turns round
below zero (`rank`), so that comparisons are those of ranks (`le_iff_rank_le`, `lt_iff_rank_lt`). -/
namespace Grapevine.Number.Single

open Float.Model Float.Model.UnpackedFloat

variable {x y : Float32} {p q : Nat} {s : Sign}

/-! ### Taking apart -/

/-- The sign that a sign bit stands for. -/
def signOf (negative : Bool) : Sign := if negative then .negative else .positive

/-- The digits of a finite number, the leading one included if its exponent is not the least. -/
def significand (p : Nat) : Nat := if p < 2 ^ 23 then p else 2 ^ 23 + p % 2 ^ 23

/-- The exponent of the last of these digits. -/
def exponent (p : Nat) : Int := (p / 2 ^ 23 - 1 : Nat) - 149

theorem significand_pos (hp : p ≠ 0) : 0 < significand p := by
  rw [significand]
  split <;> omega

theorem significand_lt (p : Nat) : significand p < 2 ^ 24 := by
  rw [significand]
  split <;> omega

theorem significand_zero : significand 0 = 0 := rfl

theorem exponent_ge (p : Nat) : -149 ≤ exponent p := by
  rw [exponent]
  omega

/-- The leading digit is in its place, unless the exponent is the least. -/
theorem leads (p : Nat) : p / 2 ^ 23 - 1 = 0 ∨ 2 ^ 23 ≤ significand p := by
  rw [significand]
  split <;> omega

/-- What a sign and a pattern stand for. -/
def unpacked (s : Sign) (p : Nat) : UnpackedFloat :=
  if h : p = 0 then .zero s
  else if p < Binary.infinity format then .finite s (significand p) (exponent p) (significand_pos h)
  else if p = Binary.infinity format then .infinity s
  else .notANumber

theorem finite_congr {m m' : Nat} {e e' : Int} (h : 0 < m) (h' : 0 < m') (hm : m = m')
    (he : e = e') : UnpackedFloat.finite s m e h = .finite s m' e' h' := by
  subst hm he
  rfl

theorem unpacked_zero (s : Sign) : unpacked s 0 = .zero s := rfl

theorem unpacked_finite (hp : p ≠ 0) (hlt : p < Binary.infinity format) :
    unpacked s p = .finite s (significand p) (exponent p) (significand_pos hp) := by
  rw [unpacked, dif_neg hp, if_pos hlt]

theorem signOf_unpackSign (x : Float32) :
    Sign.ofBitVec (@unpackSign .binary32 x.toModel.toBits.toBitVec) =
      signOf (negative x) := by
  have hbits : x.toModel.toBits.toNat = x.toBits.toNat := rfl
  have hlt := x.toBits.toNat_lt
  have hsign : (@unpackSign .binary32 x.toModel.toBits.toBitVec).toNat =
      x.toBits.toNat / 2 ^ 31 := by
    simp [unpackSign, BitVec.extractLsb, Nat.shiftRight_eq_div_pow, hbits]
    omega
  rcases BitVec.eq_zero_or_eq_one (@unpackSign .binary32 x.toModel.toBits.toBitVec)
    with hzero | hone
  · have hneg : negative x = false := decide_eq_false (by rw [hzero] at hsign; simp at hsign; omega)
    rw [hzero, hneg]
    rfl
  · have hneg : negative x = true := decide_eq_true (by rw [hone] at hsign; simp at hsign; omega)
    rw [hone, hneg]
    rfl

theorem toNat_unpackMantissa (x : Float32) :
    (@unpackMantissa .binary32 x.toModel.toBits.toBitVec).toNat = pattern x % 2 ^ 23 := by
  have hbits : x.toModel.toBits.toNat = x.toBits.toNat := rfl
  simp [unpackMantissa, BitVec.extractLsb, pattern, hbits]

theorem toNat_unpackExponent (x : Float32) :
    (@unpackExponent .binary32 x.toModel.toBits.toBitVec).toNat = pattern x / 2 ^ 23 := by
  have hbits : x.toModel.toBits.toNat = x.toBits.toNat := rfl
  simp [unpackExponent, BitVec.extractLsb, Nat.shiftRight_eq_div_pow, pattern, hbits]
  omega

theorem unpackExponent_eq_iff (x : Float32) (e : BitVec 8) :
    @unpackExponent .binary32 x.toModel.toBits.toBitVec = e ↔ pattern x / 2 ^ 23 = e.toNat := by
  rw [← toNat_unpackExponent, BitVec.toNat_eq]

theorem unpackMantissa_eq_iff (x : Float32) (m : BitVec 23) :
    @unpackMantissa .binary32 x.toModel.toBits.toBitVec = m ↔ pattern x % 2 ^ 23 = m.toNat := by
  rw [← toNat_unpackMantissa, BitVec.toNat_eq]

/-- A significand with its leading digit in front. -/
theorem toNat_leading_append (x : Float32) (hp : pattern x / 2 ^ 23 ≠ 0) :
    (1#1 ++ @unpackMantissa .binary32 x.toModel.toBits.toBitVec).toNat =
      significand (pattern x) := by
  rw [BitVec.toNat_append, ← Nat.shiftLeft_add_eq_or_of_lt (BitVec.isLt _), toNat_unpackMantissa,
    significand, if_neg (by omega)]
  rfl

/-- A number unpacks to the significand and the exponent of its pattern. -/
theorem unpack_eq (x : Float32) :
    x.toModel.unpack = unpacked (signOf (negative x)) (pattern x) := by
  have hfull := unpackExponent_eq_iff x (-1#8)
  have hleast := unpackExponent_eq_iff x 0#8
  have hnone := unpackMantissa_eq_iff x 0#23
  have hinfinity : Binary.infinity format = 255 * 2 ^ 23 := infinity_eq
  change _ ↔ _ = 255 at hfull
  change _ ↔ _ = 0 at hleast hnone
  show UnpackedFloat.unpack .binary32 x.toModel.toBits.toBitVec = _
  unfold UnpackedFloat.unpack
  simp only [signOf_unpackSign]
  split
  · rename_i h
    rw [hfull] at h
    split
    · rename_i h'
      rw [hnone] at h'
      have hp : pattern x = Binary.infinity format := by omega
      rw [hp]
      rfl
    · rename_i h'
      rw [hnone] at h'
      rw [unpacked, dif_neg (by omega), if_neg (by omega), if_neg (by omega)]
  · rename_i h
    rw [hfull] at h
    have hlt : pattern x < Binary.infinity format := by
      have := x.toBits.toNat_lt
      rw [pattern] at *
      omega
    split
    · rename_i h'
      rw [hleast] at h'
      split
      · rename_i h''
        rw [hnone] at h''
        have hp : pattern x = 0 := by omega
        rw [hp, unpacked_zero]
      · rename_i h''
        rw [hnone] at h''
        rw [unpacked_finite (by omega) hlt]
        apply finite_congr
        · rw [toNat_unpackMantissa, significand, if_pos (by omega)]
          omega
        · rw [toNat_unpackExponent, exponent, h']
          rfl
    · rename_i h'
      rw [hleast] at h'
      rw [unpacked_finite (by omega) hlt]
      apply finite_congr
      · exact toNat_leading_append x h'
      · rw [toNat_unpackExponent, exponent]
        show ((pattern x / 2 ^ 23 : Nat) : Int) - (127 + 23) = _
        omega

/-! ### Order -/

/-- Where a number stands in the order of numbers, the zeros being at 0. -/
def rank (x : Float32) : Int := (signOf (negative x)).apply (pattern x)

/-- Exponents and then significands are in the order of their patterns. -/
theorem compare_exponent_significand (p q : Nat) :
    (compare (exponent p) (exponent q)).then (compare (significand p) (significand q)) =
      compare (p : Int) (q : Int) := by
  have hlt : ∀ {p q : Nat}, p < q →
      exponent p < exponent q ∨ (exponent p = exponent q ∧ significand p < significand q) := by
    intro p q h
    simp only [exponent, significand]
    split <;> split <;> omega
  rcases Nat.lt_trichotomy p q with h | h | h
  · rw [compare_lt_iff_lt.mpr (Int.ofNat_lt.mpr h), Ordering.then_eq_lt, compare_lt_iff_lt,
      compare_eq_iff_eq, compare_lt_iff_lt]
    exact hlt h
  · subst h
    simp
  · rw [compare_gt_iff_gt.mpr (Int.ofNat_lt.mpr h), Ordering.then_eq_gt, compare_gt_iff_gt,
      compare_eq_iff_eq, compare_gt_iff_gt]
    exact (hlt h).imp_right fun ⟨heq, h⟩ => ⟨heq.symm, h⟩

theorem swap_compare (a b : Int) : (compare a b).swap = compare (-a) (-b) := by
  rcases Int.lt_trichotomy a b with h | h | h
  · rw [compare_lt_iff_lt.mpr h, compare_gt_iff_gt.mpr (Int.neg_lt_neg h)]
    rfl
  · subst h
    simp
  · rw [compare_gt_iff_gt.mpr h, compare_lt_iff_lt.mpr (Int.neg_lt_neg h)]
    rfl

/-- The numbers of a sign, by pattern. -/
inductive Unpacks (s : Sign) : Nat → UnpackedFloat → Prop where
  | zero : Unpacks s 0 (.zero s)
  | finite {p : Nat} (hpos : p ≠ 0) (hlt : p < Binary.infinity format) :
      Unpacks s p (.finite s (significand p) (exponent p) (significand_pos hpos))
  | infinity : Unpacks s (Binary.infinity format) (.infinity s)

theorem unpacks (s : Sign) (hp : p ≤ Binary.infinity format) : Unpacks s p (unpacked s p) := by
  rcases Nat.eq_or_lt_of_le hp with rfl | hlt
  · exact .infinity
  · by_cases hzero : p = 0
    · rw [hzero]
      exact .zero
    · rw [unpacked_finite hzero hlt]
      exact .finite hzero hlt

/-- Unpacked numbers compare like their patterns with their signs. -/
theorem Unpacks.compare_eq {t : Sign} {u v : UnpackedFloat} (hu : Unpacks s p u)
    (hv : Unpacks t q v) : u.compare v = some (compare (s.apply p) (t.apply q)) := by
  have hinfinity : Binary.infinity format = 255 * 2 ^ 23 := infinity_eq
  have hless : ∀ {a b : Int}, a < b → some Ordering.lt = some (compare a b) :=
    fun h => congrArg some (compare_lt_iff_lt.mpr h).symm
  have hmore : ∀ {a b : Int}, b < a → some Ordering.gt = some (compare a b) :=
    fun h => congrArg some (compare_gt_iff_gt.mpr h).symm
  have hsame : ∀ {a b : Int}, a = b → some Ordering.eq = some (compare a b) :=
    fun h => congrArg some (compare_eq_iff_eq.mpr h).symm
  cases hu with
  | zero =>
    cases hv with
    | zero => exact hsame (by cases s <;> cases t <;> rfl)
    | finite | infinity =>
      cases t with
      | negative => exact hmore (by cases s <;> simp only [Sign.apply] <;> omega)
      | positive => exact hless (by cases s <;> simp only [Sign.apply] <;> omega)
  | finite =>
    cases hv with
    | zero =>
      cases s with
      | negative => exact hless (by cases t <;> simp only [Sign.apply] <;> omega)
      | positive => exact hmore (by cases t <;> simp only [Sign.apply] <;> omega)
    | finite =>
      cases s with
      | negative =>
        cases t with
        | negative =>
          exact congrArg some ((congrArg Ordering.swap
            (compare_exponent_significand p q)).trans (swap_compare p q))
        | positive => exact hless (by simp only [Sign.apply]; omega)
      | positive =>
        cases t with
        | negative => exact hmore (by simp only [Sign.apply]; omega)
        | positive => exact congrArg some (compare_exponent_significand p q)
    | infinity =>
      cases t with
      | negative => exact hmore (by cases s <;> simp only [Sign.apply] <;> omega)
      | positive => exact hless (by cases s <;> simp only [Sign.apply] <;> omega)
  | infinity =>
    cases hv with
    | zero | finite =>
      cases s with
      | negative => exact hless (by cases t <;> simp only [Sign.apply] <;> omega)
      | positive => exact hmore (by cases t <;> simp only [Sign.apply] <;> omega)
    | infinity =>
      cases s <;> cases t
      · exact hsame rfl
      · exact hless (by simp only [Sign.apply]; omega)
      · exact hmore (by simp only [Sign.apply]; omega)
      · exact hsame rfl

/-- Numbers compare as their ranks do. -/
theorem compare_unpack (hx : pattern x ≤ Binary.infinity format)
    (hy : pattern y ≤ Binary.infinity format) :
    x.toModel.unpack.compare y.toModel.unpack = some (compare (rank x) (rank y)) := by
  rw [unpack_eq, unpack_eq]
  exact (unpacks _ hx).compare_eq (unpacks _ hy)

/-- Numbers are in the order of their ranks. -/
theorem le_iff_rank_le (hx : pattern x ≤ Binary.infinity format)
    (hy : pattern y ≤ Binary.infinity format) : x ≤ y ↔ rank x ≤ rank y := by
  have hle : x ≤ y ↔ (x.toModel.unpack.le y.toModel.unpack) = true := by
    show decide (x.toModel.unpack.le y.toModel.unpack = true) = true ↔ _
    rw [decide_eq_true_eq]
  rw [hle, UnpackedFloat.le, compare_unpack hx hy, ← compare_le_iff_le, Option.any_some,
    Ordering.isLE_iff_ne_gt]

theorem lt_iff_rank_lt (hx : pattern x ≤ Binary.infinity format)
    (hy : pattern y ≤ Binary.infinity format) : x < y ↔ rank x < rank y := by
  have hlt : x < y ↔ (x.toModel.unpack.lt y.toModel.unpack) = true := by
    show decide (x.toModel.unpack.lt y.toModel.unpack = true) = true ↔ _
    rw [decide_eq_true_eq]
  rw [hlt, UnpackedFloat.lt, compare_unpack hx hy, ← compare_lt_iff_lt, beq_iff_eq,
    Option.some.injEq]

theorem beq_iff_rank_eq (hx : pattern x ≤ Binary.infinity format)
    (hy : pattern y ≤ Binary.infinity format) : (x == y) = true ↔ rank x = rank y := by
  show x.toModel.unpack.beq y.toModel.unpack = true ↔ _
  rw [UnpackedFloat.beq, compare_unpack hx hy, beq_iff_eq, Option.some.injEq, compare_eq_iff_eq]

/-! ### Putting together -/

/-- The sign bit of a sign. -/
def signBit : Sign → Bool
  | .negative => true
  | .positive => false

theorem signOf_signBit (s : Sign) : signOf (signBit s) = s := by cases s <;> rfl

/-- The stored form of a number. -/
def packed (u : UnpackedFloat) : Float32 := .ofModel (.pack u)

theorem toNat_packComponents (s : Sign) (e : BitVec 8) (m : BitVec 23) :
    (packComponents .binary32 s e m).toNat =
      (if signBit s then 2 ^ 31 else 0) + (e.toNat * 2 ^ 23 + m.toNat) := by
  have he := e.isLt
  have hm := m.isLt
  rw [packComponents, BitVec.toNat_append, BitVec.toNat_append,
    ← Nat.shiftLeft_add_eq_or_of_lt hm, ← Nat.shiftLeft_add_eq_or_of_lt he, Nat.shiftLeft_eq,
    Nat.shiftLeft_eq]
  cases s with
  | negative =>
    simp [signBit, Sign.toBitVec]
    omega
  | positive => simp [signBit, Sign.toBitVec]

/-- A number is stored by its pattern, if that is what its bits below the sign are. -/
theorem packed_eq_ofPattern {u : UnpackedFloat} (hp : p ≤ Binary.infinity format)
    (h : (pack .binary32 u).toNat = (if signBit s then 2 ^ 31 else 0) + p) :
    packed u = ofPattern (signBit s) p := by
  apply eq_of_toNat_toBits
  rw [toNat_toBits_ofPattern _ hp]
  exact h

theorem packed_zero (s : Sign) : packed (.zero s) = ofPattern (signBit s) 0 :=
  packed_eq_ofPattern (Nat.zero_le _) (toNat_packComponents s 0 0)

theorem packed_infinity (s : Sign) :
    packed (.infinity s) = ofPattern (signBit s) (Binary.infinity format) :=
  packed_eq_ofPattern (Nat.le_refl _) (toNat_packComponents s (-1#8) 0)

theorem ofPattern_min (negative : Bool) (p : Nat) :
    ofPattern negative (min p (Binary.infinity format)) = ofPattern negative p := by
  simp only [ofPattern, Nat.min_assoc, Nat.min_self]

theorem packed_eq_of_pack_eq {u v : UnpackedFloat}
    (h : UnpackedFloat.pack .binary32 u = UnpackedFloat.pack .binary32 v) : packed u = packed v :=
  eq_of_toNat_toBits (congrArg BitVec.toNat h)

/-- How a finite number is put together: as infinity, with its leading digit, or without one. -/
theorem pack_finite {m b : Nat} (hm : 0 < m) (hlt : m < 2 ^ 24) :
    UnpackedFloat.pack .binary32 (.finite s m (b - 149) hm) =
      if 2 ^ 8 ≤ b + 1 + 1 then UnpackedFloat.pack .binary32 (.infinity s)
      else if 2 ^ 23 ≤ m then packComponents .binary32 s (.ofNat 8 (b + 1)) (.ofNat 23 m)
      else packComponents .binary32 s 0#8 (.ofNat 23 m) := by
  have hbiased : ((b : Int) - 149 + (Format.binary32.exponentBias : Nat) +
      (Format.binary32.mantissaBitsWithoutImplicit : Nat)).toNat = b + 1 := by
    show ((b : Int) - 149 + 127 + 23).toNat = b + 1
    omega
  have hlog : m.log2 + 1 = Format.binary32.mantissaBits ↔ 2 ^ 23 ≤ m := by
    show m.log2 + 1 = 24 ↔ _
    rw [← Nat.le_log2 (Nat.ne_of_gt hm)]
    have := (Nat.log2_lt (Nat.ne_of_gt hm)).mpr hlt
    omega
  unfold UnpackedFloat.pack
  simp only [hbiased, hlog]

/-- A significand has its place in the pattern: its leading digit adds one to the exponent. -/
theorem packed_finite {m b : Nat} (hm : 0 < m) (hlt : m < 2 ^ 24) (hb : b = 0 ∨ 2 ^ 23 ≤ m) :
    packed (.finite s m (b - 149) hm) = ofPattern (signBit s) (b * 2 ^ 23 + m) := by
  have hinfinity : Binary.infinity format = 255 * 2 ^ 23 := infinity_eq
  have hpack := @pack_finite s m b hm hlt
  by_cases hlarge : 2 ^ 8 ≤ b + 1 + 1
  · rw [if_pos hlarge] at hpack
    rw [← ofPattern_min _ (b * 2 ^ 23 + m), Nat.min_eq_right (by omega), ← packed_infinity,
      packed_eq_of_pack_eq hpack]
  · rw [if_neg hlarge] at hpack
    refine packed_eq_ofPattern (by omega) ?_
    rw [hpack]
    split
    · rw [toNat_packComponents, BitVec.toNat_ofNat, BitVec.toNat_ofNat]
      omega
    · rw [toNat_packComponents, BitVec.toNat_ofNat, BitVec.toNat_ofNat]
      omega

theorem rank_ofPattern (negative : Bool) (hp : p ≤ Binary.infinity format) :
    rank (ofPattern negative p) = (signOf negative).apply p := by
  rw [rank, negative_ofPattern _ hp, pattern_ofPattern _ hp]

/-- What was unpacked from a pattern is packed to that pattern. -/
theorem Unpacks.packed_eq {u : UnpackedFloat} (h : Unpacks s p u) :
    packed u = ofPattern (signBit s) p := by
  cases h with
  | zero => exact packed_zero s
  | infinity => exact packed_infinity s
  | finite hpos =>
    have hsum : (p / 2 ^ 23 - 1) * 2 ^ 23 + significand p = p := by
      rw [significand]
      split <;> omega
    rw [exponent, packed_finite _ (significand_lt p) (leads p), hsum]

/-- What is taken apart and put together again is as it was. -/
theorem packed_unpack (hx : pattern x ≤ Binary.infinity format) : packed x.toModel.unpack = x := by
  have hsign : signBit (signOf (negative x)) = negative x := by cases negative x <;> rfl
  rw [unpack_eq, (unpacks _ hx).packed_eq, hsign, ofPattern_pattern hx]

theorem ofBits_eq_ofPattern {bits : UInt32} (h : bits.toNat ≤ Binary.infinity format) :
    Float32.ofBits bits = ofPattern false bits.toNat := by
  have hbits : (ofPattern false bits.toNat).toBits = bits := by
    rw [← UInt32.toNat_inj, toNat_toBits_ofPattern _ h]
    exact Nat.zero_add _
  have hpattern := pattern_ofPattern false h
  calc Float32.ofBits bits = Float32.ofBits (ofPattern false bits.toNat).toBits := by rw [hbits]
    _ = ofPattern false bits.toNat := packed_unpack (hpattern.symm ▸ h)

end Grapevine.Number.Single
