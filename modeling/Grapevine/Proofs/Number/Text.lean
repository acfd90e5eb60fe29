import Grapevine.Number.Text
import Grapevine.Proofs.Number.Shortest

/-! Written numbers read back.

Positional text is a run of digits, and a second one behind a point (`Decimal.Positional`). It is
read as the digits of both, shifted by the length of the second (`Decimal.read?_positional`), and
that is the decimal that was written, with the zeros that its power of ten asks for
(`Decimal.read?_write`). For a finite number the decimal is the shortest one, so that the number
itself is read, with its sign even if it is zero (`Single.read?_write`). Read as a finite number is
only what consists of the characters of decimals (`Single.numeral_of_read?`). -/
namespace Grapevine.Number

namespace Decimal

open Float.Model (Format)

variable {d : Decimal} {whole fraction text digits rest : List Char} {c : Char}

/-! ### Positional text -/

/-- Digits, and behind a point, if there is one, more of them. -/
structure Positional (whole fraction text : List Char) : Prop where
  ne_nil : whole ≠ []
  isDigit_whole : ∀ c ∈ whole, c.isDigit = true
  isDigit_fraction : ∀ c ∈ fraction, c.isDigit = true
  text_eq : text = whole ++ if fraction = [] then [] else '.' :: fraction

theorem takeWhile_digits (h : ∀ c ∈ digits, c.isDigit = true) :
    digits.takeWhile Char.isDigit = digits := List.takeWhile_eq_self_iff.mpr h

theorem dropWhile_digits (h : ∀ c ∈ digits, c.isDigit = true) :
    digits.dropWhile Char.isDigit = [] := List.dropWhile_eq_nil_iff.mpr h

/-- A text of digits around a point is read as those digits. -/
theorem read?_positional (h : Positional whole fraction text) :
    read? text = some ⟨ofDigits (whole ++ fraction), -fraction.length⟩ := by
  have hwhole : text.takeWhile Char.isDigit = whole ∧
      text.dropWhile Char.isDigit = if fraction = [] then [] else '.' :: fraction := by
    rw [h.text_eq, List.takeWhile_append_of_pos h.isDigit_whole,
      List.dropWhile_append_of_pos h.isDigit_whole]
    split <;> simp
  have hfraction : splitFraction (if fraction = [] then [] else '.' :: fraction) =
      (fraction, []) := by
    split
    · rename_i hnil
      rw [hnil]
      rfl
    · rw [splitFraction, takeWhile_digits h.isDigit_fraction, dropWhile_digits h.isDigit_fraction]
  have hsome : (whole.isEmpty && fraction.isEmpty) = false := by
    simp [h.ne_nil]
  simp only [read?, hwhole, hfraction, hsome, Bool.false_eq_true, if_false]

/-- The decimal with its digits written out up to the point. -/
def expanded (d : Decimal) : Decimal := ⟨d.digits * 10 ^ d.exponent.toNat, -(-d.exponent).toNat⟩

theorem isDigit_toDigits (n : Nat) : ∀ c ∈ Nat.toDigits 10 n, c.isDigit = true :=
  fun _ hc => Nat.isDigit_of_mem_toDigits (by decide) (by decide) hc

theorem isDigit_replicate (n : Nat) : ∀ c ∈ List.replicate n '0', c.isDigit = true := by
  intro c hc
  rw [List.eq_of_mem_replicate hc]
  rfl

theorem ofDigits_zeros_toDigits (k n : Nat) :
    ofDigits (List.replicate k '0' ++ Nat.toDigits 10 n) = n := by
  show Nat.ofDigitChars 10 (List.replicate k '0' ++ Nat.toDigits 10 n) 0 = n
  rw [Nat.ofDigitChars_append, Nat.ofDigitChars_replicate_zero, Nat.mul_zero,
    Nat.ofDigitChars_ten_toDigits]

theorem ofDigits_toDigits_zeros (n k : Nat) :
    ofDigits (Nat.toDigits 10 n ++ List.replicate k '0') = n * 10 ^ k := by
  show Nat.ofDigitChars 10 (Nat.toDigits 10 n ++ List.replicate k '0') 0 = n * 10 ^ k
  rw [Nat.ofDigitChars_append, Nat.ofDigitChars_replicate_zero, Nat.ofDigitChars_ten_toDigits,
    Nat.mul_comm]

/-- Digits with a point so many places before their end. -/
theorem positional_split {places : Nat} (hall : ∀ c ∈ digits, c.isDigit = true)
    (hplaces : 0 < places) (hlength : places < digits.length) :
    Positional (digits.take (digits.length - places)) (digits.drop (digits.length - places))
      (digits.take (digits.length - places) ++ '.' :: digits.drop (digits.length - places)) where
  ne_nil := List.ne_nil_of_length_pos (by rw [List.length_take]; omega)
  isDigit_whole c hc := hall c (List.mem_of_mem_take hc)
  isDigit_fraction c hc := hall c (List.mem_of_mem_drop hc)
  text_eq := by
    rw [if_neg (List.ne_nil_of_length_pos (by rw [List.length_drop]; omega))]

/-- A written decimal is digits around a point. -/
theorem positional_write (d : Decimal) :
    ∃ whole fraction, Positional whole fraction d.write ∧
      (⟨ofDigits (whole ++ fraction), -fraction.length⟩ : Decimal) = d.expanded := by
  obtain ⟨n, e⟩ := d
  rcases Int.lt_or_le e 0 with hneg | hnonneg
  · obtain ⟨places, rfl⟩ : ∃ places : Nat, e = -places := ⟨e.natAbs, by omega⟩
    simp only [write, if_neg (Int.not_le.mpr hneg), Int.neg_neg, Int.toNat_natCast]
    -- The zeros in front leave at least one digit before the point, and do not count.
    have hdigits := ofDigits_zeros_toDigits (places + 1 - (Nat.toDigits 10 n).length) n
    have hall : ∀ c ∈ List.replicate (places + 1 - (Nat.toDigits 10 n).length) '0' ++
        Nat.toDigits 10 n, c.isDigit = true :=
      List.forall_mem_append.mpr ⟨isDigit_replicate _, isDigit_toDigits n⟩
    have hlength : places < (List.replicate (places + 1 - (Nat.toDigits 10 n).length) '0' ++
        Nat.toDigits 10 n).length := by
      rw [List.length_append, List.length_replicate]
      omega
    generalize List.replicate (places + 1 - (Nat.toDigits 10 n).length) '0' ++
      Nat.toDigits 10 n = padded at *
    refine ⟨_, _, positional_split hall (by omega) hlength, ?_⟩
    rw [List.take_append_drop, hdigits, List.length_drop, Nat.sub_sub_self (Nat.le_of_lt hlength)]
    simp [expanded]
  · obtain ⟨k, rfl⟩ := Int.eq_ofNat_of_zero_le hnonneg
    refine ⟨Nat.toDigits 10 n ++ List.replicate k '0', [], ⟨?_, ?_, ?_, ?_⟩, ?_⟩
    · exact List.append_ne_nil_of_left_ne_nil Nat.toDigits_ne_nil _
    · exact List.forall_mem_append.mpr ⟨isDigit_toDigits n, isDigit_replicate k⟩
    · exact List.forall_mem_nil _
    · simp [write]
    · rw [List.append_nil, ofDigits_toDigits_zeros]
      simp [expanded]

/-- **A decimal that is written is read as itself**, with the zeros before the point as digits. -/
theorem read?_write (d : Decimal) : read? d.write = some d.expanded := by
  obtain ⟨whole, fraction, hpositional, hdecimal⟩ := positional_write d
  rw [read?_positional hpositional, hdecimal]

theorem step_natCast (f : Format) (k : Nat) :
    step f k = (10 ^ k * 2 ^ Binary.unitExponent f, 1) := by
  simp [step]

theorem step_zero (f : Format) : step f 0 = (2 ^ Binary.unitExponent f, 1) := by
  simp [step]

/-- A decimal is rounded alike with and without its zeros written out. -/
theorem nearest_expanded {f : Format} (h : d.InReach) : d.expanded.nearest f = d.nearest f := by
  obtain ⟨n, e⟩ := d
  rcases Int.lt_or_le e 0 with hneg | hnonneg
  · have hexpanded : expanded ⟨n, e⟩ = ⟨n, e⟩ := by
      have hexponent : -((-e).toNat : Int) = e := by omega
      rw [expanded, Int.toNat_of_nonpos (Int.le_of_lt hneg), hexponent, Nat.pow_zero, Nat.mul_one]
    rw [hexpanded]
  · obtain ⟨k, rfl⟩ := Int.eq_ofNat_of_zero_le hnonneg
    have hexpanded : expanded ⟨n, k⟩ = ⟨n * 10 ^ k, 0⟩ := by simp [expanded]
    have hreach : (⟨n * 10 ^ k, 0⟩ : Decimal).InReach := by
      constructor
      · show -400 ≤ 0 + ((n * 10 ^ k).log2 : Int) + 1
        omega
      · show (0 : Int) ≤ 400
        decide
    rw [hexpanded, nearest_of_inReach hreach, nearest_of_inReach h]
    simp only [Nat.mul_assoc, step_natCast f k, step_zero]

/-! ### Characters -/

/-- Positional text starts with a digit. -/
theorem write_eq_cons (d : Decimal) : ∃ c rest, d.write = c :: rest ∧ c.isDigit = true := by
  obtain ⟨whole, fraction, h, _⟩ := positional_write d
  obtain ⟨c, whole, rfl⟩ := List.exists_cons_of_ne_nil h.ne_nil
  exact ⟨c, _, h.text_eq, h.isDigit_whole c (List.mem_cons_self ..)⟩

theorem isDigit_or_eq_of_mem_write (h : c ∈ d.write) : c.isDigit = true ∨ c = '.' := by
  obtain ⟨whole, fraction, hpositional, _⟩ := positional_write d
  rw [hpositional.text_eq, List.mem_append] at h
  rcases h with hwhole | hrest
  · exact .inl (hpositional.isDigit_whole c hwhole)
  · split at hrest
    · cases hrest
    · rcases List.mem_cons.mp hrest with hpoint | hfraction
      · exact .inr hpoint
      · exact .inl (hpositional.isDigit_fraction c hfraction)

theorem splitSign_of_isDigit (hc : c.isDigit = true) :
    splitSign (c :: rest) = (false, c :: rest) := by
  unfold splitSign
  split
  · rename_i heq
    cases heq
    cases hc
  · rename_i heq
    cases heq
    cases hc
  · rfl

/-! ### Read text -/

/-- The characters of decimals: digits, signs, a point, and the mark of an exponent. -/
def Numeral (c : Char) : Prop := c.isDigit = true ∨ c ∈ ['.', 'e', 'E', '+', '-']

theorem isDigit_or_mem_dropWhile (h : c ∈ text) :
    c.isDigit = true ∨ c ∈ text.dropWhile Char.isDigit := by
  rw [← List.takeWhile_append_dropWhile (p := Char.isDigit) (l := text), List.mem_append] at h
  exact h.imp_left List.mem_takeWhile_imp

theorem numeral_or_mem_splitSign (h : c ∈ text) : Numeral c ∨ c ∈ (splitSign text).2 := by
  unfold splitSign
  split
  · rcases List.mem_cons.mp h with rfl | hrest
    · exact .inl (.inr (by decide))
    · exact .inr hrest
  · rcases List.mem_cons.mp h with rfl | hrest
    · exact .inl (.inr (by decide))
    · exact .inr hrest
  · exact .inr h

theorem numeral_or_mem_splitFraction (h : c ∈ text) : Numeral c ∨ c ∈ (splitFraction text).2 := by
  unfold splitFraction
  split
  · rcases List.mem_cons.mp h with rfl | hrest
    · exact .inl (.inr (by decide))
    · exact (isDigit_or_mem_dropWhile hrest).imp_left .inl
  · exact .inr h

theorem numeral_of_readExponent? {e : Int} (h : readExponent? text = some e) (hc : c ∈ text) :
    Numeral c := by
  rcases numeral_or_mem_splitSign hc with hnumeral | hrest
  · exact hnumeral
  · simp only [readExponent?] at h
    split at h
    · cases h
    · rename_i hdigits
      rw [Bool.or_eq_true, not_or, Bool.not_eq_true', Bool.not_eq_false] at hdigits
      exact .inl (List.all_eq_true.mp hdigits.2 c hrest)

/-- **What is read as a decimal has no other characters in it.** -/
theorem numeral_of_read? (h : read? text = some d) (hc : c ∈ text) : Numeral c := by
  rcases isDigit_or_mem_dropWhile hc with hdigit | hrest
  · exact .inl hdigit
  · rcases numeral_or_mem_splitFraction hrest with hnumeral | hrest
    · exact hnumeral
    · simp only [read?] at h
      split at h
      · cases h
      · split at h
        · rename_i hnil
          rw [hnil] at hrest
          cases hrest
        · rename_i mark rest hcons
          rw [hcons] at hrest
          split at h
          · rename_i hmark
            obtain ⟨e, he, _⟩ := Option.map_eq_some_iff.mp h
            rcases List.mem_cons.mp hrest with rfl | hexponent
            · refine .inr ?_
              rw [Bool.or_eq_true, decide_eq_true_eq, decide_eq_true_eq] at hmark
              rcases hmark with rfl | rfl <;> decide
            · exact numeral_of_readExponent? he hexponent
          · cases h

end Decimal

namespace Single

variable {x y : Float32}

/-! ### Bits -/

theorem eq_of_toNat_toBits (h : x.toBits.toNat = y.toBits.toNat) : x = y := by
  have hbits : x.toBits = y.toBits := UInt32.toNat_inj.mp h
  obtain ⟨⟨_, _⟩⟩ := x
  obtain ⟨⟨_, _⟩⟩ := y
  cases hbits
  rfl

/-- Sign and pattern are all that there is to a number. -/
theorem ofPattern_pattern (hx : pattern x ≤ Binary.infinity format) :
    ofPattern (negative x) (pattern x) = x := by
  apply eq_of_toNat_toBits
  rw [toNat_toBits_ofPattern _ hx, negative, pattern]
  have hlt := x.toBits.toNat_lt
  simp only [decide_eq_true_eq]
  split <;> omega

/-- What is no number, or no finite one, has all its exponent bits set. -/
theorem pattern_lt_of_isFinite (hx : x.isFinite = true) : pattern x < Binary.infinity format := by
  by_contra hge
  rw [pattern, infinity_eq] at hge
  have hlt := x.toBits.toNat_lt
  have hexponent : @Float.Model.UnpackedFloat.unpackExponent .binary32
      x.toModel.toBits.toBitVec = -1#_ := by
    apply BitVec.eq_of_toNat_eq
    have hbits : x.toModel.toBits.toNat = x.toBits.toNat := rfl
    simp [Float.Model.UnpackedFloat.unpackExponent, BitVec.extractLsb, Nat.shiftRight_eq_div_pow]
    omega
  have hunpack : x.isFinite = (Float.Model.UnpackedFloat.unpack .binary32
    x.toModel.toBits.toBitVec).isFinite := rfl
  rw [hunpack, Float.Model.UnpackedFloat.unpack] at hx
  simp only [hexponent, if_true] at hx
  split at hx <;> cases hx

/-! ### Written numbers -/

theorem toLower_of_isDigit {c : Char} (hc : c.isDigit = true) : c.toLower = c := by
  have hnot : ¬ (c.val ≥ 'A'.val ∧ c.val ≤ 'Z'.val) := by
    intro hupper
    simp only [Char.isDigit, Bool.and_eq_true, decide_eq_true_eq] at hc
    exact absurd (UInt32.le_trans hupper.1 hc.2) (by decide)
  simp only [Char.toLower, hnot, dite_false]

/-- Text that goes on with a digit behind its sign is none of the words for numbers. -/
theorem read?_of_splitSign {text rest : List Char} {c : Char} {sign : Bool}
    (hsplit : Decimal.splitSign text = (sign, c :: rest)) (hc : c.isDigit = true) :
    read? text =
      (Decimal.read? (c :: rest)).map fun d => ofPattern sign (d.nearest format) := by
  have hword : ∀ w : String, w.toList.head?.map Char.isDigit = some false →
      String.ofList ((c :: rest).map Char.toLower) ≠ w := by
    intro w hw heq
    rw [← heq, String.toList_ofList, List.map_cons, List.head?_cons, toLower_of_isDigit hc,
      Option.map_some, hc] at hw
    cases hw
  have hinf := hword "inf" (by decide)
  have hinfinity := hword "infinity" (by decide)
  have hnan := hword "nan" (by decide)
  simp only [read?, hsplit, hinf, hinfinity, hnan, decide_false, Bool.or_false, Bool.false_eq_true,
    if_false]

theorem write_of_isFinite (hx : x.isFinite = true) :
    write x = (if negative x then ['-'] else []) ++
      (Decimal.shortest format (pattern x)).write := by
  have hlt := pattern_lt_of_isFinite hx
  simp only [write, Binary.write, Nat.not_lt.mpr (Nat.le_of_lt hlt), Nat.ne_of_lt hlt, if_false]

/-- **A finite number that is written is read as itself**, bit for bit. -/
theorem read?_write (hx : x.isFinite = true) : read? (write x) = some x := by
  have hle := Nat.le_of_lt (pattern_lt_of_isFinite hx)
  obtain ⟨c, rest, hcons, hc⟩ := (Decimal.shortest format (pattern x)).write_eq_cons
  have hsplit : Decimal.splitSign (write x) = (negative x, c :: rest) := by
    rw [write_of_isFinite hx, hcons]
    cases negative x with
    | true => rfl
    | false => exact Decimal.splitSign_of_isDigit hc
  have hreach := Decimal.inReach_shortest moderate_format hle
  rw [read?_of_splitSign hsplit hc, ← hcons, Decimal.read?_write, Option.map_some,
    Decimal.nearest_expanded hreach, Decimal.nearest_shortest moderate_format hle,
    ofPattern_pattern hle]

theorem mem_write {c : Char} (hx : x.isFinite = true) (h : c ∈ write x) :
    c.isDigit = true ∨ c = '.' ∨ c = '-' := by
  rw [write_of_isFinite hx, List.mem_append] at h
  rcases h with hsign | hdigits
  · split at hsign
    · exact .inr (.inr (List.mem_singleton.mp hsign))
    · cases hsign
  · rcases Decimal.isDigit_or_eq_of_mem_write hdigits with hdigit | hpoint
    · exact .inl hdigit
    · exact .inr (.inl hpoint)

/-! ### Read text -/

/-- The words for numbers stand for none that is finite. -/
theorem numeral_of_read? {text : List Char} {c : Char} (h : read? text = some x)
    (hx : x.isFinite = true) (hc : c ∈ text) : Decimal.Numeral c := by
  rcases Decimal.numeral_or_mem_splitSign hc with hnumeral | hrest
  · exact hnumeral
  · simp only [read?] at h
    split at h
    · have hlt := pattern_lt_of_isFinite hx
      rw [← Option.some.inj h, pattern_ofPattern _ (Nat.le_refl _)] at hlt
      exact absurd hlt (Nat.lt_irrefl _)
    · split at h
      · rw [← Option.some.inj h] at hx
        cases hx
      · obtain ⟨d, hd, _⟩ := Option.map_eq_some_iff.mp h
        exact Decimal.numeral_of_read? hd hrest

end Single

end Grapevine.Number
