import Grapevine.Proofs.Grammar.Draws
import Grapevine.Proofs.Chance

/-! Berries are of a size in the range.

What is drawn from a range lies in it (`Chance.drawWithin_mem`). Every `S` of a word that had none
comes of such a draw, whatever became of the word since (`LSystem.expand_sizes_in_range`). -/
namespace Grapevine

open Number Chance Grammar

namespace Grammar

variable {cfg : Config} {t : Token} {u : List Token} {s s' : Keystream} {size : Float32}

/-! ### One berry -/

/-- The ends are finite and in this order, as usable constants have them. -/
structure SizeRange.Ordered (r : SizeRange) : Prop where
  low_finite : r.low.isFinite = true
  high_finite : r.high.isFinite = true
  not_lt : ¬ r.high < r.low

/-- A size from the range: from the lower end up to, but without, the upper one, and the lower end
where they are the same. -/
structure SizeRange.Holds (r : SizeRange) (size : Float32) : Prop where
  of_lt : r.low < r.high → r.low ≤ size ∧ size < r.high
  of_eq : (r.low == r.high) = true → size = r.low

theorem SizeRange.Ordered.lt_or_eq {r : SizeRange} (h : r.Ordered) :
    (r.low < r.high ∧ (r.low == r.high) = false) ∨
      (¬ r.low < r.high ∧ (r.low == r.high) = true) := by
  have hlow := Nat.le_of_lt (Single.pattern_lt_of_isFinite h.low_finite)
  have hhigh := Nat.le_of_lt (Single.pattern_lt_of_isFinite h.high_finite)
  have hnot := h.not_lt
  rw [Single.lt_iff_rank_lt hhigh hlow] at hnot
  rw [← Bool.not_eq_true, Single.lt_iff_rank_lt hlow hhigh, Single.beq_iff_rank_eq hlow hhigh]
  omega

theorem ordered_of_validate (h : cfg.validate = .ok ()) : cfg.berrySizes.Ordered := by
  have hrange : ¬ (!(cfg.berrySizes.low.isFinite && cfg.berrySizes.high.isFinite) ∨
      cfg.berrySizes.high < cfg.berrySizes.low) := by
    intro hbad
    simp only [Config.validate, hbad, if_true] at h
    split at h
    · cases h
    · split at h <;> cases h
  simp only [Bool.not_and, Bool.or_eq_true, Bool.not_eq_true', not_or, Bool.not_eq_false] at hrange
  exact ⟨hrange.1.1, hrange.1.2, hrange.2⟩

theorem holds_of_berrySize (hrange : cfg.berrySizes.Ordered)
    (h : berrySize cfg s = .ok (size, s')) : cfg.berrySizes.Holds size := by
  rcases hrange.lt_or_eq with ⟨hlt, hne⟩ | ⟨hnot, heq⟩
  · obtain ⟨hspan, hdraw⟩ := (berrySize_eq_ok_iff hlt).mp h
    have hmem := drawWithin_mem ⟨hrange.low_finite, hrange.high_finite, hspan, hlt⟩ attempts s
    rw [← draw, hdraw] at hmem
    exact ⟨fun _ => hmem, fun heq => absurd heq (by rw [hne]; decide)⟩
  · simp only [berrySize, hnot, not_false_eq_true, if_true] at h
    cases h
    exact ⟨fun hlt => absurd hlt hnot, fun _ => rfl⟩

/-! ### All berries -/

/-- A berry has one number, which is a size from the range. -/
def Sized (r : SizeRange) (t : Token) : Prop :=
  t.symbol = .berry → ∃ size, t.params = [size] ∧ r.Holds size

theorem sized_of_ne {r : SizeRange} (h : ∀ t ∈ u, t.symbol ≠ .berry) : ∀ t ∈ u, Sized r t :=
  fun t ht hberry => absurd hberry (h t ht)

theorem ne_berry_of_adjusts (h : t.adjusts = true) : t.symbol ≠ .berry := by
  intro heq
  rw [Token.adjusts, heq] at h
  cases h

theorem ne_berry_of_stalk (stalk : Stalk) : ∀ t ∈ stalk.word, t.symbol ≠ .berry := by
  refine List.forall_mem_append.mpr ⟨fun t ht => ne_berry_of_adjusts (stalk.adjusts t ht), ?_⟩
  exact List.forall_mem_singleton.mpr (by simp)

namespace Tapered

/-- **A berry comes of a draw**, and no rule touches it afterwards. -/
theorem sized_of_produces (hrange : cfg.berrySizes.Ordered) (ht : Sized cfg.berrySizes t)
    (h : Produces (standard .phyllotactic) cfg t u) : ∀ x ∈ u, Sized cfg.berrySizes x := by
  obtain ⟨s, s', hu⟩ := h
  cases replace_eq_ok_iff.mp hu with
  | terminal => exact List.forall_mem_singleton.mpr ht
  | @axis_fork face =>
    have hroll : ∀ t ∈ faceRoll face, t.symbol ≠ .berry :=
      fun t ht => ne_berry_of_adjusts (adjusts_faceRoll face t ht)
    apply sized_of_ne
    simpa [straight, branch, Token.bud, Token.bare, or_imp, forall_and] using hroll
  | axis_end | secondary_end | secondary_fork | tip | pedicel =>
    apply sized_of_ne
    simp [straight, branch, Token.bud, Token.bare]
  | segment_plain => exact sized_of_ne (ne_berry_of_stalk _)
  | segment_berry _ hsize =>
    refine List.forall_mem_append.mpr ⟨List.forall_mem_append.mpr ⟨?_, ?_⟩, ?_⟩
    · exact sized_of_ne (ne_berry_of_stalk _)
    · apply sized_of_ne
      split <;> simp [Token.bare]
    · exact List.forall_mem_singleton.mpr fun _ => ⟨_, rfl, holds_of_berrySize hrange hsize⟩

end Tapered

end Grammar

namespace LSystem

variable {cfg : Config} {sys : LSystem}

/-- **Berries are of a size in the range.** The ends of the range are in order or the same, and
every `S` that grew has one number: a size between the ends, or the one size they stand for. Nothing
is assumed of the words of the stream: a draw that gives up answers the lower end. -/
theorem expand_sizes_in_range (hsys : standard cfg = .ok sys) (hv : cfg.variant = .phyllotactic)
    {word out : List Token} {n : Nat} (hword : ∀ t ∈ word, t.symbol ≠ .berry)
    (h : sys.expand word n = .ok out) :
    (cfg.berrySizes.low < cfg.berrySizes.high ∨
      (cfg.berrySizes.low == cfg.berrySizes.high) = true) ∧
    ∀ t ∈ out, t.symbol = .berry → ∃ size, t.params = [size] ∧
      (cfg.berrySizes.low < cfg.berrySizes.high →
        cfg.berrySizes.low ≤ size ∧ size < cfg.berrySizes.high) ∧
      ((cfg.berrySizes.low == cfg.berrySizes.high) = true → size = cfg.berrySizes.low) := by
  obtain ⟨hvalid, rfl⟩ := standard_eq_ok_iff.mp hsys
  have hrange := ordered_of_validate hvalid
  obtain ⟨s, hpasses⟩ := expand_eq_ok_iff.mp h
  have hderives : Derives (.standard .phyllotactic) cfg n word out := hv ▸ derives_of_passes hpasses
  have hall := derives_forall (fun t u => Tapered.sized_of_produces hrange) hderives
    (sized_of_ne hword)
  refine ⟨hrange.lt_or_eq.imp And.left And.right, fun t ht hberry => ?_⟩
  obtain ⟨size, hparams, hholds⟩ := hall t ht hberry
  exact ⟨size, hparams, hholds.of_lt, hholds.of_eq⟩

/-- The preset in space, for berries between -2 and the number next to it. -/
def narrow : Config :=
  { Config.phyllotactic with berrySizes := ⟨-2, .ofBits 0xbfffffff⟩ }

/-- No number is between the ends of a range as narrow as this, and yet the berry that is drawn is
not of the upper one. -/
theorem expand_sizes_in_range_narrow : ∃ sys size,
    standard narrow = .ok sys ∧
    sys.expand [⟨.segment, [1, 0, 0, 1, 1]⟩] 1 =
      .ok (⟨Tapered.stalk narrow 0 0 1 1, false, size⟩ : Pedicel).word ∧
    -2 ≤ size ∧ size < .ofBits 0xbfffffff := by
  have hsys := @standard_of_valid narrow (by decide)
  have hlt : narrow.berrySizes.low < narrow.berrySizes.high := by decide
  have hfinite : (narrow.berrySizes.high - narrow.berrySizes.low).isFinite = true := by decide
  have hkept : Tapered.suppressed narrow 1 = false := by decide
  have hberry := @Tapered.Bears.berry narrow (Tapered.sizes narrow) 0 1 1 0 0 1 1 [] []
    (by decide) hfinite (.nil 1)
  rw [hkept, List.append_nil] at hberry
  have hexpand := (expand_eq_ok_iff_generations hsys rfl hlt).mpr ⟨1, .succ hberry (.zero 1 _)⟩
  obtain ⟨_, hall⟩ := expand_sizes_in_range hsys rfl (by simp) hexpand
  obtain ⟨size, hsize, hmem, _⟩ := hall ⟨.berry, [Tapered.sizes narrow 0]⟩
    (List.mem_append_right _ (List.mem_singleton_self _)) rfl
  cases hsize
  exact ⟨_, _, hsys, hexpand, hmem hlt⟩

end LSystem

end Grapevine
