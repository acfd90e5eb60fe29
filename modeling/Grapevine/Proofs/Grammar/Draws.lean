import Grapevine.Proofs.Grammar.DepthFirst
import Grapevine.Proofs.Grammar.Rounds

/-! The order of draws.

A berry is drawn when its segment is replaced: generation after generation, and from left to right
in each. Numbered in this order (`Tapered.Bears`, `Tapered.Generations`), every berry is of the size
that the stream of the seed gives at its number, whether or not a `%` will swallow it, for nothing
else reads the stream (`LSystem.expand_draws_in_order`). A draw reads as many words as it takes to
hit the range (`Chance.drawWithin_hits`). In the word that is left in the end the berries stand in
another order, since a lateral bears later than the tips in front of it. -/
namespace Grapevine

open Number Chance Grammar

namespace Chance

/-- The stream behind so many draws from a range. -/
def behind (low high : Float32) (s : Keystream) : Nat → Keystream
  | 0 => s
  | j + 1 => (draw low high (behind low high s j)).2

/-- The numbers that are drawn from a range, one after the other. -/
def drawn (low high : Float32) (s : Keystream) (j : Nat) : Float32 :=
  (draw low high (behind low high s j)).1

theorem draw_behind (low high : Float32) (s : Keystream) (j : Nat) :
    draw low high (behind low high s j) = (drawn low high s j, behind low high s (j + 1)) :=
  Prod.mk.eta.symm

end Chance

/-- A segment of type 1, whatever its other numbers are. -/
def Token.bearsBerry (t : Token) : Bool :=
  match t.symbol, t.params with
  | .segment, kind :: _ => Single.truncate kind = 1
  | _, _ => false

namespace Grammar

variable {cfg : Config} {t : Token} {u word next out : List Token} {j k n : Nat}
  {s s' : Keystream}

/-- What draws nothing gives what it gives on any stream, and leaves the stream as it is. -/
theorem Still.of_eq_ok {α : Type} {x : Draw α} {a : α} (hx : Still x) (h : x s = .ok (a, s')) :
    s' = s ∧ ∀ r, x r = .ok (a, r) := by
  obtain ⟨result, hresult⟩ := hx
  rw [hresult] at h
  cases result with
  | error fault => cases h
  | ok b =>
    cases h
    exact ⟨rfl, hresult⟩

/-- From a range of two ends a berry is drawn, or the range is too wide. -/
theorem berrySize_eq_ok_iff (hlt : cfg.berrySizes.low < cfg.berrySizes.high) {size : Float32} :
    berrySize cfg s = .ok (size, s') ↔
      (cfg.berrySizes.high - cfg.berrySizes.low).isFinite = true ∧
        draw cfg.berrySizes.low cfg.berrySizes.high s = (size, s') := by
  simp only [berrySize, hlt, not_true_eq_false, if_false]
  split
  · rename_i hfinite
    simp only [hfinite, Except.ok.injEq, true_and]
  · rename_i hfinite
    simp only [hfinite, reduceCtorEq, false_and]

namespace Tapered

/-- One pass, in which the berries are numbered from left to right. The numbers before and behind
the words are those of the next berry in front of the pass and behind it. -/
inductive Bears (cfg : Config) (sizes : Nat → Float32) :
    Nat → List Token → List Token → Nat → Prop where
  | nil (j : Nat) : Bears cfg sizes j [] [] j
  /-- A token that bears no berry becomes the same on every stream, and leaves it as it is. -/
  | still {j k : Nat} {t : Token} {u word next : List Token} (ht : t.bearsBerry = false)
      (hu : ∀ s, (standard .phyllotactic).replace cfg t s = .ok (u, s))
      (hrest : Bears cfg sizes j word next k) : Bears cfg sizes j (t :: word) (u ++ next) k
  /-- A segment of type 1 bears a berry of the next number, suppressed or not. -/
  | berry {j k : Nat} {kind bend pitch length width : Float32} {word next : List Token}
      (hkind : Single.truncate kind = 1)
      (hfinite : (cfg.berrySizes.high - cfg.berrySizes.low).isFinite = true)
      (hrest : Bears cfg sizes (j + 1) word next k) :
      Bears cfg sizes j (⟨.segment, [kind, bend, pitch, length, width]⟩ :: word)
        ((⟨stalk cfg bend pitch length width, suppressed cfg length, sizes j⟩ : Pedicel).word ++
          next) k

/-- So many passes, in which the berries are numbered throughout. -/
inductive Generations (cfg : Config) (sizes : Nat → Float32) :
    Nat → Nat → List Token → List Token → Nat → Prop where
  | zero (j : Nat) (word : List Token) : Generations cfg sizes 0 j word word j
  | succ {n j i k : Nat} {word next out : List Token} (hpass : Bears cfg sizes j word next i)
      (hrest : Generations cfg sizes n i next out k) : Generations cfg sizes (n + 1) j word out k

/-- The sizes of the berries, by their numbers. -/
def sizes (cfg : Config) : Nat → Float32 :=
  drawn cfg.berrySizes.low cfg.berrySizes.high (.ofSeed cfg.seed)

/-- The stream in front of a berry, by its number. -/
def streamAt (cfg : Config) : Nat → Keystream :=
  behind cfg.berrySizes.low cfg.berrySizes.high (.ofSeed cfg.seed)

theorem berrySize_streamAt_iff (hlt : cfg.berrySizes.low < cfg.berrySizes.high) {size : Float32} :
    berrySize cfg (streamAt cfg j) = .ok (size, s') ↔
      (cfg.berrySizes.high - cfg.berrySizes.low).isFinite = true ∧ size = sizes cfg j ∧
        s' = streamAt cfg (j + 1) := by
  rw [berrySize_eq_ok_iff hlt, streamAt, draw_behind, Prod.mk.injEq, @eq_comm _ size,
    @eq_comm _ s']
  rfl

/-! ### One token -/

theorem bearsBerry_segment {kind : Float32} (params : List Float32) :
    Token.bearsBerry ⟨.segment, kind :: params⟩ = decide (Single.truncate kind = 1) := rfl

theorem still_of_not_bearsBerry (ht : t.bearsBerry = false) :
    Still ((standard .phyllotactic).replace cfg t) := by
  rcases still_or_berry cfg t with hstill | ⟨_, _, _, _, _, hkind, rfl⟩
  · exact hstill
  · rw [bearsBerry_segment, decide_eq_false_iff_not] at ht
    exact absurd hkind ht

theorem berry_of_bearsBerry (ht : t.bearsBerry = true)
    (h : (standard .phyllotactic).replace cfg t s = .ok (u, s')) :
    ∃ kind bend pitch length width size,
      t = ⟨.segment, [kind, bend, pitch, length, width]⟩ ∧ Single.truncate kind = 1 ∧
      berrySize cfg s = .ok (size, s') ∧
      u = (⟨stalk cfg bend pitch length width, suppressed cfg length, size⟩ : Pedicel).word := by
  cases replace_eq_ok_iff.mp h with
  | terminal hterminal =>
    obtain ⟨symbol, params⟩ := t
    cases symbol <;> first | cases ht | cases hterminal
  | segment_plain hkind =>
    rw [bearsBerry_segment, decide_eq_true_iff, hkind] at ht
    cases ht
  | segment_berry hkind hsize => exact ⟨_, _, _, _, _, _, rfl, hkind, hsize, rfl⟩
  | _ => cases ht

/-! ### Passes -/

/-- Terminals bear nothing. -/
theorem Bears.of_reduced {sizes : Nat → Float32} (hword : Reduced word) (j : Nat) :
    Bears cfg sizes j word word j := by
  induction word with
  | nil => exact .nil j
  | cons t word ih =>
    obtain ⟨ht, hrest⟩ := List.forall_mem_cons.mp hword
    have hbears : t.bearsBerry = false := by
      obtain ⟨symbol, params⟩ := t
      cases symbol <;> first | rfl | cases ht
    exact .still hbears (fun _ => (Replaces.terminal ht).replace) (ih hrest)

theorem bears_of_pass (hlt : cfg.berrySizes.low < cfg.berrySizes.high)
    (h : pass (standard .phyllotactic) cfg word (streamAt cfg j) = .ok (next, s')) :
    ∃ k, s' = streamAt cfg k ∧ Bears cfg (sizes cfg) j word next k := by
  induction word generalizing next j with
  | nil =>
    rw [pass_nil] at h
    cases h
    exact ⟨j, rfl, .nil j⟩
  | cons t word ih =>
    obtain ⟨u, s₁, v, hu, hv, rfl⟩ := pass_cons_eq_ok_iff.mp h
    cases ht : t.bearsBerry with
    | false =>
      obtain ⟨rfl, hall⟩ := (still_of_not_bearsBerry ht).of_eq_ok hu
      obtain ⟨k, hs', hrest⟩ := ih hv
      exact ⟨k, hs', .still ht hall hrest⟩
    | true =>
      obtain ⟨_, _, _, _, _, _, rfl, hkind, hsize, rfl⟩ := berry_of_bearsBerry ht hu
      obtain ⟨hfinite, rfl, rfl⟩ := (berrySize_streamAt_iff hlt).mp hsize
      obtain ⟨k, hs', hrest⟩ := ih hv
      exact ⟨k, hs', .berry hkind hfinite hrest⟩

theorem Bears.pass (hlt : cfg.berrySizes.low < cfg.berrySizes.high)
    (h : Bears cfg (sizes cfg) j word next k) :
    pass (standard .phyllotactic) cfg word (streamAt cfg j) = .ok (next, streamAt cfg k) := by
  induction h with
  | nil => rfl
  | still _ hu _ ih => exact pass_cons_eq_ok_iff.mpr ⟨_, _, _, hu _, ih, rfl⟩
  | @berry j _ kind bend pitch length width _ _ hkind hfinite _ ih =>
    have hsize : berrySize cfg (streamAt cfg j) = .ok (sizes cfg j, streamAt cfg (j + 1)) :=
      (berrySize_streamAt_iff hlt).mpr ⟨hfinite, rfl, rfl⟩
    have hsegment : Replaces cfg ⟨.segment, [kind, bend, pitch, length, width]⟩ (streamAt cfg j)
        (⟨stalk cfg bend pitch length width, suppressed cfg length, sizes cfg j⟩ : Pedicel).word
        (streamAt cfg (j + 1)) := .segment_berry hkind hsize
    exact pass_cons_eq_ok_iff.mpr ⟨_, _, _, hsegment.replace, ih, rfl⟩

/-- **Passes number their berries**: where the stream stands tells how many there were. -/
theorem rounds_eq_ok_iff (hlt : cfg.berrySizes.low < cfg.berrySizes.high) :
    rounds (standard .phyllotactic) cfg n word (streamAt cfg j) = .ok (out, s') ↔
      ∃ k, s' = streamAt cfg k ∧ Generations cfg (sizes cfg) n j word out k := by
  induction n generalizing word j with
  | zero =>
    apply Iff.intro
    · intro h
      cases h
      exact ⟨j, rfl, .zero j out⟩
    · intro h
      obtain ⟨k, rfl, hzero⟩ := h
      cases hzero
      rfl
  | succ n ih =>
    rw [rounds_succ]
    apply Iff.intro
    · intro h
      cases hpass : pass (standard .phyllotactic) cfg word (streamAt cfg j) with
      | error fault =>
        rw [hpass] at h
        cases h
      | ok a =>
        obtain ⟨next, s₁⟩ := a
        obtain ⟨i, rfl, hbears⟩ := bears_of_pass hlt hpass
        rw [hpass] at h
        obtain ⟨k, hs', hrest⟩ := ih.mp h
        exact ⟨k, hs', .succ hbears hrest⟩
    · intro h
      obtain ⟨k, hs', hsucc⟩ := h
      cases hsucc with
      | succ hbears hrest =>
        rw [hbears.pass hlt]
        exact ih.mpr ⟨k, hs', hrest⟩

theorem Generations.split {sizes : Nat → Float32} {m : Nat}
    (h : Generations cfg sizes (m + n) j word out k) :
    ∃ mid i, Generations cfg sizes m j word mid i ∧ Generations cfg sizes n i mid out k := by
  induction m generalizing j word with
  | zero =>
    rw [Nat.zero_add] at h
    exact ⟨word, j, .zero j word, h⟩
  | succ m ih =>
    rw [Nat.succ_add] at h
    cases h with
    | succ hpass hrest =>
      obtain ⟨mid, i, hfirst, hsecond⟩ := ih hrest
      exact ⟨mid, i, .succ hpass hfirst, hsecond⟩

end Tapered

end Grammar

namespace LSystem

variable {cfg : Config} {sys : LSystem}

theorem expand_eq_ok_iff_generations (hsys : standard cfg = .ok sys)
    (hv : cfg.variant = .phyllotactic) (hlt : cfg.berrySizes.low < cfg.berrySizes.high)
    {word out : List Token} {n : Nat} :
    sys.expand word n = .ok out ↔
      ∃ k, Tapered.Generations cfg (Tapered.sizes cfg) n 0 word out k := by
  obtain ⟨_, rfl⟩ := standard_eq_ok_iff.mp hsys
  rw [expand_eq_ok_iff]
  simp only [passes_eq_rounds, hv]
  have hrounds := @Tapered.rounds_eq_ok_iff cfg word out 0 n
  apply Iff.intro
  · intro h
    obtain ⟨s, hs⟩ := h
    obtain ⟨k, _, hk⟩ := (hrounds hlt).mp hs
    exact ⟨k, hk⟩
  · intro h
    obtain ⟨k, hk⟩ := h
    exact ⟨_, (hrounds hlt).mpr ⟨k, rfl, hk⟩⟩

/-- **Berries take the sizes of the stream in the order in which their segments are replaced**: by
generation, and from left to right in each. How many generations follow makes no difference to the
sizes that are drawn in the first of them. -/
theorem expand_draws_in_order (hsys : standard cfg = .ok sys) (hv : cfg.variant = .phyllotactic)
    (hlt : cfg.berrySizes.low < cfg.berrySizes.high) :
    (∀ word n out, sys.expand word n = .ok out ↔
      ∃ k, Tapered.Generations cfg (Tapered.sizes cfg) n 0 word out k) ∧
    ∀ word m n out, sys.expand word (m + n) = .ok out →
      ∃ mid i k, sys.expand word m = .ok mid ∧
        Tapered.Generations cfg (Tapered.sizes cfg) m 0 word mid i ∧
        Tapered.Generations cfg (Tapered.sizes cfg) n i mid out k := by
  refine ⟨fun word n out => expand_eq_ok_iff_generations hsys hv hlt, fun word m n out h => ?_⟩
  obtain ⟨k, hk⟩ := (expand_eq_ok_iff_generations hsys hv hlt).mp h
  obtain ⟨mid, i, hfirst, hsecond⟩ := hk.split
  exact ⟨mid, i, k, (expand_eq_ok_iff_generations hsys hv hlt).mpr ⟨i, hfirst⟩, hfirst, hsecond⟩

/-- Under the preset in space, the segment behind a bud is replaced in the generation in which the
bud becomes a segment. Its berry has the first size, though a `%` swallows it, and the berry in
front of it, which is born a generation later, the second. -/
theorem expand_draws_in_order_late : ∃ sys,
    standard .phyllotactic = .ok sys ∧
    sys.expand [.bud .pedicel [1, 1], ⟨.segment, [1, 0, 0, 3, 1]⟩] 2 =
      .ok ((⟨Tapered.stalk .phyllotactic 0 0 1 1, false,
          Tapered.sizes .phyllotactic 1⟩ : Pedicel).word ++
        (⟨Tapered.stalk .phyllotactic 0 0 3 1, true,
          Tapered.sizes .phyllotactic 0⟩ : Pedicel).word) := by
  have hsys := @standard_of_valid .phyllotactic (by decide)
  have hexpand := (expand_draws_in_order hsys rfl (by decide)).1
  have hkind : Single.truncate 1 = 1 := by decide
  have hfinite : ((3 : Float32) - 2).isFinite = true := by decide
  have hkept : Tapered.suppressed .phyllotactic 1 = false := by decide
  have hsuppressed : Tapered.suppressed .phyllotactic 3 = true := by decide
  generalize Tapered.sizes .phyllotactic = sizes at hexpand
  have hlate : Tapered.Bears .phyllotactic sizes 0 [⟨.segment, [1, 0, 0, 3, 1]⟩]
      (Pedicel.word ⟨Tapered.stalk .phyllotactic 0 0 3 1, true, sizes 0⟩) 1 := by
    have hberry := @Tapered.Bears.berry .phyllotactic sizes 0 1 1 0 0 3 1 [] [] hkind hfinite
      (.nil 1)
    rwa [hsuppressed, List.append_nil] at hberry
  have hpass : Tapered.Bears .phyllotactic sizes 0
      [.bud .pedicel [1, 1], ⟨.segment, [1, 0, 0, 3, 1]⟩] _ 1 :=
    .still rfl (fun _ => Tapered.Replaces.pedicel.replace) hlate
  have hearly : Tapered.Bears .phyllotactic sizes 1 (⟨.segment, [1, 0, 0, 1, 1]⟩ ::
      Pedicel.word ⟨Tapered.stalk .phyllotactic 0 0 3 1, true, sizes 0⟩) _ 2 :=
    .berry hkind hfinite (.of_reduced (reduced_pedicel _) 2)
  rw [hkept] at hearly
  exact ⟨_, hsys, (hexpand _ 2 _).mpr ⟨2, .succ hpass (.succ hearly (.zero 2 _))⟩⟩

end LSystem

end Grapevine
