import Grapevine.Proofs.Grammar.DepthFirst
import Grapevine.Proofs.Grammar.Rounds

/-! Generations in two goes.

Every expansion starts the stream of random words anew. A second expansion behind a first one
therefore draws again what the first has drawn, and the two are not one expansion of both lengths,
unless nothing is drawn: then the stream is where it was behind any number of passes
(`still_rounds`), and generations can be parted anywhere (`LSystem.expand_add`). -/
namespace Grapevine

open Chance Grammar

namespace Grammar

variable {g : Grammar} {cfg : Config} {word : List Token} {fault : Fault}

theorem Still.bind {α β : Type} {x : Draw α} {f : α → Draw β} (hx : Still x)
    (hf : ∀ a, Still (f a)) : Still (x >>= f) := by
  obtain ⟨result, hresult⟩ := hx
  cases result with
  | error fault =>
    refine ⟨.error fault, fun s => ?_⟩
    show (x s).bind _ = _
    rw [hresult]
    rfl
  | ok a =>
    obtain ⟨rest, hrest⟩ := hf a
    refine ⟨rest, fun s => ?_⟩
    show (x s).bind _ = _
    rw [hresult]
    exact hrest s

theorem still_pure {α : Type} (a : α) : Still (pure a : Draw α) := ⟨.ok a, fun _ => rfl⟩

/-- A pass of rules that draw nothing draws nothing. -/
theorem still_pass (hg : Drawless g cfg) (word : List Token) : Still (pass g cfg word) := by
  have hparts : Still (word.mapM (g.replace cfg)) := by
    induction word with
    | nil => exact still_pure []
    | cons t word ih =>
      rw [List.mapM_cons]
      exact (hg t).bind fun _ => ih.bind fun _ => still_pure _
  exact hparts.bind fun _ => still_pure _

theorem still_rounds (hg : Drawless g cfg) (n : Nat) (word : List Token) :
    Still (rounds g cfg n word) := by
  induction n generalizing word with
  | zero => exact still_pure word
  | succ n ih => exact (still_pass hg word).bind ih

theorem drawless_standard
    (h : cfg.variant = .phyllotactic → (cfg.berrySizes.low == cfg.berrySizes.high) = true) :
    Drawless (standard cfg.variant) cfg := by
  cases hv : cfg.variant with
  | planar => exact Planar.drawless
  | phyllotactic => exact Tapered.drawless (h hv)

/-! ### Which fault it is -/

/-- From left to right, the first token that cannot be replaced is refused for this fault. -/
inductive FirstFault (g : Grammar) (cfg : Config) : List Token → Fault → Prop where
  | here {t : Token} {word : List Token} {fault : Fault} (h : alone g cfg t = .error fault) :
      FirstFault g cfg (t :: word) fault
  | later {t : Token} {u word : List Token} {fault : Fault} (h : alone g cfg t = .ok u)
      (hrest : FirstFault g cfg word fault) : FirstFault g cfg (t :: word) fault

theorem firstFault_cons {t : Token} :
    FirstFault g cfg (t :: word) fault ↔
      alone g cfg t = .error fault ∨
        (∃ u, alone g cfg t = .ok u) ∧ FirstFault g cfg word fault := by
  apply Iff.intro
  · intro h
    cases h with
    | here ht => exact .inl ht
    | later ht hrest => exact .inr ⟨⟨_, ht⟩, hrest⟩
  · intro h
    rcases h with ht | ⟨⟨u, ht⟩, hrest⟩
    · exact .here ht
    · exact .later ht hrest

/-- A pass fails at the first token that cannot be replaced. -/
theorem pass_eq_error_iff (hg : Drawless g cfg) (s : Keystream) :
    pass g cfg word s = .error fault ↔ FirstFault g cfg word fault := by
  induction word generalizing s with
  | nil =>
    apply Iff.intro <;> intro h <;> cases h
  | cons t word ih =>
    rw [pass_cons, replace_of_drawless hg, firstFault_cons]
    cases alone g cfg t with
    | error first => simp [Except.map, Except.bind]
    | ok u =>
      rw [← ih s]
      show Except.map _ (pass g cfg word s) = _ ↔ _
      cases pass g cfg word s <;> simp [Except.map]

theorem rounds_succ_last (n : Nat) (word : List Token) (s : Keystream) :
    rounds g cfg (n + 1) word s =
      (rounds g cfg n word s).bind fun (next, s) => pass g cfg next s := by
  have hone : ∀ next s, rounds g cfg 1 next s = pass g cfg next s := by
    intro next s
    rw [rounds_succ]
    cases pass g cfg next s <;> rfl
  simp only [rounds_add n 1, hone]

/-- Passes fail as the earliest does that fails. -/
theorem rounds_eq_error_iff (n : Nat) (s : Keystream) :
    rounds g cfg n word s = .error fault ↔
      ∃ k < n, ∃ next s', rounds g cfg k word s = .ok (next, s') ∧
        pass g cfg next s' = .error fault := by
  induction n with
  | zero =>
    apply Iff.intro
    · intro h
      cases h
    · intro h
      obtain ⟨k, hk, _⟩ := h
      exact absurd hk (Nat.not_lt_zero k)
  | succ n ih =>
    rw [rounds_succ_last, Nat.exists_lt_succ_right, ← ih]
    cases rounds g cfg n word s with
    | error first => simp [Except.bind]
    | ok a =>
      obtain ⟨next, s'⟩ := a
      simp only [Except.bind, reduceCtorEq, false_or, Except.ok.injEq, Prod.mk.injEq]
      apply Iff.intro
      · exact fun h => ⟨next, s', ⟨rfl, rfl⟩, h⟩
      · intro h
        obtain ⟨_, _, ⟨rfl, rfl⟩, h⟩ := h
        exact h

end Grammar

namespace LSystem

variable {sys : LSystem}

theorem expand_eq_run_rounds (word : List Token) (n : Nat) :
    sys.expand word n =
      (rounds sys.grammar sys.config n word (.ofSeed sys.config.seed)).map Prod.fst :=
  congrArg (Except.map Prod.fst) (passes_eq_rounds n word _)

/-- Behind any number of generations, the stream stands at its start. -/
theorem rounds_of_expand (h : Drawless sys.grammar sys.config) (word : List Token) (n : Nat) :
    rounds sys.grammar sys.config n word (.ofSeed sys.config.seed) =
      (sys.expand word n).map fun next => (next, .ofSeed sys.config.seed) := by
  obtain ⟨result, hresult⟩ := still_rounds h n word
  rw [expand_eq_run_rounds, hresult]
  cases result <;> rfl

/-- Without draws, an expansion can be interrupted and begun again. -/
theorem expand_of_parted (h : Drawless sys.grammar sys.config) (word : List Token) (m n : Nat) :
    sys.expand word (m + n) = (sys.expand word m).bind fun next => sys.expand next n := by
  rw [expand_eq_run_rounds, rounds_add, rounds_of_expand h]
  cases sys.expand word m with
  | error fault => rfl
  | ok next => exact (expand_eq_run_rounds next n).symm

/-- Without draws, an expansion fails at the first fault of the first pass that has one. -/
theorem expand_eq_error_iff_firstFault (h : Drawless sys.grammar sys.config) {word : List Token}
    {n : Nat} {fault : Fault} :
    sys.expand word n = .error fault ↔
      ∃ k < n, ∃ next, sys.expand word k = .ok next ∧
        FirstFault sys.grammar sys.config next fault := by
  rw [expand_eq_error_iff, passes_eq_rounds, rounds_eq_error_iff]
  simp only [rounds_of_expand h, pass_eq_error_iff h]
  refine exists_congr fun k => and_congr_right fun _ => ?_
  cases sys.expand word k <;> simp [Except.map]

/-- **Generations compose where nothing is drawn**: an expansion goes on from what another has left
as if there had been one of both lengths, to the same result or the same fault. That fault is the
first one of the earliest generation that has any. -/
theorem expand_add :
    (∀ cfg : Config,
      (cfg.variant = .phyllotactic → (cfg.berrySizes.low == cfg.berrySizes.high) = true) →
        Drawless (Grammar.standard cfg.variant) cfg) ∧
    ∀ sys : LSystem, Drawless sys.grammar sys.config → ∀ word,
      (∀ m n, sys.expand word (m + n) = (sys.expand word m).bind fun next => sys.expand next n) ∧
      ∀ n fault, sys.expand word n = .error fault ↔
        ∃ k < n, ∃ next, sys.expand word k = .ok next ∧
          FirstFault sys.grammar sys.config next fault :=
  ⟨fun _ hsizes => drawless_standard hsizes, fun _ h word =>
    ⟨expand_of_parted h word, fun _ _ => expand_eq_error_iff_firstFault h⟩⟩

/-- With berries of one size, the start of the preset in space takes ten generations at once or in
two goes; a tip without a width is refused in the first, in front of an axis without any numbers. -/
theorem expand_add_one_size : ∃ sys,
    standard { Config.phyllotactic with berrySizes := ⟨3, 3⟩ } = .ok sys ∧
    (sys.expand [sys.config.start] (4 + 6) =
      (sys.expand [sys.config.start] 4).bind fun next => sys.expand next 6) ∧
    sys.expand [.bud .pedicel [1, 1], .bud .tip [0.3], .bud .root []] 5 =
      .error (.arity (.bud .tip) 2 1) := by
  have hsys := @standard_of_valid { Config.phyllotactic with berrySizes := ⟨3, 3⟩ } (by decide)
  obtain ⟨hdrawless, hexpand⟩ := expand_add
  have hnone := hdrawless { Config.phyllotactic with berrySizes := ⟨3, 3⟩ } fun _ => by decide
  refine ⟨_, hsys, (hexpand _ hnone _).1 4 6, ?_⟩
  exact ((hexpand ⟨_, _, _⟩ hnone _).2 5 _).mpr
    ⟨0, by decide, _, rfl, .later rfl (.here rfl)⟩

end LSystem

end Grapevine
