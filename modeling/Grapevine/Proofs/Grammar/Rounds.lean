import Grapevine.Proofs.Grammar.Threshold

/-! Stopping early.

A derivation does not begin a pass when nothing is left to replace. It could as well run every pass
(`passes_eq_rounds`), or count what each of them replaces and stop behind the first that replaced
nothing (`passes_eq_untilIdle`): whatever the productions are, a pass over a reduced word copies it,
and does not read the stream of random words. So a reduced word is final
(`LSystem.expand_eq_rounds`), while a word that a pass only repeats is passed over again. -/
namespace Grapevine

open Chance Grammar

namespace Grammar

variable {g : Grammar} {cfg : Config} {word : List Token}

/-- As many passes as there are generations, also over a reduced word. -/
def rounds (g : Grammar) (cfg : Config) : Nat → List Token → Draw (List Token)
  | 0, word => pure word
  | n + 1, word => do
    let next ← pass g cfg word
    rounds g cfg n next

/-- A pass that counts the tokens it replaces. -/
def countingPass (g : Grammar) (cfg : Config) : List Token → Draw (List Token × Nat)
  | [] => pure ([], 0)
  | t :: word => do
    let u ← g.replace cfg t
    let (next, count) ← countingPass g cfg word
    return (u ++ next, if t.isNonterminal then count + 1 else count)

/-- Passes up to the first that replaces nothing, and no more than there are generations. -/
def untilIdle (g : Grammar) (cfg : Config) : Nat → List Token → Draw (List Token)
  | 0, word => pure word
  | n + 1, word => do
    let (next, count) ← countingPass g cfg word
    if count = 0 then pure next else untilIdle g cfg n next

/-! ### Every pass -/

theorem pass_of_reduced (h : Reduced word) (s : Keystream) : pass g cfg word s = .ok (word, s) := by
  induction word with
  | nil => rfl
  | cons t word ih =>
    obtain ⟨ht, hword⟩ := List.forall_mem_cons.mp h
    rw [pass_cons, replace_terminal g cfg ht]
    show Except.map _ (pass g cfg word s) = _
    rw [ih hword]
    rfl

theorem rounds_succ (n : Nat) (word : List Token) (s : Keystream) :
    rounds g cfg (n + 1) word s =
      (pass g cfg word s).bind fun (next, s) => rounds g cfg n next s := rfl

/-- Rounds can be made in two parts. -/
theorem rounds_add (m n : Nat) (word : List Token) (s : Keystream) :
    rounds g cfg (m + n) word s =
      (rounds g cfg m word s).bind fun (next, s) => rounds g cfg n next s := by
  induction m generalizing word s with
  | zero => rw [Nat.zero_add]; rfl
  | succ m ih =>
    rw [Nat.succ_add, rounds_succ, rounds_succ]
    cases pass g cfg word s with
    | error fault => rfl
    | ok a => exact ih a.1 a.2

theorem rounds_of_reduced (h : Reduced word) (n : Nat) (s : Keystream) :
    rounds g cfg n word s = .ok (word, s) := by
  induction n with
  | zero => rfl
  | succ n ih =>
    rw [rounds_succ, pass_of_reduced h]
    exact ih

/-- To stop at a word of terminals saves work only. -/
theorem passes_eq_rounds (n : Nat) (word : List Token) (s : Keystream) :
    passes g cfg n word s = rounds g cfg n word s := by
  induction n generalizing word s with
  | zero => rfl
  | succ n ih =>
    by_cases hred : Reduced word
    · rw [passes_of_reduced hred, rounds_of_reduced hred]
    · rw [passes_succ hred, rounds_succ]
      cases pass g cfg word s with
      | error fault => rfl
      | ok a => exact ih a.1 a.2

/-! ### Counting -/

/-- Replaced are the non-terminals, also by themselves or by nothing. -/
theorem countingPass_eq (word : List Token) (s : Keystream) :
    countingPass g cfg word s =
      (pass g cfg word s).map fun (next, s) => ((next, word.countP Token.isNonterminal), s) := by
  induction word generalizing s with
  | nil => rfl
  | cons t word ih =>
    rw [pass_cons, List.countP_cons]
    show (g.replace cfg t s).bind (fun a => (countingPass g cfg word a.2).bind fun b => _) = _
    cases g.replace cfg t s with
    | error fault => rfl
    | ok a =>
      show (countingPass g cfg word a.2).bind _ = Except.map _ (Except.map _ (pass g cfg word a.2))
      rw [ih]
      cases pass g cfg word a.2 with
      | error fault => rfl
      | ok b =>
        cases ht : t.isNonterminal <;> rfl

theorem countP_eq_zero_iff : word.countP Token.isNonterminal = 0 ↔ Reduced word := by
  simp [List.countP_eq_zero, Reduced]

/-- To stop at a pass that has replaced nothing saves work only, as well. -/
theorem passes_eq_untilIdle (n : Nat) (word : List Token) (s : Keystream) :
    passes g cfg n word s = untilIdle g cfg n word s := by
  induction n generalizing word s with
  | zero => rfl
  | succ n ih =>
    have huntil : untilIdle g cfg (n + 1) word s =
        (countingPass g cfg word s).bind fun a =>
          (if a.1.2 = 0 then pure a.1.1 else untilIdle g cfg n a.1.1 : Draw (List Token)) a.2 := rfl
    rw [huntil, countingPass_eq]
    by_cases hred : Reduced word
    · rw [passes_of_reduced hred, pass_of_reduced hred, countP_eq_zero_iff.mpr hred]
      rfl
    · rw [passes_succ hred]
      cases pass g cfg word s with
      | error fault => rfl
      | ok a =>
        have hcount : word.countP Token.isNonterminal ≠ 0 := mt countP_eq_zero_iff.mp hred
        show passes g cfg n a.1 a.2 = (if _ = 0 then _ else _ : Draw (List Token)) a.2
        rw [if_neg hcount]
        exact ih a.1 a.2

end Grammar

/-! ### Expansions -/

theorem reduced_of_checkReduced {word : List Token} (h : checkReduced word = .ok ()) :
    Reduced word := by
  by_contra hred
  obtain ⟨_, _, _, herror⟩ := checkReduced_of_not_reduced hred
  rw [h] at herror
  cases herror

namespace LSystem

/-- **It makes no difference that an expansion stops early**, under any productions: its result, or
its fault, is that of all its passes in turn, on one stream, and that of passes which stop behind
the first idle one. Once reduced, a word is the same in every later generation. -/
theorem expand_eq_rounds (sys : LSystem) (word : List Token) (n : Nat) :
    sys.expand word n =
      (rounds sys.grammar sys.config n word).run' (.ofSeed sys.config.seed) ∧
    sys.expand word n =
      (untilIdle sys.grammar sys.config n word).run' (.ofSeed sys.config.seed) ∧
    ∀ out, sys.expand word n = .ok out → checkReduced out = .ok () →
      ∀ m, n ≤ m → sys.expand word m = .ok out := by
  refine ⟨?_, ?_, fun out hout hcheck m hnm => ?_⟩
  · exact congrArg (Except.map Prod.fst) (passes_eq_rounds n word _)
  · exact congrArg (Except.map Prod.fst) (passes_eq_untilIdle n word _)
  · obtain ⟨k, rfl⟩ := Nat.exists_eq_add_of_le hnm
    obtain ⟨s, hpasses⟩ := expand_eq_ok_iff.mp hout
    refine expand_eq_ok_iff.mpr ⟨s, ?_⟩
    rw [passes_eq_rounds] at hpasses
    rw [passes_eq_rounds, rounds_add, hpasses]
    exact rounds_of_reduced (reduced_of_checkReduced hcheck) k s

/-- Under a rule that erases tips, one generation leaves nothing of them, nor do the next 99. -/
theorem expand_eq_rounds_erased : ∃ sys,
    make .planar (Grammar.empty.insert .tip fun _ _ => pure []) = .ok sys ∧
      sys.expand [.bud .tip [], .bare .forward, .bud .tip [40]] 100 = .ok [.bare .forward] := by
  refine ⟨_, make_of_valid (by decide), ?_⟩
  exact (expand_eq_rounds _ _ 1).2.2 _ rfl rfl 100 (by decide)

end LSystem

end Grapevine
