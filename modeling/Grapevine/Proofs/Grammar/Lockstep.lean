import Grapevine.Proofs.Grammar.Rounds

/-! Two derivations side by side.

Two computations `Concur` if they end in the same fault, or in results that are related. If tokens
that are related are replaced in concurrence, from any two streams that are related, then whole
derivations concur (`LSystem.expand_concur`, `LSystem.derive_concur`): the passes of both stay in
step, because neither looks at more than the other can see. -/
namespace Grapevine

open Chance Grammar

/-- Two computations end alike: in one and the same fault, or in results that are related. -/
inductive Concur {α β : Type} (R : α → β → Prop) : Except Fault α → Except Fault β → Prop where
  | fault (fault : Fault) : Concur R (.error fault) (.error fault)
  | result {a : α} {b : β} (h : R a b) : Concur R (.ok a) (.ok b)

namespace Concur

variable {α β γ δ : Type} {R : α → β → Prop} {S : γ → δ → Prop} {x : Except Fault α}
  {y : Except Fault β}

theorem bind {f : α → Except Fault γ} {f' : β → Except Fault δ} (h : Concur R x y)
    (hf : ∀ a b, R a b → Concur S (f a) (f' b)) : Concur S (x.bind f) (y.bind f') := by
  cases h with
  | fault fault => exact .fault fault
  | result hab => exact hf _ _ hab

theorem map {f : α → γ} {f' : β → δ} (h : Concur R x y) (hf : ∀ a b, R a b → S (f a) (f' b)) :
    Concur S (x.map f) (y.map f') := by
  cases h with
  | fault fault => exact .fault fault
  | result hab => exact .result (hf _ _ hab)

theorem eq {x y : Except Fault α} (h : Concur Eq x y) : x = y := by
  cases h with
  | fault => rfl
  | result hab => rw [hab]

end Concur

namespace Grammar

variable {g g' : Grammar} {cfg cfg' : Config} {S : Keystream → Keystream → Prop}
  {T : Token → Token → Prop} {word word' : List Token}

/-- From streams that are related, two computations concur, and leave related streams. -/
def Lockstep {α β : Type} (S : Keystream → Keystream → Prop) (R : α → β → Prop) (x : Draw α)
    (y : Draw β) : Prop :=
  ∀ s s', S s s' → Concur (fun a b => R a.1 b.1 ∧ S a.2 b.2) (x s) (y s')

/-- The streams may be any two. -/
def AnyStreams : Keystream → Keystream → Prop := fun _ _ => True

theorem Lockstep.refl {α : Type} (x : Draw α) : Lockstep Eq Eq x x := by
  rintro s _ rfl
  cases x s with
  | error fault => exact .fault fault
  | ok a => exact .result ⟨rfl, rfl⟩

/-- Passes stay in step if replacements do. -/
theorem lockstep_pass
    (hreplace : ∀ t t', T t t' →
      Lockstep S (List.Forall₂ T) (g.replace cfg t) (g'.replace cfg' t'))
    (h : List.Forall₂ T word word') :
    Lockstep S (List.Forall₂ T) (pass g cfg word) (pass g' cfg' word') := by
  induction h with
  | nil => exact fun s s' hs => .result ⟨.nil, hs⟩
  | cons ht _ ih =>
    intro s s' hs
    rw [pass_cons, pass_cons]
    refine (hreplace _ _ ht s s' hs).bind fun a b hab => ?_
    exact (ih a.2 b.2 hab.2).map fun c d hcd => ⟨List.rel_append hab.1 hcd.1, hcd.2⟩

/-- Passes that keep words and streams related do so again and again. -/
theorem lockstep_passes {W : List Token → List Token → Prop}
    (hpass : ∀ word word', W word word' → Lockstep S W (pass g cfg word) (pass g' cfg' word'))
    (h : W word word') (n : Nat) :
    Lockstep S W (passes g cfg n word) (passes g' cfg' n word') := by
  intro s s' hs
  rw [passes_eq_rounds, passes_eq_rounds]
  induction n generalizing word word' s s' with
  | zero => exact .result ⟨h, hs⟩
  | succ n ih =>
    rw [rounds_succ, rounds_succ]
    exact (hpass _ _ h s s' hs).bind fun a b hab => ih hab.1 a.2 b.2 hab.2

/-- Unequal tokens are related only if both are terminals. -/
def KeepsBuds (T : Token → Token → Prop) : Prop :=
  ∀ t t', T t t' → t = t' ∨ t.isNonterminal = false ∧ t'.isNonterminal = false

/-- The check finds the same fault in words that are in step. -/
theorem checkReduced_eq (hT : KeepsBuds T) (h : List.Forall₂ T word word') :
    checkReduced word = checkReduced word' := by
  have hfind : ∀ k, (word.zipIdx k).find? (·.1.isNonterminal) =
      (word'.zipIdx k).find? (·.1.isNonterminal) := by
    induction h with
    | nil => exact fun _ => rfl
    | cons ht _ ih =>
      intro k
      rw [List.zipIdx_cons, List.zipIdx_cons, List.find?_cons, List.find?_cons, ih]
      rcases hT _ _ ht with rfl | ⟨hterminal, hterminal'⟩
      · rfl
      · rw [hterminal, hterminal']
  rw [checkReduced, checkReduced, hfind]

end Grammar

namespace LSystem

variable {sys sys' : LSystem} {S : Keystream → Keystream → Prop} {T : Token → Token → Prop}
  {word word' : List Token} {n : Nat}

/-- **Expansions concur if single tokens do.** -/
theorem expand_concur
    (hreplace : ∀ t t', T t t' → Lockstep S (List.Forall₂ T) (sys.grammar.replace sys.config t)
      (sys'.grammar.replace sys'.config t'))
    (hseed : S (.ofSeed sys.config.seed) (.ofSeed sys'.config.seed))
    (hword : List.Forall₂ T word word') :
    Concur (List.Forall₂ T) (sys.expand word n) (sys'.expand word' n) :=
  (lockstep_passes (fun _ _ => lockstep_pass hreplace) hword n _ _ hseed).map fun _ _ => And.left

/-- Where tokens become the same, so do words. -/
theorem expand_eq_of_lockstep
    (hreplace : ∀ t, Lockstep S Eq (sys.grammar.replace sys.config t)
      (sys'.grammar.replace sys'.config t))
    (hseed : S (.ofSeed sys.config.seed) (.ofSeed sys'.config.seed)) (word : List Token) (n : Nat) :
    sys.expand word n = sys'.expand word n := by
  have hconcur := @expand_concur sys sys' S Eq word word n
  rw [List.forall₂_eq_eq_eq] at hconcur
  refine (hconcur ?_ hseed rfl).eq
  rintro t _ rfl
  exact hreplace t

/-- So do derivations from the same start. -/
theorem derive_concur (hT : KeepsBuds T)
    (hexpand : Concur (List.Forall₂ T) (sys.expand [sys.config.start] n)
      (sys'.expand [sys'.config.start] n)) :
    Concur (List.Forall₂ T) (sys.derive n) (sys'.derive n) := by
  refine hexpand.bind fun word word' hword => ?_
  rw [checkReduced_eq hT hword]
  cases checkReduced word' with
  | error fault => exact .fault fault
  | ok => exact .result hword

end LSystem

end Grapevine
