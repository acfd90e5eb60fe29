import Mathlib
import Grapevine.LSystem

/-! Passes, token by token.

A pass goes through a word from left to right, and all that one token learns of those before it is
how far the stream of random words was read. `Produces` forgets the stream: it relates a token to
whatever some stream lets it become. `Derives` does so for words and any number of passes; it splits
where the word splits (`derives_append`), and holds of whatever the passes give
(`derives_of_passes`). -/
namespace Grapevine.Grammar

open Chance

variable {g : Grammar} {cfg : Config}

/-! ### One pass -/

theorem pass_nil (s : Keystream) : pass g cfg [] s = .ok ([], s) := rfl

theorem pass_cons (t : Token) (word : List Token) (s : Keystream) :
    pass g cfg (t :: word) s =
      (g.replace cfg t s).bind fun (u, s) => (pass g cfg word s).map fun (v, s) => (u ++ v, s) := by
  simp only [pass, List.mapM_cons, bind, StateT.bind, Except.bind, pure, StateT.pure, Except.pure]
  cases g.replace cfg t s with
  | error fault => rfl
  | ok a =>
    simp only
    cases word.mapM (g.replace cfg) a.2 <;> rfl

theorem pass_cons_eq_ok_iff {t : Token} {word out : List Token} {s s' : Keystream} :
    pass g cfg (t :: word) s = .ok (out, s') ↔
      ∃ u s₁ v, g.replace cfg t s = .ok (u, s₁) ∧ pass g cfg word s₁ = .ok (v, s') ∧
        out = u ++ v := by
  rw [pass_cons]
  cases hu : g.replace cfg t s with
  | error fault => simp [Except.bind]
  | ok a =>
    obtain ⟨u, s₁⟩ := a
    cases hv : pass g cfg word s₁ with
    | error fault => simp [Except.bind, Except.map, hv]
    | ok b =>
      obtain ⟨v, s₂⟩ := b
      simp only [Except.bind, Except.map, hv, Except.ok.injEq, Prod.mk.injEq]
      apply Iff.intro
      · intro heq
        obtain ⟨rfl, rfl⟩ := heq
        exact ⟨u, s₁, v, ⟨rfl, rfl⟩, hv, rfl⟩
      · intro hparts
        obtain ⟨_, _, _, ⟨rfl, rfl⟩, hv', rfl⟩ := hparts
        rw [hv] at hv'
        cases hv'
        exact ⟨rfl, rfl⟩

/-! ### Any number of passes -/

/-- No token of the word is left to be replaced. -/
def Reduced (word : List Token) : Prop := ∀ t ∈ word, t.isNonterminal = false

theorem reduced_append {u v : List Token} : Reduced (u ++ v) ↔ Reduced u ∧ Reduced v :=
  List.forall_mem_append

theorem any_isNonterminal_eq_false_iff {word : List Token} :
    word.any Token.isNonterminal = false ↔ Reduced word := by
  simp [Reduced]

/-- Passes over terminals change nothing. -/
theorem passes_of_reduced {word : List Token} (h : Reduced word) (n : Nat) (s : Keystream) :
    passes g cfg n word s = .ok (word, s) := by
  cases n with
  | zero => rfl
  | succ n =>
    rw [passes, any_isNonterminal_eq_false_iff.mpr h]
    rfl

theorem passes_succ {word : List Token} (h : ¬ Reduced word) (n : Nat) (s : Keystream) :
    passes g cfg (n + 1) word s =
      (pass g cfg word s).bind fun (next, s) => passes g cfg n next s := by
  have hany : word.any Token.isNonterminal = true :=
    Bool.of_not_eq_false fun hf => h (any_isNonterminal_eq_false_iff.mp hf)
  rw [passes, hany]
  rfl

theorem passes_succ_eq_ok_iff {word out : List Token} (h : ¬ Reduced word) {n : Nat}
    {s s' : Keystream} :
    passes g cfg (n + 1) word s = .ok (out, s') ↔
      ∃ next s₁, pass g cfg word s = .ok (next, s₁) ∧ passes g cfg n next s₁ = .ok (out, s') := by
  rw [passes_succ h]
  cases hp : pass g cfg word s with
  | error fault => simp [Except.bind]
  | ok a =>
    apply Iff.intro
    · exact fun hrest => ⟨a.1, a.2, rfl, hrest⟩
    · intro hparts
      obtain ⟨_, _, ha, hrest⟩ := hparts
      cases ha
      exact hrest

/-! ### What a word can become -/

/-- A token is replaced by these, on some stream. -/
def Produces (g : Grammar) (cfg : Config) (t : Token) (u : List Token) : Prop :=
  ∃ s s', g.replace cfg t s = .ok (u, s')

theorem produces_terminal {t : Token} {u : List Token} (ht : t.isNonterminal = false) :
    Produces g cfg t u ↔ u = [t] := by
  apply Iff.intro
  · intro hproduces
    obtain ⟨s, s', h⟩ := hproduces
    rw [replace_terminal g cfg ht] at h
    cases h
    rfl
  · intro heq
    subst heq
    exact ⟨.ofSeed 0, .ofSeed 0, by rw [replace_terminal g cfg ht]; rfl⟩

/-- What is replaced alike on all streams has one replacement. -/
theorem produces_of_replace {t : Token} {u v : List Token}
    (h : ∀ s, g.replace cfg t s = .ok (u, s)) : Produces g cfg t v ↔ v = u := by
  apply Iff.intro
  · intro hproduces
    obtain ⟨s, s', hs⟩ := hproduces
    rw [h s] at hs
    cases hs
    rfl
  · intro heq
    subst heq
    exact ⟨.ofSeed 0, .ofSeed 0, h _⟩

/-- The second word can come of the first in one pass. -/
inductive Becomes (g : Grammar) (cfg : Config) : List Token → List Token → Prop where
  | nil : Becomes g cfg [] []
  | cons {t u word next} : Produces g cfg t u → Becomes g cfg word next →
      Becomes g cfg (t :: word) (u ++ next)

/-- What a pass makes of a word is something the word can become. -/
theorem becomes_of_pass {word out : List Token} {s s' : Keystream}
    (h : pass g cfg word s = .ok (out, s')) : Becomes g cfg word out := by
  induction word generalizing out s with
  | nil =>
    rw [pass_nil] at h
    cases h
    exact .nil
  | cons t word ih =>
    obtain ⟨u, s₁, v, hu, hv, rfl⟩ := pass_cons_eq_ok_iff.mp h
    exact .cons ⟨s, s₁, hu⟩ (ih hv)

theorem becomes_nil {w : List Token} : Becomes g cfg [] w ↔ w = [] := by
  apply Iff.intro
  · intro h
    cases h
    rfl
  · intro heq
    subst heq
    exact .nil

theorem becomes_cons {t : Token} {word w : List Token} :
    Becomes g cfg (t :: word) w ↔
      ∃ u next, w = u ++ next ∧ Produces g cfg t u ∧ Becomes g cfg word next := by
  apply Iff.intro
  · intro h
    cases h with
    | cons ht hrest => exact ⟨_, _, rfl, ht, hrest⟩
  · intro hparts
    obtain ⟨u, next, rfl, ht, hrest⟩ := hparts
    exact .cons ht hrest

/-- Parts of a word are replaced on their own. -/
theorem becomes_append {u v w : List Token} :
    Becomes g cfg (u ++ v) w ↔
      ∃ x y, w = x ++ y ∧ Becomes g cfg u x ∧ Becomes g cfg v y := by
  apply Iff.intro
  · induction u generalizing w with
    | nil => exact fun h => ⟨[], w, rfl, .nil, h⟩
    | cons t u ih =>
      intro h
      obtain ⟨z, next, rfl, ht, hrest⟩ := becomes_cons.mp h
      obtain ⟨x, y, rfl, hx, hy⟩ := ih hrest
      exact ⟨z ++ x, y, (List.append_assoc ..).symm, .cons ht hx, hy⟩
  · intro hparts
    obtain ⟨x, y, rfl, hx, hy⟩ := hparts
    induction hx with
    | nil => exact hy
    | cons ht _ ih =>
      rw [List.cons_append, List.append_assoc]
      exact .cons ht ih

theorem becomes_singleton {t : Token} {w : List Token} :
    Becomes g cfg [t] w ↔ Produces g cfg t w := by
  apply Iff.intro
  · intro h
    obtain ⟨u, next, rfl, ht, hrest⟩ := becomes_cons.mp h
    rwa [becomes_nil.mp hrest, List.append_nil]
  · intro ht
    rw [← List.append_nil w]
    exact .cons ht .nil

theorem becomes_reduced {u w : List Token} (hu : Reduced u) : Becomes g cfg u w ↔ w = u := by
  induction u generalizing w with
  | nil => exact becomes_nil
  | cons t u ih =>
    have ht : t.isNonterminal = false := hu t (List.mem_cons_self ..)
    have hu' : Reduced u := fun x hx => hu x (List.mem_cons_of_mem t hx)
    apply Iff.intro
    · intro h
      obtain ⟨z, next, rfl, hz, hrest⟩ := becomes_cons.mp h
      rw [(produces_terminal ht).mp hz, (ih hu').mp hrest]
      rfl
    · intro heq
      subst heq
      exact .cons (u := [t]) ((produces_terminal ht).mpr rfl) ((ih hu').mpr rfl)

/-- A pass leaves a reduced beginning as it is. -/
theorem becomes_reduced_append {u v w : List Token} (hu : Reduced u) :
    Becomes g cfg (u ++ v) w ↔ ∃ y, w = u ++ y ∧ Becomes g cfg v y := by
  rw [becomes_append]
  apply Iff.intro
  · intro hparts
    obtain ⟨x, y, rfl, hx, hy⟩ := hparts
    exact ⟨y, by rw [(becomes_reduced hu).mp hx], hy⟩
  · intro hrest
    obtain ⟨y, rfl, hy⟩ := hrest
    exact ⟨u, y, rfl, (becomes_reduced hu).mpr rfl, hy⟩

/-- The second word can come of the first in this number of passes. -/
def Derives (g : Grammar) (cfg : Config) : Nat → List Token → List Token → Prop
  | 0, u, w => w = u
  | n + 1, u, w => ∃ next, Becomes g cfg u next ∧ Derives g cfg n next w

/-- **Derivations split where the word splits.** -/
theorem derives_append {n : Nat} {u v w : List Token} :
    Derives g cfg n (u ++ v) w ↔
      ∃ x y, w = x ++ y ∧ Derives g cfg n u x ∧ Derives g cfg n v y := by
  induction n generalizing u v with
  | zero =>
    apply Iff.intro
    · exact fun h => ⟨u, v, h, rfl, rfl⟩
    · intro hparts
      obtain ⟨x, y, rfl, rfl, rfl⟩ := hparts
      rfl
  | succ n ih =>
    apply Iff.intro
    · intro hderives
      obtain ⟨next, hnext, h⟩ := hderives
      obtain ⟨u', v', rfl, hu, hv⟩ := becomes_append.mp hnext
      obtain ⟨x, y, rfl, hx, hy⟩ := ih.mp h
      exact ⟨x, y, rfl, ⟨u', hu, hx⟩, v', hv, hy⟩
    · intro hparts
      obtain ⟨x, y, rfl, ⟨u', hu, hx⟩, v', hv, hy⟩ := hparts
      exact ⟨u' ++ v', becomes_append.mpr ⟨u', v', rfl, hu, hv⟩, ih.mpr ⟨x, y, rfl, hx, hy⟩⟩

theorem derives_reduced {n : Nat} {u w : List Token} (hu : Reduced u) :
    Derives g cfg n u w ↔ w = u := by
  induction n with
  | zero => rfl
  | succ n ih =>
    apply Iff.intro
    · intro hderives
      obtain ⟨next, hnext, h⟩ := hderives
      rw [(becomes_reduced hu).mp hnext] at h
      exact ih.mp h
    · exact fun h => ⟨u, (becomes_reduced hu).mpr rfl, ih.mpr h⟩

/-- A reduced beginning stays where it is. -/
theorem derives_reduced_append {n : Nat} {u v w : List Token} (hu : Reduced u) :
    Derives g cfg n (u ++ v) w ↔ ∃ y, w = u ++ y ∧ Derives g cfg n v y := by
  rw [derives_append]
  apply Iff.intro
  · intro hparts
    obtain ⟨x, y, rfl, hx, hy⟩ := hparts
    exact ⟨y, by rw [(derives_reduced hu).mp hx], hy⟩
  · intro hrest
    obtain ⟨y, rfl, hy⟩ := hrest
    exact ⟨u, y, rfl, (derives_reduced hu).mpr rfl, hy⟩

theorem reduced_push : Reduced [.bare .push] := List.forall_mem_singleton.mpr rfl

theorem reduced_pop : Reduced [.bare .pop] := List.forall_mem_singleton.mpr rfl

/-- Brackets stay around what is inside them. -/
theorem derives_branch {n : Nat} {u w : List Token} :
    Derives g cfg n (branch u) w ↔ ∃ v, w = branch v ∧ Derives g cfg n u v := by
  rw [branch, List.cons_append, ← List.singleton_append, derives_reduced_append reduced_push]
  apply Iff.intro
  · intro hrest
    obtain ⟨y, rfl, hy⟩ := hrest
    obtain ⟨v, z, rfl, hv, hz⟩ := derives_append.mp hy
    rw [(derives_reduced reduced_pop).mp hz]
    exact ⟨v, rfl, hv⟩
  · intro hrest
    obtain ⟨v, rfl, hv⟩ := hrest
    exact ⟨v ++ [.bare .pop], rfl,
      derives_append.mpr ⟨v, _, rfl, hv, (derives_reduced reduced_pop).mpr rfl⟩⟩

/-- **What every replacement hands on, a derivation does.** -/
theorem derives_forall {P : Token → Prop}
    (hproduces : ∀ t u, P t → Produces g cfg t u → ∀ x ∈ u, P x) {n : Nat} {word out : List Token}
    (h : Derives g cfg n word out) (hword : ∀ t ∈ word, P t) : ∀ t ∈ out, P t := by
  have hpass : ∀ {word next : List Token}, Becomes g cfg word next → (∀ t ∈ word, P t) →
      ∀ t ∈ next, P t := by
    intro word next hnext hword
    induction hnext with
    | nil => exact hword
    | cons ht _ ih =>
      obtain ⟨hfirst, hrest⟩ := List.forall_mem_cons.mp hword
      exact List.forall_mem_append.mpr ⟨hproduces _ _ hfirst ht, ih hrest⟩
  induction n generalizing word with
  | zero =>
    cases h
    exact hword
  | succ n ih =>
    obtain ⟨next, hnext, hrest⟩ := h
    exact ih hrest (hpass hnext hword)

/-- The token can be reduced to this word in this number of passes. -/
structure Yields (g : Grammar) (cfg : Config) (n : Nat) (t : Token) (w : List Token) : Prop where
  derives : Derives g cfg n [t] w
  reduced : Reduced w

theorem yields_terminal {n : Nat} {t : Token} {w : List Token} (ht : t.isNonterminal = false)
    (h : Yields g cfg n t w) : w = [t] :=
  (derives_reduced (List.forall_mem_singleton.mpr ht)).mp h.derives

/-- A non-terminal that is reduced in the end is replaced at once. -/
theorem Yields.produces {n : Nat} {t : Token} {w : List Token} (h : Yields g cfg n t w)
    (ht : t.isNonterminal = true) :
    ∃ m u, n = m + 1 ∧ Produces g cfg t u ∧ Derives g cfg m u w := by
  cases n with
  | zero =>
    cases h.derives
    rw [h.reduced t (List.mem_cons_self ..)] at ht
    cases ht
  | succ n =>
    obtain ⟨u, hu, hrest⟩ := h.derives
    exact ⟨n, u, rfl, becomes_singleton.mp hu, hrest⟩

/-- **What the passes give can be derived**, whether or not they stopped early. -/
theorem derives_of_passes {n : Nat} {word out : List Token} {s s' : Keystream}
    (h : passes g cfg n word s = .ok (out, s')) : Derives g cfg n word out := by
  by_cases hred : Reduced word
  · rw [passes_of_reduced hred] at h
    cases h
    exact (derives_reduced hred).mpr rfl
  · induction n generalizing word s with
    | zero =>
      cases h
      rfl
    | succ n ih =>
      obtain ⟨next, s₁, hpass, hrest⟩ := (passes_succ_eq_ok_iff hred).mp h
      refine ⟨next, becomes_of_pass hpass, ?_⟩
      by_cases hnext : Reduced next
      · rw [passes_of_reduced hnext] at hrest
        cases hrest
        exact (derives_reduced hnext).mpr rfl
      · exact ih hrest hnext

end Grapevine.Grammar
