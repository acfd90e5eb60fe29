import Grapevine.Proofs.Grammar.Pass

/-! How many passes a token takes.

A token `Takes` a number of passes if, whatever is drawn, none of them fails, nothing is left to
replace after the last one, and something is before it. Of a system whose start takes `k` passes,
`derive` accepts every number of generations from `k` on and no smaller one
(`LSystem.derive_of_takes`). -/
namespace Grapevine

open Chance Grammar

namespace Grammar

variable {g : Grammar} {cfg : Config}

/-- Whatever is drawn, this many passes succeed and leave nothing to replace. -/
def EndsWithin (g : Grammar) (cfg : Config) : Nat → Token → Prop
  | 0, t => t.isNonterminal = false
  | n + 1, t => ∀ s, ∃ u s', g.replace cfg t s = .ok (u, s') ∧ ∀ x ∈ u, EndsWithin g cfg n x

/-- Whatever is drawn, each of this many passes has something to replace. -/
def Lasts (g : Grammar) (cfg : Config) : Nat → Token → Prop
  | 0, _ => True
  | n + 1, t => t.isNonterminal = true ∧
      ∀ s u s', g.replace cfg t s = .ok (u, s') → ∃ x ∈ u, Lasts g cfg n x

/-- Whatever is drawn, the token is fully replaced by exactly this many passes. -/
structure Takes (g : Grammar) (cfg : Config) (n : Nat) (t : Token) : Prop where
  ends : EndsWithin g cfg n t
  lasts : Lasts g cfg n t

theorem endsWithin_terminal {t : Token} (ht : t.isNonterminal = false) (n : Nat) :
    EndsWithin g cfg n t := by
  induction n with
  | zero => exact ht
  | succ n ih =>
    intro s
    refine ⟨[t], s, by rw [replace_terminal g cfg ht]; rfl, ?_⟩
    exact List.forall_mem_singleton.mpr ih

theorem EndsWithin.succ {n : Nat} {t : Token} (h : EndsWithin g cfg n t) :
    EndsWithin g cfg (n + 1) t := by
  induction n generalizing t with
  | zero => exact endsWithin_terminal h 1
  | succ n ih =>
    intro s
    obtain ⟨u, s', hu, hall⟩ := h s
    exact ⟨u, s', hu, fun x hx => ih (hall x hx)⟩

theorem EndsWithin.mono {m n : Nat} {t : Token} (h : EndsWithin g cfg m t) (hmn : m ≤ n) :
    EndsWithin g cfg n t := by
  induction hmn with
  | refl => exact h
  | step _ ih => exact ih.succ

theorem Lasts.pred {n : Nat} {t : Token} (h : Lasts g cfg (n + 1) t) : Lasts g cfg n t := by
  induction n generalizing t with
  | zero => trivial
  | succ n ih =>
    refine ⟨h.1, fun s u s' hu => ?_⟩
    obtain ⟨x, hx, hxl⟩ := h.2 s u s' hu
    exact ⟨x, hx, ih hxl⟩

theorem Lasts.anti {m n : Nat} {t : Token} (h : Lasts g cfg n t) (hmn : m ≤ n) :
    Lasts g cfg m t := by
  induction hmn with
  | refl => exact h
  | step _ ih => exact ih h.pred

theorem takes_terminal {t : Token} (ht : t.isNonterminal = false) : Takes g cfg 0 t := ⟨ht, trivial⟩

/-- One pass, and then as many as the slowest of what it leaves. -/
theorem takes_succ {n : Nat} {t : Token} (ht : t.isNonterminal = true)
    (h : ∀ s, ∃ u s', g.replace cfg t s = .ok (u, s') ∧ (∀ x ∈ u, EndsWithin g cfg n x) ∧
      ∃ x ∈ u, Lasts g cfg n x) : Takes g cfg (n + 1) t := by
  refine ⟨fun s => ?_, ht, fun s u s' hu => ?_⟩
  · obtain ⟨u, s', hu, hends, _⟩ := h s
    exact ⟨u, s', hu, hends⟩
  · obtain ⟨v, s'', hv, _, hlasts⟩ := h s
    rw [hu] at hv
    cases hv
    exact hlasts

theorem not_reduced_of_lasts {n : Nat} {word : List Token}
    (h : ∃ t ∈ word, Lasts g cfg (n + 1) t) : ¬ Reduced word := by
  obtain ⟨t, ht, hlasts⟩ := h
  intro hred
  have hterminal := hred t ht
  rw [hlasts.1] at hterminal
  cases hterminal

/-! ### Passes over words -/

/-- One pass brings every token one pass nearer to its end. -/
theorem pass_of_endsWithin {n : Nat} {word : List Token}
    (h : ∀ t ∈ word, EndsWithin g cfg (n + 1) t) (s : Keystream) :
    ∃ next s', pass g cfg word s = .ok (next, s') ∧ ∀ t ∈ next, EndsWithin g cfg n t := by
  induction word generalizing s with
  | nil => exact ⟨[], s, rfl, List.forall_mem_nil _⟩
  | cons t word ih =>
    obtain ⟨ht, hword⟩ := List.forall_mem_cons.mp h
    obtain ⟨u, s₁, hu, hends⟩ := ht s
    obtain ⟨v, s₂, hv, hrest⟩ := ih hword s₁
    exact ⟨u ++ v, s₂, pass_cons_eq_ok_iff.mpr ⟨u, s₁, v, hu, hv, rfl⟩,
      List.forall_mem_append.mpr ⟨hends, hrest⟩⟩

/-- One pass does not finish a token that lasts for more. -/
theorem pass_of_lasts {n : Nat} {word next : List Token} {s s' : Keystream}
    (h : ∃ t ∈ word, Lasts g cfg (n + 1) t) (hp : pass g cfg word s = .ok (next, s')) :
    ∃ t ∈ next, Lasts g cfg n t := by
  induction word generalizing s next with
  | nil =>
    obtain ⟨t, ht, _⟩ := h
    cases ht
  | cons a word ih =>
    obtain ⟨u, s₁, v, hu, hv, rfl⟩ := pass_cons_eq_ok_iff.mp hp
    obtain ⟨t, ht, hlasts⟩ := h
    rcases List.mem_cons.mp ht with rfl | ht
    · obtain ⟨x, hx, hxl⟩ := hlasts.2 s u s₁ hu
      exact ⟨x, List.mem_append_left v hx, hxl⟩
    · obtain ⟨x, hx, hxl⟩ := ih ⟨t, ht, hlasts⟩ hv
      exact ⟨x, List.mem_append_right u hx, hxl⟩

/-- Passes over tokens that come to an end succeed, and enough of them leave only terminals. -/
theorem passes_of_endsWithin {n : Nat} {word : List Token}
    (h : ∀ t ∈ word, EndsWithin g cfg n t) (k : Nat) (s : Keystream) :
    ∃ out s', passes g cfg k word s = .ok (out, s') ∧ (n ≤ k → Reduced out) := by
  by_cases hred : Reduced word
  · exact ⟨word, s, passes_of_reduced hred k s, fun _ => hred⟩
  · cases n with
    | zero => exact absurd h hred
    | succ n =>
      induction k generalizing n word s with
      | zero => exact ⟨word, s, rfl, fun hle => absurd hle (Nat.not_succ_le_zero n)⟩
      | succ k ih =>
        obtain ⟨next, s₁, hpass, hnext⟩ := pass_of_endsWithin h s
        by_cases hred' : Reduced next
        · exact ⟨next, s₁, (passes_succ_eq_ok_iff hred).mpr
            ⟨next, s₁, hpass, passes_of_reduced hred' k s₁⟩, fun _ => hred'⟩
        · cases n with
          | zero => exact absurd hnext hred'
          | succ n =>
            obtain ⟨out, s₂, hout, hend⟩ := ih s₁ hred' n hnext
            exact ⟨out, s₂, (passes_succ_eq_ok_iff hred).mpr ⟨next, s₁, hpass, hout⟩,
              fun hle => hend (Nat.le_of_succ_le_succ hle)⟩

/-- Too few passes leave something to replace. -/
theorem passes_of_lasts {k : Nat} {word out : List Token} {s s' : Keystream}
    (h : ∃ t ∈ word, Lasts g cfg (k + 1) t) (hp : passes g cfg k word s = .ok (out, s')) :
    ¬ Reduced out := by
  induction k generalizing word s with
  | zero =>
    cases hp
    exact not_reduced_of_lasts h
  | succ k ih =>
    obtain ⟨next, s₁, hpass, hrest⟩ := (passes_succ_eq_ok_iff (not_reduced_of_lasts h)).mp hp
    exact ih (pass_of_lasts h hpass) hrest

end Grammar

/-! ### Generations of a system -/

/-- The first non-terminal of a word, and where it stands. -/
structure FirstNonterminal (word : List Token) (index : Nat) (t : Token) : Prop where
  found : word[index]? = some t
  nonterminal : t.isNonterminal = true
  before : ∀ i < index, ∀ x, word[i]? = some x → x.isNonterminal = false

theorem checkReduced_of_reduced {word : List Token} (h : Reduced word) :
    checkReduced word = .ok () := by
  have hnone : word.zipIdx.find? (·.1.isNonterminal) = none := by
    rw [List.find?_eq_none]
    intro x hx
    rw [h x.1 (List.fst_mem_of_mem_zipIdx hx)]
    decide
  rw [checkReduced, hnone]

private theorem exists_first {word : List Token} (h : ¬ Reduced word) (k : Nat) :
    ∃ index t, FirstNonterminal word index t ∧
      (word.zipIdx k).find? (·.1.isNonterminal) = some (t, k + index) := by
  induction word generalizing k with
  | nil => exact absurd (List.forall_mem_nil _) h
  | cons a word ih =>
    cases ha : a.isNonterminal
    · have hword : ¬ Reduced word := fun hred => h (List.forall_mem_cons.mpr ⟨ha, hred⟩)
      obtain ⟨index, t, hfirst, hfind⟩ := ih hword (k + 1)
      refine ⟨index + 1, t, ⟨hfirst.found, hfirst.nonterminal, fun i hi x hx => ?_⟩, ?_⟩
      · cases i with
        | zero =>
          cases hx
          exact ha
        | succ i => exact hfirst.before i (Nat.lt_of_succ_lt_succ hi) x hx
      · rw [List.zipIdx_cons, List.find?_cons_of_neg (by simp [ha]), hfind]
        congr 2
        omega
    · refine ⟨0, a, ⟨rfl, ha, fun i hi => absurd hi (Nat.not_lt_zero i)⟩, ?_⟩
      rw [List.zipIdx_cons, List.find?_cons_of_pos (by simp [ha])]
      rfl

/-- The check names the first token that can still be replaced. -/
theorem checkReduced_of_not_reduced {word : List Token} (h : ¬ Reduced word) :
    ∃ index t, FirstNonterminal word index t ∧
      checkReduced word = .error (.unreduced index t) := by
  obtain ⟨index, t, hfirst, hfind⟩ := exists_first h 0
  refine ⟨index, t, hfirst, ?_⟩
  rw [Nat.zero_add] at hfind
  rw [checkReduced, hfind]

namespace LSystem

/-- An expansion runs its passes on the stream of the seed. -/
theorem expand_eq_ok_iff {sys : LSystem} {word out : List Token} {n : Nat} :
    sys.expand word n = .ok out ↔
      ∃ s, passes sys.grammar sys.config n word (.ofSeed sys.config.seed) = .ok (out, s) := by
  show Except.map Prod.fst _ = _ ↔ _
  cases passes sys.grammar sys.config n word (.ofSeed sys.config.seed) with
  | error fault => simp [Except.map]
  | ok a =>
    obtain ⟨v, s⟩ := a
    simp [Except.map]

theorem expand_eq_error_iff {sys : LSystem} {word : List Token} {n : Nat} {fault : Fault} :
    sys.expand word n = .error fault ↔
      passes sys.grammar sys.config n word (.ofSeed sys.config.seed) = .error fault := by
  show Except.map Prod.fst _ = _ ↔ _
  cases passes sys.grammar sys.config n word (.ofSeed sys.config.seed) <;> simp [Except.map]

/-- A derivation is an expansion of the start that leaves only terminals. -/
theorem derive_eq_ok_iff {sys : LSystem} {word : List Token} {n : Nat} :
    sys.derive n = .ok word ↔ sys.expand [sys.config.start] n = .ok word ∧ Reduced word := by
  simp only [derive, bind, Except.bind]
  cases sys.expand [sys.config.start] n with
  | error fault => simp
  | ok out =>
    by_cases hred : Reduced out
    · simp only [checkReduced_of_reduced hred, pure, Except.pure, Except.ok.injEq]
      apply Iff.intro
      · intro heq
        subst heq
        exact ⟨rfl, hred⟩
      · exact And.left
    · obtain ⟨index, t, _, hcheck⟩ := checkReduced_of_not_reduced hred
      simp only [hcheck, Except.ok.injEq, reduceCtorEq, false_iff, not_and]
      intro heq
      subst heq
      exact hred

/-- A derivation that was given too few generations names the first non-terminal it has left. -/
theorem derive_of_not_reduced {sys : LSystem} {word : List Token} {n : Nat}
    (hword : sys.expand [sys.config.start] n = .ok word) (h : ¬ Reduced word) :
    ∃ index t, FirstNonterminal word index t ∧ sys.derive n = .error (.unreduced index t) := by
  obtain ⟨index, t, hfirst, hcheck⟩ := checkReduced_of_not_reduced h
  refine ⟨index, t, hfirst, ?_⟩
  simp only [derive, bind, Except.bind, hword, hcheck]

/-- **A derivation succeeds from the pass on that its start takes, and not before.** -/
theorem derive_of_takes {sys : LSystem} {k : Nat}
    (h : Takes sys.grammar sys.config k sys.config.start) (n : Nat) :
    (k ≤ n → ∃ word, sys.derive n = .ok word) ∧
      (n < k → ∃ word index t, sys.expand [sys.config.start] n = .ok word ∧
        FirstNonterminal word index t ∧ sys.derive n = .error (.unreduced index t)) := by
  obtain ⟨word, s, hpasses, hends⟩ := passes_of_endsWithin (List.forall_mem_singleton.mpr h.ends) n
    (.ofSeed sys.config.seed)
  have hword : sys.expand [sys.config.start] n = .ok word := expand_eq_ok_iff.mpr ⟨s, hpasses⟩
  apply And.intro
  · exact fun hn => ⟨word, derive_eq_ok_iff.mpr ⟨hword, hends hn⟩⟩
  · intro hn
    have hlasts : Lasts sys.grammar sys.config (n + 1) sys.config.start := h.lasts.anti hn
    have hred := passes_of_lasts ⟨_, List.mem_singleton.mpr rfl, hlasts⟩ hpasses
    obtain ⟨index, t, hfirst, hderive⟩ := derive_of_not_reduced hword hred
    exact ⟨word, index, t, hword, hfirst, hderive⟩

end LSystem

end Grapevine
