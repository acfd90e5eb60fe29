import Grapevine.Proofs.Grammar.Replacement
import Grapevine.Proofs.Grammar.Threshold

/-! Generations one token at a time.

Passes go through the whole word, again and again. Where nothing is drawn, no token learns anything
of its neighbours, and each can be followed through all its generations by itself: that is
`derivation`. A word then becomes what its tokens become (`LSystem.expand_depth_first`), although
some of them are reduced passes before the others. -/
namespace Grapevine

open Number Chance Grammar

namespace Grammar

variable {g : Grammar} {cfg : Config} {t : Token} {u word out : List Token} {n : Nat}

/-- Nothing is drawn: the result, or the fault, is the same on every stream, and the stream stays
where it is. -/
def Still {α : Type} (draw : Draw α) : Prop :=
  ∃ result : Except Fault α, ∀ s, draw s = result.map fun a => (a, s)

/-- No production draws. -/
def Drawless (g : Grammar) (cfg : Config) : Prop := ∀ t, Still (g.replace cfg t)

/-- What a token becomes by itself in one generation. -/
def alone (g : Grammar) (cfg : Config) (t : Token) : Except Fault (List Token) :=
  (g.replace cfg t).run' (.ofSeed cfg.seed)

/-- What a token becomes in so many generations: a terminal stays, and of a non-terminal each token
that it is replaced by is followed to the end before the next. -/
def derivation (g : Grammar) (cfg : Config) : Nat → Token → Except Fault (List Token)
  | 0, t => .ok [t]
  | n + 1, t =>
    if t.isNonterminal then do
      let word ← alone g cfg t
      let parts ← word.mapM (derivation g cfg n)
      return parts.flatten
    else .ok [t]

/-! ### Words, token by token -/

theorem mapM_eq_ok_iff {α β ε : Type _} {f : α → Except ε β} {l : List α} {l' : List β} :
    l.mapM f = .ok l' ↔ List.Forall₂ (fun a b => f a = .ok b) l l' := by
  induction l generalizing l' with
  | nil => cases l' <;> simp [pure, Except.pure]
  | cons a l ih =>
    rw [List.mapM_cons]
    cases ha : f a with
    | error e => cases l' <;> simp [bind, Except.bind, ha]
    | ok b =>
      cases hl : l.mapM f with
      | error e => cases l' <;> simp [bind, Except.bind, ha, ← ih, hl]
      | ok bs => cases l' <;> simp [bind, Except.bind, pure, Except.pure, ha, ← ih, hl]

theorem derives_cons {w : List Token} :
    Derives g cfg n (t :: word) w ↔
      ∃ u v, w = u ++ v ∧ Derives g cfg n [t] u ∧ Derives g cfg n word v := by
  rw [← List.singleton_append, derives_append]

theorem derives_nil : Derives g cfg n [] out ↔ out = [] := derives_reduced (List.forall_mem_nil _)

/-- A word is derived from as its tokens are. -/
theorem derives_iff_forall₂ :
    Derives g cfg n word out ↔
      ∃ parts, List.Forall₂ (fun t u => Derives g cfg n [t] u) word parts ∧
        out = parts.flatten := by
  induction word generalizing out with
  | nil => simp [derives_nil, List.forall₂_nil_left_iff]
  | cons t word ih =>
    rw [derives_cons]
    apply Iff.intro
    · intro hsplit
      obtain ⟨u, v, rfl, hu, hv⟩ := hsplit
      obtain ⟨parts, hparts, rfl⟩ := ih.mp hv
      exact ⟨u :: parts, .cons hu hparts, rfl⟩
    · intro hparts
      obtain ⟨_, hcons, rfl⟩ := hparts
      cases hcons with
      | cons hu hparts => exact ⟨_, _, rfl, hu, ih.mpr ⟨_, hparts, rfl⟩⟩

/-! ### Passes that draw nothing -/

theorem replace_of_drawless (hg : Drawless g cfg) (t : Token) (s : Keystream) :
    g.replace cfg t s = (alone g cfg t).map fun u => (u, s) := by
  obtain ⟨result, h⟩ := hg t
  have halone : alone g cfg t = result := by
    show Except.map Prod.fst (g.replace cfg t (.ofSeed cfg.seed)) = result
    rw [h]
    cases result <;> rfl
  rw [halone, h]

theorem produces_iff_alone (hg : Drawless g cfg) : Produces g cfg t u ↔ alone g cfg t = .ok u := by
  apply Iff.intro
  · intro hproduces
    obtain ⟨s, s', h⟩ := hproduces
    rw [replace_of_drawless hg] at h
    cases halone : alone g cfg t with
    | error fault =>
      rw [halone] at h
      cases h
    | ok v =>
      rw [halone] at h
      cases h
      rfl
  · intro halone
    refine ⟨.ofSeed 0, .ofSeed 0, ?_⟩
    rw [replace_of_drawless hg, halone]
    rfl

/-- Without draws, a pass finds what a word can become. -/
theorem pass_of_becomes (hg : Drawless g cfg) (h : Becomes g cfg word out) (s : Keystream) :
    pass g cfg word s = .ok (out, s) := by
  induction h with
  | nil => rfl
  | cons ht _ ih =>
    refine pass_cons_eq_ok_iff.mpr ⟨_, s, _, ?_, ih, rfl⟩
    rw [replace_of_drawless hg, (produces_iff_alone hg).mp ht]
    rfl

/-- Where nothing is drawn, the passes give whatever can be derived. -/
theorem passes_of_derives (hg : Drawless g cfg) (h : Derives g cfg n word out) (s : Keystream) :
    passes g cfg n word s = .ok (out, s) := by
  by_cases hred : Reduced word
  · rw [(derives_reduced hred).mp h, passes_of_reduced hred]
  · induction n generalizing word with
    | zero =>
      cases h
      rfl
    | succ n ih =>
      obtain ⟨next, hnext, hrest⟩ := h
      refine (passes_succ_eq_ok_iff hred).mpr ⟨next, s, pass_of_becomes hg hnext s, ?_⟩
      by_cases hred' : Reduced next
      · rw [(derives_reduced hred').mp hrest, passes_of_reduced hred']
      · exact ih hrest hred'

/-- Descending into each token first derives what the passes derive. -/
theorem derivation_eq_ok_iff (hg : Drawless g cfg) :
    derivation g cfg n t = .ok u ↔ Derives g cfg n [t] u := by
  induction n generalizing t u with
  | zero =>
    simp only [derivation, Derives, Except.ok.injEq, eq_comm]
  | succ n ih =>
    cases ht : t.isNonterminal with
    | false =>
      simp only [derivation, ht, Bool.false_eq_true, if_false, Except.ok.injEq,
        derives_reduced (List.forall_mem_singleton.mpr ht), eq_comm]
    | true =>
      have hderives : Derives g cfg (n + 1) [t] u ↔
          ∃ word, alone g cfg t = .ok word ∧ Derives g cfg n word u := by
        simp only [Derives, becomes_singleton, produces_iff_alone hg]
      rw [hderives, derivation, if_pos ht]
      cases alone g cfg t with
      | error fault => simp [bind, Except.bind]
      | ok word =>
        have hparts : ∀ parts, word.mapM (derivation g cfg n) = .ok parts ↔
            List.Forall₂ (fun x v => Derives g cfg n [x] v) word parts := by
          intro parts
          rw [mapM_eq_ok_iff]
          simp only [ih]
        simp only [Except.ok.injEq, exists_eq_left']
        rw [derives_iff_forall₂]
        simp only [← hparts, bind, Except.bind]
        cases word.mapM (derivation g cfg n) with
        | error fault => simp
        | ok parts => simp [pure, Except.pure, eq_comm]

/-! ### The standard rules -/

theorem still_terminal (ht : t.isNonterminal = false) : Still (g.replace cfg t) :=
  ⟨.ok [t], fun s => by rw [replace_terminal g cfg ht]; rfl⟩

theorem still_rule {rule : Rule} (ht : t.isNonterminal = true)
    (hget : g.get? t.symbol = some rule.production) : Still (g.replace cfg t) :=
  ⟨rule cfg t, fun s => by rw [replace_nonterminal ht hget, Rule.production]⟩

theorem still_unknown (ht : t.isNonterminal = true) (hget : g.get? t.symbol = none) :
    Still (g.replace cfg t) :=
  ⟨.error (.noProduction t.symbol), fun s => replace_of_get?_eq_none ht hget s⟩

theorem Planar.drawless : Drawless (standard .planar) cfg := by
  intro t
  obtain ⟨symbol, params⟩ := t
  cases symbol with
  | bud tag =>
    cases tag with
    | root | secondary | tip | pedicel => exact still_rule rfl rfl
    | faceC | faceV | faceB | faceN => exact still_unknown rfl rfl
  | segment => exact still_unknown rfl rfl
  | _ => exact still_terminal rfl

/-- Equal ends leave one size, which is not drawn. -/
theorem berrySize_of_beq (h : (cfg.berrySizes.low == cfg.berrySizes.high) = true) (s : Keystream) :
    berrySize cfg s = .ok (cfg.berrySizes.low, s) := by
  have hlt : ¬ cfg.berrySizes.low < cfg.berrySizes.high := by
    intro hlt
    have heq : cfg.berrySizes.low.toModel.unpack.compare cfg.berrySizes.high.toModel.unpack =
        some .eq := beq_iff_eq.mp h
    have hless : cfg.berrySizes.low.toModel.unpack.compare cfg.berrySizes.high.toModel.unpack =
        some .lt := beq_iff_eq.mp (of_decide_eq_true hlt)
    rw [heq] at hless
    cases hless
  simp only [berrySize, hlt, not_false_eq_true, if_true]

namespace Tapered

/-- **Only a segment of type 1 draws.** -/
theorem still_or_berry (cfg : Config) (t : Token) :
    Still ((standard .phyllotactic).replace cfg t) ∨
      ∃ kind bend pitch length width, Single.truncate kind = 1 ∧
        t = ⟨.segment, [kind, bend, pitch, length, width]⟩ := by
  obtain ⟨symbol, params⟩ := t
  cases symbol with
  | bud tag =>
    cases tag with
    | root | faceC | faceV | faceB | faceN | secondary | tip | pedicel =>
      exact .inl (still_rule rfl rfl)
  | segment =>
    rw [replace_segment]
    cases segmentCase cfg params with
    | plain bend pitch length width hkind =>
      exact .inl ⟨.ok _, fun s => segment_plain bend pitch length width hkind s⟩
    | berry bend pitch length width hkind =>
      exact .inr ⟨_, bend, pitch, length, width, hkind, rfl⟩
    | other bend pitch length width h₀ h₁ =>
      exact .inl ⟨.error _, fun s => segment_of_other bend pitch length width h₀ h₁ s⟩
    | arity h => exact .inl ⟨.error _, h⟩
  | _ => exact .inl (still_terminal rfl)

theorem drawless (h : (cfg.berrySizes.low == cfg.berrySizes.high) = true) :
    Drawless (standard .phyllotactic) cfg := by
  intro t
  rcases still_or_berry cfg t with hstill | ⟨_, bend, pitch, length, width, hkind, rfl⟩
  · exact hstill
  · let word := (⟨stalk cfg bend pitch length width, suppressed cfg length,
      cfg.berrySizes.low⟩ : Pedicel).word
    refine ⟨.ok word, fun s => ?_⟩
    rw [replace_berry bend pitch length width hkind, berrySize_of_beq h]
    rfl

end Tapered

end Grammar

/-! ### Expansions -/

namespace LSystem

variable {sys : LSystem}

/-- Without draws, an expansion is a derivation. -/
theorem expand_eq_ok_iff_derives (h : Drawless sys.grammar sys.config) {word out : List Token}
    {n : Nat} : sys.expand word n = .ok out ↔ Derives sys.grammar sys.config n word out := by
  rw [expand_eq_ok_iff]
  apply Iff.intro
  · intro hpasses
    obtain ⟨_, hpasses⟩ := hpasses
    exact derives_of_passes hpasses
  · exact fun hderives => ⟨_, passes_of_derives h hderives _⟩

/-- **Where nothing is drawn, a word becomes what its tokens become, each by itself.** So it does
under the rules of the flat cluster, and under those of the cluster in space if all berries are of
one size. In particular words can be taken apart before they are expanded. -/
theorem expand_depth_first :
    (∀ cfg : Config,
      (cfg.variant = .phyllotactic → (cfg.berrySizes.low == cfg.berrySizes.high) = true) →
        Drawless (Grammar.standard cfg.variant) cfg) ∧
    ∀ sys : LSystem, Drawless sys.grammar sys.config → ∀ n,
      (∀ word out, sys.expand word n = .ok out ↔
        ∃ parts, List.Forall₂ (fun t u => derivation sys.grammar sys.config n t = .ok u) word parts ∧
          out = parts.flatten) ∧
      ∀ u v out, sys.expand (u ++ v) n = .ok out ↔
        ∃ x y, sys.expand u n = .ok x ∧ sys.expand v n = .ok y ∧ out = x ++ y := by
  apply And.intro
  · intro cfg hsizes
    cases hv : cfg.variant with
    | planar => exact Planar.drawless
    | phyllotactic => exact Tapered.drawless (hsizes hv)
  · intro sys h n
    refine ⟨fun word out => ?_, fun u v out => ?_⟩
    · rw [expand_eq_ok_iff_derives h, derives_iff_forall₂]
      simp only [derivation_eq_ok_iff h]
    · simp only [expand_eq_ok_iff_derives h]
      rw [derives_append]
      apply Iff.intro
      · intro hsplit
        obtain ⟨x, y, heq, hx, hy⟩ := hsplit
        exact ⟨x, y, hx, hy, heq⟩
      · intro hsplit
        obtain ⟨x, y, hx, hy, heq⟩ := hsplit
        exact ⟨x, y, heq, hx, hy⟩

/-- A pedicel is reduced in one generation and a lateral of depth 1 is not, and still neither
minds the other. -/
theorem expand_depth_first_planar : ∃ sys, standard .planar = .ok sys ∧
    sys.expand ([.bud .pedicel [40]] ++ [.bud .secondary [1, 40]]) 1 =
      .ok ([⟨.forward, [40]⟩, ⟨.berry, [30]⟩] ++ [.bud .tip [40]]) := by
  have hsys := @standard_of_valid .planar (by decide)
  obtain ⟨hdrawless, hexpand⟩ := expand_depth_first
  refine ⟨_, hsys, ?_⟩
  have hnone : Drawless (Grammar.standard .planar) .planar := hdrawless .planar fun h => by cases h
  exact ((hexpand ⟨.planar, .standard .planar, _⟩ hnone 1).2 _ _ _).mpr
    ⟨_, _, by decide +kernel, by decide +kernel, rfl⟩

end LSystem

end Grapevine
