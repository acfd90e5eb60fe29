import Grapevine.Proofs.Grammar.Replacement
import Grapevine.Proofs.Grammar.Threshold
import Grapevine.Proofs.Number.Nearest

/-! Where a derivation can fail.

A token is `Replaceable` if its production is there and gives a word whatever is drawn. What a
standard production writes is always replaceable (`steady_standard`): it has the numbers that the
next rule asks for, segments are of type 0 or 1, and an axis never hands on a greater depth than its
own, so that the table of laterals still reaches (`below_le`). A derivation therefore fails in its
first pass or not at all (`LSystem.expand_error_iff`). -/
namespace Grapevine

open Number Chance Grammar

namespace Grammar

variable {g : Grammar} {cfg : Config} {t : Token} {word : List Token}

/-! ### Passes that cannot fail -/

def Replaceable (g : Grammar) (cfg : Config) (t : Token) : Prop :=
  ∀ s, ∃ u s', g.replace cfg t s = .ok (u, s')

/-- Whatever is written can itself be replaced. -/
def Steady (g : Grammar) (cfg : Config) : Prop :=
  ∀ t u, Produces g cfg t u → ∀ x ∈ u, Replaceable g cfg x

theorem pass_of_replaceable (h : ∀ t ∈ word, Replaceable g cfg t) (s : Keystream) :
    ∃ next s', pass g cfg word s = .ok (next, s') := by
  induction word generalizing s with
  | nil => exact ⟨[], s, rfl⟩
  | cons t word ih =>
    obtain ⟨ht, hword⟩ := List.forall_mem_cons.mp h
    obtain ⟨u, s₁, hu⟩ := ht s
    obtain ⟨v, s₂, hv⟩ := ih hword s₁
    exact ⟨u ++ v, s₂, pass_cons_eq_ok_iff.mpr ⟨u, s₁, v, hu, hv, rfl⟩⟩

/-- What a pass leaves is replaceable, whatever it was before. -/
theorem replaceable_of_becomes (hg : Steady g cfg) {next : List Token}
    (h : Becomes g cfg word next) : ∀ x ∈ next, Replaceable g cfg x := by
  induction h with
  | nil => exact List.forall_mem_nil _
  | cons ht _ ih => exact List.forall_mem_append.mpr ⟨hg _ _ ht, ih⟩

/-- Any number of passes over replaceable tokens succeed. -/
theorem passes_of_replaceable (hg : Steady g cfg) (h : ∀ t ∈ word, Replaceable g cfg t) (n : Nat)
    (s : Keystream) : ∃ out s', passes g cfg n word s = .ok (out, s') := by
  induction n generalizing word s with
  | zero => exact ⟨word, s, rfl⟩
  | succ n ih =>
    by_cases hred : Reduced word
    · exact ⟨word, s, passes_of_reduced hred (n + 1) s⟩
    · obtain ⟨next, s₁, hpass⟩ := pass_of_replaceable h s
      obtain ⟨out, s₂, hrest⟩ := ih (replaceable_of_becomes hg (becomes_of_pass hpass)) s₁
      exact ⟨out, s₂, (passes_succ_eq_ok_iff hred).mpr ⟨next, s₁, hpass, hrest⟩⟩

/-- Passes fail as the first of them does. -/
theorem passes_eq_error_iff (hg : Steady g cfg) (n : Nat) (s : Keystream) (fault : Fault) :
    passes g cfg (n + 1) word s = .error fault ↔ passes g cfg 1 word s = .error fault := by
  by_cases hred : Reduced word
  · rw [passes_of_reduced hred, passes_of_reduced hred]
  · rw [passes_succ hred, passes_succ hred]
    cases hpass : pass g cfg word s with
    | error first => rfl
    | ok a =>
      obtain ⟨next, s₁⟩ := a
      obtain ⟨out, s₂, hrest⟩ :=
        passes_of_replaceable hg (replaceable_of_becomes hg (becomes_of_pass hpass)) n s₁
      show passes g cfg n next s₁ = _ ↔ passes g cfg 0 next s₁ = _
      rw [hrest, passes]
      simp only [reduceCtorEq, false_iff]
      exact fun h => by cases h

/-! ### What the standard rules write -/

/-- **An axis hands on no greater depth than its own**, though it is rounded on the way. -/
theorem below_le {x : Float32} (h : 1 < Single.truncate x) :
    below (Single.truncate x) ≤ Single.truncate x := by
  obtain ⟨m, hm⟩ := Int.eq_ofNat_of_zero_le (show 0 ≤ Single.truncate x - 1 by omega)
  rw [below, hm, Single.ofInt_natCast]
  exact Single.truncate_ofNat_le_truncate (by omega) (by omega)

theorem replaceable_terminal (ht : t.isNonterminal = false) : Replaceable g cfg t :=
  fun s => ⟨[t], s, (replace_terminal_eq_ok_iff ht).mpr ⟨rfl, rfl⟩⟩

theorem replaceable_branch {p : List Token} (hp : ∀ x ∈ p, x.adjusts = true)
    (ht : Replaceable g cfg t) : ∀ x ∈ branch (p ++ [t]), Replaceable g cfg x := by
  have hlead : ∀ x ∈ p, Replaceable g cfg x := fun x hx =>
    replaceable_terminal (terminal_of_adjusts (hp x hx))
  rw [branch, List.cons_append]
  exact List.forall_mem_cons.mpr ⟨replaceable_terminal rfl, List.forall_mem_append.mpr
    ⟨List.forall_mem_append.mpr ⟨hlead, List.forall_mem_singleton.mpr ht⟩,
      List.forall_mem_singleton.mpr (replaceable_terminal rfl)⟩⟩

theorem replaceable_of_reduced (h : Reduced word) : ∀ x ∈ word, Replaceable g cfg x :=
  fun x hx => replaceable_terminal (h x hx)

/-- A table that reaches to one depth reaches to all that are less. -/
theorem lateralDepth_of_le {d e : Int} {k : Nat} (h : cfg.lateralDepth d = .ok k) (hle : e ≤ d) :
    ∃ l, cfg.lateralDepth e = .ok l := by
  have hlt : (d - 2).toNat < cfg.lateralDepths.length := by
    by_contra hge
    simp [Config.lateralDepth, List.getElem?_eq_none (Nat.le_of_not_lt hge)] at h
  have hlt' : (e - 2).toNat < cfg.lateralDepths.length := by omega
  refine ⟨cfg.lateralDepths[(e - 2).toNat], ?_⟩
  simp only [Config.lateralDepth, List.getElem?_eq_getElem hlt']

namespace Planar

theorem Replaces.replaceable {u : List Token} (h : Replaces cfg t u) :
    Replaceable (standard .planar) cfg t := fun s => ⟨u, s, h.replace s⟩

/-- A bud of the axis can be replaced if the table has its depth. -/
theorem replaceable_root {depth length : Float32}
    (h : 1 < Single.truncate depth → ∃ k, cfg.lateralDepth (Single.truncate depth) = .ok k) :
    Replaceable (standard .planar) cfg (.bud .root [depth, length]) := by
  rcases Int.lt_or_le 1 (Single.truncate depth) with hlt | hle
  · obtain ⟨k, hk⟩ := h hlt
    exact (Replaces.root_fork hlt hk).replaceable
  · exact (Replaces.root_end hle).replaceable

theorem replaceable_secondary (depth length : Float32) :
    Replaceable (standard .planar) cfg (.bud .secondary [depth, length]) := by
  rcases Int.lt_or_le 1 (Single.truncate depth) with hlt | hle
  · exact (Replaces.secondary_fork hlt).replaceable
  · exact (Replaces.secondary_end hle).replaceable

/-- The rules of the flat cluster write nothing that cannot be replaced. -/
theorem steady : Steady (standard .planar) cfg := by
  intro t u hproduces
  obtain ⟨s, s', h⟩ := hproduces
  have hforward : ∀ length, Replaceable (standard .planar) cfg ⟨.forward, [length]⟩ :=
    fun _ => replaceable_terminal rfl
  have htip : ∀ length, Replaceable (standard .planar) cfg (.bud .tip [length]) :=
    fun _ => Replaces.tip.replaceable
  have hpedicel : ∀ length, Replaceable (standard .planar) cfg (.bud .pedicel [length]) :=
    fun _ => Replaces.pedicel.replaceable
  have hbend := adjusts_bendLeft cfg.branchAngle
  cases (replace_eq_ok_iff.mp h).1 with
  | terminal ht => exact replaceable_of_reduced (List.forall_mem_singleton.mpr ht)
  | root_end | secondary_end => exact List.forall_mem_singleton.mpr (htip _)
  | root_fork hlt hk =>
    have hlookup := lateralDepth_of_le hk (below_le hlt)
    exact List.forall_mem_append.mpr ⟨List.forall_mem_cons.mpr ⟨hforward _,
      replaceable_branch adjusts_rolls (replaceable_root fun _ => hlookup)⟩,
      replaceable_branch hbend (replaceable_secondary _ _)⟩
  | secondary_fork =>
    exact List.forall_mem_append.mpr ⟨List.forall_mem_cons.mpr ⟨hforward _,
      replaceable_branch adjusts_rolls (replaceable_secondary _ _)⟩, replaceable_branch hbend (htip _)⟩
  | tip =>
    have hbend' := adjusts_bendRight cfg.branchAngle
    exact List.forall_mem_append.mpr ⟨List.forall_mem_append.mpr ⟨List.forall_mem_cons.mpr
      ⟨hforward _, replaceable_branch (List.forall_mem_nil _) (hpedicel _)⟩,
      replaceable_branch hbend (hpedicel _)⟩, replaceable_branch hbend' (hpedicel _)⟩
  | pedicel =>
    exact List.forall_mem_cons.mpr ⟨hforward _,
      List.forall_mem_singleton.mpr (replaceable_terminal rfl)⟩

end Planar

namespace Tapered

theorem replaceable_of_replaces (h : ∀ s, ∃ u, Replaces cfg t s u s) :
    Replaceable (standard .phyllotactic) cfg t := by
  intro s
  obtain ⟨u, hu⟩ := h s
  exact ⟨u, s, hu.replace⟩

theorem replaceable_axis {face : Tag} (hface : IsFace face) (depth length width : Float32) :
    Replaceable (standard .phyllotactic) cfg (.bud face [depth, length, width]) := by
  rcases Int.lt_or_le 1 (Single.truncate depth) with hlt | hle
  · exact replaceable_of_replaces fun _ => ⟨_, .axis_fork hface hlt⟩
  · exact replaceable_of_replaces fun _ => ⟨_, .axis_end hface hle⟩

theorem replaceable_secondary (depth length width : Float32) :
    Replaceable (standard .phyllotactic) cfg (.bud .secondary [depth, length, width]) := by
  rcases Int.lt_or_le 1 (Single.truncate depth) with hlt | hle
  · exact replaceable_of_replaces fun _ => ⟨_, .secondary_fork hlt⟩
  · exact replaceable_of_replaces fun _ => ⟨_, .secondary_end hle⟩

theorem replaceable_straight (length width : Float32) :
    Replaceable (standard .phyllotactic) cfg (straight length width) :=
  replaceable_of_replaces fun _ => ⟨_, .segment_plain truncate_zero⟩

/-- Only a segment of type 1 draws. -/
theorem replaceable_berry (h : (cfg.berrySizes.high - cfg.berrySizes.low).isFinite = true)
    (length width : Float32) :
    Replaceable (standard .phyllotactic) cfg ⟨.segment, [1, 0, 0, length, width]⟩ := by
  intro s
  obtain ⟨size, s', hsize⟩ := berrySize_of_isFinite h s
  exact ⟨_, s', (Replaces.segment_berry truncate_one hsize).replace⟩

/-- The rules of the cluster in space write nothing that cannot be replaced, if a berry can be drawn
from the range. -/
theorem steady (hfinite : (cfg.berrySizes.high - cfg.berrySizes.low).isFinite = true) :
    Steady (standard .phyllotactic) cfg := by
  intro t u hproduces
  obtain ⟨s, s', h⟩ := hproduces
  have htip : ∀ length width,
      Replaceable (standard .phyllotactic) cfg (.bud .tip [length, width]) :=
    fun _ _ => replaceable_of_replaces fun _ => ⟨_, .tip⟩
  have hpedicel : ∀ length width,
      Replaceable (standard .phyllotactic) cfg (.bud .pedicel [length, width]) :=
    fun _ _ => replaceable_of_replaces fun _ => ⟨_, .pedicel⟩
  have hbend := adjusts_bendLeft cfg.lateralAngle
  cases replace_eq_ok_iff.mp h with
  | terminal ht => exact replaceable_of_reduced (List.forall_mem_singleton.mpr ht)
  | axis_end | secondary_end => exact List.forall_mem_singleton.mpr (htip _ _)
  | @axis_fork face =>
    exact List.forall_mem_append.mpr ⟨List.forall_mem_cons.mpr ⟨replaceable_straight _ _,
      replaceable_branch (adjusts_faceRoll face)
        (replaceable_axis (isFace_nextFace face) _ _ _)⟩,
      replaceable_branch hbend (replaceable_secondary _ _ _)⟩
  | secondary_fork =>
    exact List.forall_mem_append.mpr ⟨List.forall_mem_cons.mpr ⟨replaceable_straight _ _,
      replaceable_branch adjusts_rollRight (replaceable_secondary _ _ _)⟩,
      replaceable_branch hbend (htip _ _)⟩
  | tip =>
    obtain ⟨hleft, hright⟩ := adjusts_sides cfg.lateralAngle cfg.pedicelRoll
    exact List.forall_mem_append.mpr ⟨List.forall_mem_append.mpr ⟨List.forall_mem_cons.mpr
      ⟨replaceable_straight _ _, replaceable_branch (List.forall_mem_nil _) (hpedicel _ _)⟩,
      replaceable_branch hleft (hpedicel _ _)⟩, replaceable_branch hright (hpedicel _ _)⟩
  | pedicel => exact List.forall_mem_singleton.mpr (replaceable_berry hfinite _ _)
  | segment_plain => exact replaceable_of_reduced (reduced_stalk _)
  | segment_berry => exact replaceable_of_reduced (reduced_pedicel _)

end Tapered

theorem steady_standard (h : cfg.Drawable) : Steady (standard cfg.variant) cfg := by
  unfold Config.Drawable at h
  cases hv : cfg.variant with
  | planar => exact Planar.steady
  | phyllotactic => exact Tapered.steady (h hv)

end Grammar

/-! ### Derivations -/

namespace LSystem

variable {cfg : Config} {sys : LSystem}

/-- **An expansion fails as its first generation does, or not at all**: what a standard production
writes can be replaced in its turn. -/
theorem expand_error_iff (hsys : standard cfg = .ok sys) (hd : cfg.Drawable) :
    (∀ word n fault, 1 ≤ n →
      (sys.expand word n = .error fault ↔ sys.expand word 1 = .error fault)) ∧
    ∀ t u, Produces sys.grammar sys.config t u →
      ∀ x ∈ u, Replaceable sys.grammar sys.config x := by
  obtain ⟨_, rfl⟩ := standard_eq_ok_iff.mp hsys
  have hsteady := steady_standard hd
  refine ⟨fun word n fault hn => ?_, hsteady⟩
  obtain ⟨m, rfl⟩ := Nat.exists_eq_add_of_le' hn
  rw [expand_eq_error_iff, expand_eq_error_iff]
  exact passes_eq_error_iff hsteady m _ fault

/-- A tip without a width is refused in the first generation, and so in the fifteenth. -/
theorem expand_error_short_tip : ∃ sys, standard .phyllotactic = .ok sys ∧
    sys.expand [.bud .secondary [1, 0.3, 3], .bud .tip [0.3]] 15 =
      .error (.arity (.bud .tip) 2 1) := by
  have hvalid : Config.phyllotactic.validate = .ok () := by decide
  have hsys := standard_of_valid hvalid
  refine ⟨_, hsys, ?_⟩
  exact ((expand_error_iff hsys (by decide)).1 _ 15 _ (by decide)).mpr rfl

end LSystem

end Grapevine
