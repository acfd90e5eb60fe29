import Grapevine.Proofs.Brackets
import Grapevine.Proofs.Grammar.Replacement
import Grapevine.Proofs.Grammar.Threshold

/-! Brackets in derivations.

A non-terminal is replaced by a word that leaves no bracket over, and that does so even if its first
token is swallowed, as the non-terminal itself might be: no standard production starts with a
bracket or a `%`, and none ends in a `%` (`tidy_standard`). So a pass neither adds nor takes away
a bracket that has no partner, wherever the `%` of the word stand, and neither do any number of
passes (`LSystem.leavesOver_expand`). -/
namespace Grapevine

open Grammar

namespace Grammar

variable {g : Grammar} {cfg : Config} {t : Token} {u v w : List Token}

/-! ### Words that stand for each other -/

/-- Either word can stand in place of the other, as far as brackets go: as many are left over, and
the next token is swallowed behind both or behind neither. -/
structure Alike (u v : List Token) : Prop where
  pending : ∀ skipping, Grapevine.pending skipping u = Grapevine.pending skipping v
  excess : ∀ skipping, Grapevine.excess (brackets skipping u) =
    Grapevine.excess (brackets skipping v)

theorem Alike.refl (u : List Token) : Alike u u := ⟨fun _ => rfl, fun _ => rfl⟩

theorem Alike.trans (huv : Alike u v) (hvw : Alike v w) : Alike u w where
  pending k := (huv.pending k).trans (hvw.pending k)
  excess k := (huv.excess k).trans (hvw.excess k)

/-- Alike words can be exchanged within longer ones. -/
theorem Alike.append {u' v' : List Token} (hu : Alike u v) (hu' : Alike u' v') :
    Alike (u ++ u') (v ++ v') where
  pending k := by rw [pending_append, pending_append, hu.pending, hu'.pending]
  excess k := by
    rw [brackets_append, brackets_append, excess_append, excess_append, hu.pending, hu.excess,
      hu'.excess]

theorem alike_of_neutral (hu : Neutral u) (hv : Neutral v) : Alike u v where
  pending k := (hu.settled k).trans (hv.settled k).symm
  excess k := (hu.even k).trans (hv.even k).symm

/-- Non-terminals are replaced by words that leave nothing over. -/
def Tidy (g : Grammar) (cfg : Config) : Prop :=
  ∀ t u, t.isNonterminal = true → Produces g cfg t u → Neutral u

theorem plain_of_isNonterminal (ht : t.isNonterminal = true) : t.plain = true := by
  obtain ⟨symbol, params⟩ := t
  cases symbol <;> first | rfl | cases ht

theorem neutral_of_isNonterminal (ht : t.isNonterminal = true) : Neutral [t] :=
  balanced_nil.behind (plain_of_isNonterminal ht)

/-- A token can be exchanged for its replacement. -/
theorem alike_of_produces (hg : Tidy g cfg) (h : Produces g cfg t u) : Alike [t] u := by
  -- A `%` in front swallows the non-terminal in the one word and the first token of its replacement
  -- in the other, and it is all the same.
  cases ht : t.isNonterminal with
  | false =>
    rw [(produces_terminal ht).mp h]
    exact .refl [t]
  | true => exact alike_of_neutral (neutral_of_isNonterminal ht) (hg t u ht h)

theorem alike_of_becomes (hg : Tidy g cfg) (h : Becomes g cfg u v) : Alike u v := by
  induction h with
  | nil => exact .refl []
  | cons ht _ ih => exact (alike_of_produces hg ht).append ih

/-- A word can be exchanged for what derives from it. -/
theorem alike_of_derives (hg : Tidy g cfg) {n : Nat} (h : Derives g cfg n u v) : Alike u v := by
  induction n generalizing u with
  | zero =>
    rw [show v = u from h]
    exact .refl u
  | succ n ih =>
    obtain ⟨next, hnext, hrest⟩ := h
    exact (alike_of_becomes hg hnext).trans (ih hrest)

/-! ### What the standard rules write -/

theorem plain_of_adjusts (ht : t.adjusts = true) : t.plain = true := by
  obtain ⟨symbol, params⟩ := t
  cases symbol <;> first | rfl | cases ht

/-- A side branch closes the bracket it opens. -/
theorem balanced_branch (hu : Balanced u) : Balanced (branch u) where
  settled := by
    rw [branch, List.cons_append, pending]
    show pending false (u ++ [.bare .pop]) = false
    rw [pending_append, hu.settled]
    rfl
  even := by
    have hbrackets : brackets false (branch u) = .opening :: brackets false u ++ [.closing] := by
      show Bracket.opening :: brackets false (u ++ [.bare .pop]) = _
      rw [brackets_append, hu.settled]
      rfl
    rw [hbrackets, excess_append, excess_cons, hu.even]
    rfl

/-- A side branch that ends in a bud. -/
theorem balanced_branch_bud (hu : ∀ x ∈ u, x.adjusts = true) (ht : t.isNonterminal = true) :
    Balanced (branch (u ++ [t])) := by
  apply balanced_branch
  apply balanced_of_plain
  exact List.forall_mem_append.mpr ⟨fun x hx => plain_of_adjusts (hu x hx),
    List.forall_mem_singleton.mpr (plain_of_isNonterminal ht)⟩

/-- A stalk has no brackets. -/
theorem neutral_stalk (s : Stalk) : Neutral s.word := by
  apply neutral_of_plain
  · exact List.append_ne_nil_of_right_ne_nil _ (List.cons_ne_nil _ _)
  · exact List.forall_mem_append.mpr ⟨fun x hx => plain_of_adjusts (s.adjusts x hx),
      List.forall_mem_singleton.mpr rfl⟩

/-- The `%` of a pedicel swallows its own berry and no more. -/
theorem neutral_pedicel (p : Pedicel) : Neutral p.word := by
  obtain ⟨stalk, swallowed, size⟩ := p
  rw [Pedicel.word, List.append_assoc]
  apply (neutral_stalk stalk).append
  cases swallowed with
  | false => exact balanced_of_plain (List.forall_mem_singleton.mpr rfl)
  | true => exact balanced_skip ⟨.berry, [size]⟩

/-- The rules of the flat cluster write as many brackets of one kind as of the other, in order. -/
theorem Planar.tidy : Tidy (standard .planar) cfg := by
  intro t u ht hproduces
  obtain ⟨s, s', h⟩ := hproduces
  have hbend := adjusts_bendLeft cfg.branchAngle
  cases (replace_eq_ok_iff.mp h).1 with
  | terminal hterminal =>
    rw [hterminal] at ht
    cases ht
  | root_end | secondary_end => exact neutral_of_isNonterminal rfl
  | root_fork | secondary_fork =>
    exact ((balanced_branch_bud adjusts_rolls rfl).append
      (balanced_branch_bud hbend rfl)).behind rfl
  | tip =>
    have hbend' := adjusts_bendRight cfg.branchAngle
    exact (((balanced_branch_bud (List.forall_mem_nil _) rfl).append
      (balanced_branch_bud hbend rfl)).append (balanced_branch_bud hbend' rfl)).behind rfl
  | pedicel => exact (balanced_of_plain (List.forall_mem_singleton.mpr rfl)).behind rfl

/-- So do those of the cluster in space. -/
theorem Tapered.tidy : Tidy (standard .phyllotactic) cfg := by
  intro t u ht hproduces
  obtain ⟨s, s', h⟩ := hproduces
  have hbend := adjusts_bendLeft cfg.lateralAngle
  cases replace_eq_ok_iff.mp h with
  | terminal hterminal =>
    rw [hterminal] at ht
    cases ht
  | axis_end | secondary_end | pedicel => exact neutral_of_isNonterminal rfl
  | @axis_fork face =>
    exact ((balanced_branch_bud (adjusts_faceRoll face) rfl).append
      (balanced_branch_bud hbend rfl)).behind rfl
  | secondary_fork =>
    exact ((balanced_branch_bud adjusts_rollRight rfl).append
      (balanced_branch_bud hbend rfl)).behind rfl
  | tip =>
    obtain ⟨hleft, hright⟩ := adjusts_sides cfg.lateralAngle cfg.pedicelRoll
    exact (((balanced_branch_bud (List.forall_mem_nil _) rfl).append
      (balanced_branch_bud hleft rfl)).append (balanced_branch_bud hright rfl)).behind rfl
  | segment_plain => exact neutral_stalk _
  | segment_berry => exact neutral_pedicel _

theorem tidy_standard (cfg : Config) : Tidy (standard cfg.variant) cfg := by
  cases cfg.variant with
  | planar => exact Planar.tidy
  | phyllotactic => exact Tapered.tidy

theorem isNonterminal_start (cfg : Config) : cfg.start.isNonterminal = true := by
  unfold Config.start
  cases cfg.variant <;> rfl

end Grammar

/-! ### Derivations -/

/-- The brackets that are carried out cancel to so many `]` and so many `[` behind them. -/
def LeavesOver (word : List Token) (closed opened : Nat) : Prop :=
  Bracket.Cancels (brackets false word) (Excess.word ⟨closed, opened⟩)

theorem leavesOver_iff {word : List Token} {closed opened : Nat} :
    LeavesOver word closed opened ↔ excess (brackets false word) = ⟨closed, opened⟩ := cancels_iff

theorem existsUnique_leavesOver (word : List Token) :
    ∃ a b, ∀ c d, LeavesOver word c d ↔ c = a ∧ d = b := by
  refine ⟨(excess (brackets false word)).closed, (excess (brackets false word)).opened,
    fun c d => ?_⟩
  rw [leavesOver_iff, Excess.ext_iff]
  exact and_congr eq_comm eq_comm

namespace LSystem

variable {cfg : Config} {sys : LSystem}

/-- Expansion keeps the brackets that are left over. -/
theorem excess_expand (hsys : standard cfg = .ok sys) {word out : List Token} {n : Nat}
    (h : sys.expand word n = .ok out) :
    excess (brackets false out) = excess (brackets false word) := by
  obtain ⟨_, rfl⟩ := standard_eq_ok_iff.mp hsys
  obtain ⟨_, hpasses⟩ := expand_eq_ok_iff.mp h
  exact ((alike_of_derives (tidy_standard cfg) (derives_of_passes hpasses)).excess false).symm

/-- **An expansion leaves over as many brackets of each kind as its word**, and a derivation none:
for a word these numbers are there, and there are no others. -/
theorem leavesOver_expand (hsys : standard cfg = .ok sys) :
    (∀ word n out, sys.expand word n = .ok out →
      ∃ a b, (∀ c d, LeavesOver word c d ↔ c = a ∧ d = b) ∧
        ∀ c d, LeavesOver out c d ↔ c = a ∧ d = b) ∧
    ∀ n out, sys.derive n = .ok out → LeavesOver out 0 0 := by
  refine ⟨fun word n out h => ?_, fun n out h => ?_⟩
  · obtain ⟨a, b, hword⟩ := existsUnique_leavesOver word
    refine ⟨a, b, hword, fun c d => ?_⟩
    rw [leavesOver_iff, excess_expand hsys h, ← leavesOver_iff]
    exact hword c d
  · have hstart : Neutral [sys.config.start] :=
      neutral_of_isNonterminal (isNonterminal_start sys.config)
    rw [leavesOver_iff, excess_expand hsys (derive_eq_ok_iff.mp h).1, hstart.even]
    rfl

/-- A `%` in front of a tip swallows its stalk one generation later, and a `[` behind another `%`
never counts. -/
theorem leavesOver_expand_tip : ∃ sys, standard .planar = .ok sys ∧ ∃ out,
    sys.expand [.bare .pop, .bare .skip, .bud .tip [40], .bare .skip, .bare .push, .bare .push] 2 =
      .ok out ∧ out.length = 20 ∧ LeavesOver out 1 1 := by
  have hsys := @standard_of_valid .planar (by decide)
  have hexpand : ∃ out, LSystem.expand ⟨.planar, .standard .planar, by decide⟩
      [.bare .pop, .bare .skip, .bud .tip [40], .bare .skip, .bare .push, .bare .push] 2 =
        .ok out ∧ out.length = 20 := ⟨_, rfl, rfl⟩
  obtain ⟨out, hout, hlength⟩ := hexpand
  refine ⟨_, hsys, out, hout, hlength, ?_⟩
  obtain ⟨a, b, hword, hiff⟩ := (leavesOver_expand hsys).1 _ _ _ hout
  exact (hiff 1 1).mpr ((hword 1 1).mp (leavesOver_iff.mpr rfl))

end LSystem

end Grapevine
