import Grapevine.Proofs.Grammar.Replacement
import Grapevine.Proofs.Grammar.Rounds

/-! When a token was written, and how long it is for that.

A derivation does not remember in which pass a token was written. `datedPasses` does: a replacement
has the date of its pass, and a terminal keeps the date it has. Without the dates the words are those
of a derivation (`datedPasses_erased`), and what one pass hands on to its replacements, given their
date, holds of the words of any number of passes (`datedPasses_forall`). In the flat cluster a length
and a date say the same (`LSystem.lengths_of_expand`). -/
namespace Grapevine

open Chance Number Grammar

/-- A number, multiplied so many times by another. -/
def scaled (x ratio : Float32) : Nat → Float32
  | 0 => x
  | n + 1 => scaled x ratio n * ratio

/-- The first multiplication may as well be done before. -/
theorem scaled_mul (x ratio : Float32) (n : Nat) :
    scaled (x * ratio) ratio n = scaled x ratio (n + 1) := by
  induction n with
  | zero => rfl
  | succ n ih => exact congrArg (· * ratio) ih

/-- A token, and the pass that wrote it. What was there before the first pass is of pass 0. -/
structure Dated where
  token : Token
  pass : Nat

/-- A word without its dates. -/
def erased (word : List Dated) : List Token := word.map Dated.token

namespace Grammar

variable {g : Grammar} {cfg : Config} {word out : List Dated} {s s' : Keystream} {k n : Nat}

/-- A pass that dates what it writes. -/
def datedPass (g : Grammar) (cfg : Config) (k : Nat) : List Dated → Draw (List Dated)
  | [] => pure []
  | t :: word => do
    let u ← g.replace cfg t.token
    let next ← datedPass g cfg k word
    return u.map (⟨·, if t.token.isNonterminal then k else t.pass⟩) ++ next

/-- So many passes that date what they write, behind `k` passes before. -/
def datedPasses (g : Grammar) (cfg : Config) (k : Nat) : Nat → List Dated → Draw (List Dated)
  | 0, word => pure word
  | n + 1, word => do
    let next ← datedPass g cfg (k + 1) word
    datedPasses g cfg (k + 1) n next

/-! ### Passes with and without dates -/

theorem datedPass_erased (k : Nat) (word : List Dated) (s : Keystream) :
    (datedPass g cfg k word s).map (fun (next, s) => (erased next, s)) =
      pass g cfg (erased word) s := by
  induction word generalizing s with
  | nil => rfl
  | cons t word ih =>
    show Except.map _ ((g.replace cfg t.token s).bind fun a => (datedPass g cfg k word a.2).bind _) =
      pass g cfg (t.token :: erased word) s
    rw [pass_cons]
    cases g.replace cfg t.token s with
    | error fault => rfl
    | ok a =>
      show Except.map _ ((datedPass g cfg k word a.2).bind _) = Except.map _ (pass g cfg _ a.2)
      rw [← ih]
      cases datedPass g cfg k word a.2 with
      | error fault => rfl
      | ok b =>
        show Except.ok (erased (_ ++ b.1), b.2) = Except.ok (a.1 ++ erased b.1, b.2)
        rw [erased, List.map_append, List.map_map]
        exact congrArg (fun u => Except.ok (u ++ erased b.1, b.2)) (List.map_id a.1)

/-- **Dates change nothing.** -/
theorem datedPasses_erased (k n : Nat) (word : List Dated) (s : Keystream) :
    (datedPasses g cfg k n word s).map (fun (next, s) => (erased next, s)) =
      rounds g cfg n (erased word) s := by
  induction n generalizing k word s with
  | zero => rfl
  | succ n ih =>
    rw [rounds_succ, ← datedPass_erased (k + 1)]
    show Except.map _ ((datedPass g cfg (k + 1) word s).bind _) = _
    cases datedPass g cfg (k + 1) word s with
    | error fault => rfl
    | ok a => exact ih (k + 1) a.1 a.2

theorem datedPass_cons_eq_ok {t : Dated} (h : datedPass g cfg k (t :: word) s = .ok (out, s')) :
    ∃ u s₁ next, g.replace cfg t.token s = .ok (u, s₁) ∧
      datedPass g cfg k word s₁ = .ok (next, s') ∧
      out = u.map (⟨·, if t.token.isNonterminal then k else t.pass⟩) ++ next := by
  change (g.replace cfg t.token s).bind (fun a => (datedPass g cfg k word a.2).bind _) = _ at h
  cases hu : g.replace cfg t.token s with
  | error fault =>
    rw [hu] at h
    cases h
  | ok a =>
    rw [hu] at h
    change (datedPass g cfg k word a.2).bind _ = _ at h
    cases hnext : datedPass g cfg k word a.2 with
    | error fault =>
      rw [hnext] at h
      cases h
    | ok b =>
      rw [hnext] at h
      cases h
      exact ⟨_, _, _, rfl, hnext, rfl⟩

/-- What holds of tokens and dates after one pass, if it comes of what held before. -/
theorem datedPass_forall {P Q : Dated → Prop}
    (hreplace : ∀ (t : Dated) u s s', P t → g.replace cfg t.token s = .ok (u, s') →
      ∀ x ∈ u, Q ⟨x, if t.token.isNonterminal then k else t.pass⟩)
    (h : datedPass g cfg k word s = .ok (out, s')) (hword : ∀ t ∈ word, P t) : ∀ t ∈ out, Q t := by
  induction word generalizing out s with
  | nil =>
    cases h
    exact List.forall_mem_nil _
  | cons t word ih =>
    obtain ⟨ht, hword⟩ := List.forall_mem_cons.mp hword
    obtain ⟨u, s₁, next, hu, hnext, rfl⟩ := datedPass_cons_eq_ok h
    refine List.forall_mem_append.mpr ⟨?_, ih hnext hword⟩
    exact List.forall_mem_map.mpr (hreplace t u s s₁ ht hu)

/-- **What every pass hands on holds after all of them.** -/
theorem datedPasses_forall {P : Nat → Dated → Prop}
    (hreplace : ∀ k (t : Dated) u s s', P k t → g.replace cfg t.token s = .ok (u, s') →
      ∀ x ∈ u, P (k + 1) ⟨x, if t.token.isNonterminal then k + 1 else t.pass⟩)
    (h : datedPasses g cfg k n word s = .ok (out, s')) (hword : ∀ t ∈ word, P k t) :
    ∀ t ∈ out, P (k + n) t := by
  induction n generalizing k word s with
  | zero =>
    cases h
    exact hword
  | succ n ih =>
    change (datedPass g cfg (k + 1) word s).bind _ = _ at h
    cases hnext : datedPass g cfg (k + 1) word s with
    | error fault =>
      rw [hnext] at h
      cases h
    | ok a =>
      rw [hnext] at h
      rw [Nat.add_comm n 1, ← Nat.add_assoc]
      exact ih h (datedPass_forall (hreplace k) hnext hword)

/-! ### Lengths in the flat cluster -/

/-- The length that is drawn in the pass behind `n` others. -/
def Config.lengthAfter (cfg : Config) (n : Nat) : Float32 := scaled cfg.baseLength cfg.lengthRatio n

namespace Planar

/-- What a date says of a token, when `n` passes are done: what still grows has the length of the
next pass, what was drawn in a pass has the length of that pass, and all berries are of one size. -/
structure InStep (cfg : Config) (n : Nat) (t : Dated) : Prop where
  nonterminal : t.token.isNonterminal = true →
    t.token.params.getLast? = some (cfg.lengthAfter n)
  forward : t.token.symbol = .forward →
    ∃ j < n, t.pass = j + 1 ∧ t.token.params = [cfg.lengthAfter j]
  berry : t.token.symbol = .berry → t.token.params = [cfg.baseLength * cfg.berryRatio]

theorem InStep.terminal {t : Dated} (h : InStep cfg n t) (ht : t.token.isNonterminal = false) :
    InStep cfg (n + 1) t where
  nonterminal hbud := by
    rw [ht] at hbud
    cases hbud
  forward hforward := by
    obtain ⟨j, hj, hdate, hparams⟩ := h.forward hforward
    exact ⟨j, Nat.lt_succ_of_lt hj, hdate, hparams⟩
  berry := h.berry

/-- A bud that a pass writes has the length of the next one. -/
theorem inStep_bud (tag : Tag) {params : List Float32}
    (h : params.getLast? = some (cfg.lengthAfter n)) : InStep cfg n ⟨.bud tag params, n⟩ where
  nonterminal _ := h
  forward hforward := by cases hforward
  berry hberry := by cases hberry

theorem inStep_forward (n : Nat) :
    InStep cfg (n + 1) ⟨⟨.forward, [cfg.lengthAfter n]⟩, n + 1⟩ where
  nonterminal hbud := by cases hbud
  forward _ := ⟨n, Nat.lt_succ_self n, rfl, rfl⟩
  berry hberry := by cases hberry

theorem inStep_berry (n : Nat) :
    InStep cfg n ⟨⟨.berry, [cfg.baseLength * cfg.berryRatio]⟩, n⟩ where
  nonterminal hbud := by cases hbud
  forward hforward := by cases hforward
  berry _ := rfl

/-- Of all else a date says nothing. -/
theorem inStep_other {t : Token} (hterminal : t.isNonterminal = false)
    (hforward : t.symbol ≠ .forward) (hberry : t.symbol ≠ .berry) (n d : Nat) :
    InStep cfg n ⟨t, d⟩ where
  nonterminal hbud := by cases hterminal.symm.trans hbud
  forward h := absurd h hforward
  berry h := absurd h hberry

theorem inStep_adjusts {t : Token} (ht : t.adjusts = true) (n d : Nat) : InStep cfg n ⟨t, d⟩ := by
  obtain ⟨symbol, params⟩ := t
  refine inStep_other ?_ (fun h => ?_) (fun h => ?_) n d
  · cases symbol <;> first | rfl | cases ht
  · cases h
    cases ht
  · cases h
    cases ht

/-- A word that a pass has just written. -/
def Fresh (cfg : Config) (n : Nat) (u : List Token) : Prop := ∀ x ∈ u, InStep cfg n ⟨x, n⟩

theorem Fresh.cons {t : Token} {u : List Token} (ht : InStep cfg n ⟨t, n⟩) (hu : Fresh cfg n u) :
    Fresh cfg n (t :: u) := List.forall_mem_cons.mpr ⟨ht, hu⟩

theorem Fresh.append {u v : List Token} (hu : Fresh cfg n u) (hv : Fresh cfg n v) :
    Fresh cfg n (u ++ v) := List.forall_mem_append.mpr ⟨hu, hv⟩

theorem Fresh.branch {u : List Token} (hu : Fresh cfg n u) : Fresh cfg n (branch u) :=
  (hu.cons (inStep_other rfl (by decide) (by decide) n n)).append
    (List.forall_mem_singleton.mpr (inStep_other rfl (by decide) (by decide) n n))

/-- Turns, and a bud of the next length behind them. -/
theorem fresh_turns {turns : List Token} (hturns : ∀ t ∈ turns, t.adjusts = true) {tag : Tag}
    {params : List Float32} (h : params.getLast? = some (cfg.lengthAfter n)) :
    Fresh cfg n (turns ++ [.bud tag params]) :=
  Fresh.append (fun t ht => inStep_adjusts (hturns t ht) n n)
    (List.forall_mem_singleton.mpr (inStep_bud tag h))

/-- **Every rule multiplies once for each bud that it writes.** -/
theorem fresh_of_replaces {t : Token} {u : List Token} (h : Replaces cfg t u)
    (ht : t.isNonterminal = true) (hlast : t.params.getLast? = some (cfg.lengthAfter n)) :
    Fresh cfg (n + 1) u := by
  have hstalk := @inStep_forward cfg n
  -- The last parameter of a bud is its length, which is now known.
  cases h with
  | terminal hterminal => cases hterminal.symm.trans ht
  | root_end | secondary_end =>
    cases hlast
    exact fresh_turns (List.forall_mem_nil _) rfl
  | root_fork | secondary_fork =>
    cases hlast
    exact ((fresh_turns adjusts_rolls rfl).branch.cons hstalk).append
      (fresh_turns (adjusts_bendLeft cfg.branchAngle) rfl).branch
  | tip =>
    cases hlast
    have hpedicel : ∀ {turns : List Token}, (∀ t ∈ turns, t.adjusts = true) →
        Fresh cfg (n + 1) (Grammar.branch (turns ++
          [.bud .pedicel [cfg.lengthAfter n * cfg.lengthRatio]])) :=
      fun hturns => (fresh_turns hturns rfl).branch
    exact (((hpedicel (List.forall_mem_nil _)).cons hstalk).append
      (hpedicel (adjusts_bendLeft cfg.branchAngle))).append
        (hpedicel (adjusts_bendRight cfg.branchAngle))
  | pedicel =>
    cases hlast
    exact Fresh.cons hstalk (List.forall_mem_singleton.mpr (inStep_berry (n + 1)))

theorem inStep_of_replace {t : Dated} {u : List Token} (h : InStep cfg n t)
    (hu : (standard .planar).replace cfg t.token s = .ok (u, s')) :
    ∀ x ∈ u, InStep cfg (n + 1) ⟨x, if t.token.isNonterminal then n + 1 else t.pass⟩ := by
  cases ht : t.token.isNonterminal with
  | true => exact fresh_of_replaces (replace_eq_ok_iff.mp hu).1 ht (h.nonterminal ht)
  | false =>
    obtain ⟨rfl, _⟩ := (replace_terminal_eq_ok_iff ht).mp hu
    exact List.forall_mem_singleton.mpr (h.terminal ht)

end Planar

end Grammar

namespace LSystem

/-- An expansion with the date of every token. -/
def datedExpand (sys : LSystem) (word : List Token) (n : Nat) : Except Fault (List Dated) :=
  (datedPasses sys.grammar sys.config 0 n (word.map (⟨·, 0⟩))).run' (.ofSeed sys.config.seed)

/-- The dated words of an expansion are its words. -/
theorem exists_datedExpand {sys : LSystem} {word out : List Token} {n : Nat}
    (h : sys.expand word n = .ok out) :
    ∃ dated s, datedPasses sys.grammar sys.config 0 n (word.map (⟨·, 0⟩))
      (.ofSeed sys.config.seed) = .ok (dated, s) ∧ sys.datedExpand word n = .ok dated ∧
        erased dated = out := by
  obtain ⟨s, hpasses⟩ := expand_eq_ok_iff.mp h
  rw [passes_eq_rounds] at hpasses
  have hword : erased (word.map (⟨·, 0⟩)) = word := by
    rw [erased, List.map_map]
    exact List.map_id word
  have herased := @datedPasses_erased sys.grammar sys.config 0 n (word.map (⟨·, 0⟩))
    (.ofSeed sys.config.seed)
  rw [hword, hpasses] at herased
  cases hdated : datedPasses sys.grammar sys.config 0 n (word.map (⟨·, 0⟩))
      (.ofSeed sys.config.seed) with
  | error fault =>
    rw [hdated] at herased
    cases herased
  | ok a =>
    rw [hdated] at herased
    cases herased
    exact ⟨a.1, a.2, rfl, congrArg (Except.map Prod.fst) hdated, rfl⟩

/-- **In the flat cluster lengths decay in step with the passes.** Whatever still grows after `n`
passes has the base length, `n` times multiplied by the length ratio; an internode or a stalk that
pass `j + 1` drew has it `j` times multiplied; and every berry has the one size. -/
theorem lengths_of_expand {cfg : Config} {sys : LSystem} {n : Nat} {out : List Token}
    (hsys : standard cfg = .ok sys) (hflat : cfg.variant = .planar)
    (h : sys.expand [cfg.start] n = .ok out) :
    ∃ dated, sys.datedExpand [cfg.start] n = .ok dated ∧ erased dated = out ∧
      ∀ t ∈ dated, Planar.InStep cfg n t := by
  obtain ⟨_, rfl⟩ := standard_eq_ok_iff.mp hsys
  obtain ⟨dated, s, hpasses, hdated, herased⟩ := exists_datedExpand h
  refine ⟨dated, hdated, herased, ?_⟩
  have hstart : ∀ t ∈ [(⟨cfg.start, 0⟩ : Dated)], Planar.InStep cfg 0 t := by
    rw [Config.start, hflat]
    exact List.forall_mem_singleton.mpr (Planar.inStep_bud .root rfl)
  have hall := datedPasses_forall (P := Planar.InStep cfg)
    (fun k t u s s' ht hu => by rw [hflat] at hu; exact Planar.inStep_of_replace ht hu)
    hpasses hstart
  rwa [Nat.zero_add] at hall

/-- Two internodes, and lengths that are halved from pass to pass. -/
def halved : Config := { Config.planar with depth := 2, lengthRatio := 0.5 }

/-- The second internode and the lateral beside it end in tips of a quarter of the first length. -/
theorem lengths_of_expand_halved : ∃ sys dated, standard halved = .ok sys ∧
    sys.datedExpand [halved.start] 2 = .ok dated ∧
    erased dated = ⟨.forward, [40]⟩ ::
      branch [.bare .rollLeft, .bare .rollLeft, .bud .tip [10]] ++
      branch [⟨.bendLeft, [45]⟩, .bud .tip [10]] ∧
    ∀ t ∈ dated, Planar.InStep halved 2 t := by
  have hsys := @standard_of_valid halved (by decide)
  have hout : LSystem.expand ⟨halved, .standard .planar, by decide⟩ [halved.start] 2 =
      .ok (⟨.forward, [40]⟩ :: branch [.bare .rollLeft, .bare .rollLeft, .bud .tip [10]] ++
        branch [⟨.bendLeft, [45]⟩, .bud .tip [10]]) := by decide +kernel
  obtain ⟨dated, hdated, herased, hall⟩ := lengths_of_expand hsys rfl hout
  exact ⟨_, dated, hsys, hdated, herased, hall⟩

end LSystem

end Grapevine
