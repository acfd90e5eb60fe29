import Grapevine.Proofs.Grammar.Variants

/-! What the rules of the two variants replace, and by what.

`Planar.Replaces` and `Tapered.Replaces` list the ways in which a token can be replaced, one
constructor each, with all that has to hold of the token and the constants; the latter also says
how far the stream of random words is read. They are the grammars and nothing else
(`Planar.replace_eq_ok_iff`, `Tapered.replace_eq_ok_iff`): a token that no constructor fits is
refused. -/
namespace Grapevine.Grammar

open Number Chance

variable {g : Grammar} {cfg : Config} {t : Token} {u : List Token} {s s' : Keystream}

/-- A non-terminal without a production is named in the fault. -/
theorem replace_of_get?_eq_none (ht : t.isNonterminal = true) (hget : g.get? t.symbol = none)
    (s : Keystream) : g.replace cfg t s = .error (.noProduction t.symbol) := by
  simp only [replace, ht, if_true, hget]
  rfl

theorem replace_terminal_eq_ok_iff (ht : t.isNonterminal = false) :
    g.replace cfg t s = .ok (u, s') ↔ u = [t] ∧ s' = s := by
  rw [replace_terminal g cfg ht]
  show Except.ok ([t], s) = _ ↔ _
  simp only [Except.ok.injEq, Prod.mk.injEq, eq_comm]

/-- A rule hands on the stream as it is. -/
theorem replace_rule_eq_ok_iff {rule : Rule} (ht : t.isNonterminal = true)
    (hget : g.get? t.symbol = some rule.production) :
    g.replace cfg t s = .ok (u, s') ↔ rule cfg t = .ok u ∧ s' = s := by
  rw [replace_nonterminal ht hget, Rule.production]
  cases rule cfg t with
  | error fault => simp [Except.map]
  | ok word =>
    simp only [Except.map, Except.ok.injEq, Prod.mk.injEq, eq_comm]

/-! ### Turns in front of buds -/

theorem adjusts_bendLeft (angle : Float32) :
    ∀ x ∈ [(⟨.bendLeft, [angle]⟩ : Token)], x.adjusts = true := List.forall_mem_singleton.mpr rfl

theorem adjusts_bendRight (angle : Float32) :
    ∀ x ∈ [(⟨.bendRight, [angle]⟩ : Token)], x.adjusts = true := List.forall_mem_singleton.mpr rfl

theorem adjusts_rollRight : ∀ x ∈ [Token.bare .rollRight], x.adjusts = true :=
  List.forall_mem_singleton.mpr rfl

/-- Half a turn. -/
theorem adjusts_rolls : ∀ x ∈ [Token.bare .rollLeft, .bare .rollLeft], x.adjusts = true := by
  simp [Token.adjusts, Token.bare]

/-- The outer two pedicels of a tip in space are bent and rolled to either side. -/
theorem adjusts_sides (angle roll : Float32) :
    (∀ x ∈ [(⟨.bendLeft, [angle]⟩ : Token), ⟨.rollLeft, [roll]⟩], x.adjusts = true) ∧
      ∀ x ∈ [(⟨.bendRight, [angle]⟩ : Token), ⟨.rollRight, [roll]⟩], x.adjusts = true := by
  simp [Token.adjusts]

/-! ### The flat cluster -/

namespace Planar

inductive Replaces (cfg : Config) : Token → List Token → Prop where
  | terminal {t : Token} : t.isNonterminal = false → Replaces cfg t [t]
  | root_end {depth length : Float32} : Single.truncate depth ≤ 1 →
      Replaces cfg (.bud .root [depth, length]) [.bud .tip [length * cfg.lengthRatio]]
  | root_fork {depth length : Float32} {k : Nat} : 1 < Single.truncate depth →
      cfg.lateralDepth (Single.truncate depth) = .ok k →
      Replaces cfg (.bud .root [depth, length])
        (⟨.forward, [length]⟩ ::
          branch [.bare .rollLeft, .bare .rollLeft,
            .bud .root [Single.ofInt (Single.truncate depth - 1), length * cfg.lengthRatio]] ++
          branch [⟨.bendLeft, [cfg.branchAngle]⟩,
            .bud .secondary [Single.ofNat k, length * cfg.lengthRatio]])
  | secondary_end {depth length : Float32} : Single.truncate depth ≤ 1 →
      Replaces cfg (.bud .secondary [depth, length]) [.bud .tip [length * cfg.lengthRatio]]
  | secondary_fork {depth length : Float32} : 1 < Single.truncate depth →
      Replaces cfg (.bud .secondary [depth, length])
        (⟨.forward, [length]⟩ ::
          branch [.bare .rollLeft, .bare .rollLeft,
            .bud .secondary [Single.ofInt (Single.truncate depth - 1),
              length * cfg.lengthRatio]] ++
          branch [⟨.bendLeft, [cfg.branchAngle]⟩, .bud .tip [length * cfg.lengthRatio]])
  | tip {length : Float32} :
      Replaces cfg (.bud .tip [length])
        (⟨.forward, [length]⟩ :: branch [.bud .pedicel [length * cfg.lengthRatio]] ++
          branch [⟨.bendLeft, [cfg.branchAngle]⟩, .bud .pedicel [length * cfg.lengthRatio]] ++
          branch [⟨.bendRight, [cfg.branchAngle]⟩, .bud .pedicel [length * cfg.lengthRatio]])
  | pedicel {length : Float32} :
      Replaces cfg (.bud .pedicel [length])
        [⟨.forward, [length]⟩, ⟨.berry, [cfg.baseLength * cfg.berryRatio]⟩]

theorem replaces_of_root {params : List Float32} (h : root cfg (.bud .root params) = .ok u) :
    Replaces cfg (.bud .root params) u := by
  match params with
  | [depth, length] =>
    rcases Int.lt_or_le 1 (Single.truncate depth) with hlt | hle
    · rw [root_of_lt cfg length hlt] at h
      cases hk : cfg.lateralDepth (Single.truncate depth) with
      | error fault =>
        rw [hk] at h
        cases h
      | ok k =>
        rw [hk] at h
        cases h
        exact .root_fork hlt hk
    · have hend : root cfg (.bud .root [depth, length]) =
          .ok [.bud .tip [length * cfg.lengthRatio]] := if_pos hle
      rw [hend] at h
      cases h
      exact .root_end hle
  | [] | [_] | _ :: _ :: _ :: _ => cases h

theorem replaces_of_secondary {params : List Float32}
    (h : secondary cfg (.bud .secondary params) = .ok u) :
    Replaces cfg (.bud .secondary params) u := by
  match params with
  | [depth, length] =>
    rcases Int.lt_or_le 1 (Single.truncate depth) with hlt | hle
    · cases (if_neg (Int.not_le.mpr hlt)).symm.trans h
      exact .secondary_fork hlt
    · cases (if_pos hle).symm.trans h
      exact .secondary_end hle
  | [] | [_] | _ :: _ :: _ :: _ => cases h

theorem replaces_of_tip {params : List Float32} (h : tip cfg (.bud .tip params) = .ok u) :
    Replaces cfg (.bud .tip params) u := by
  match params with
  | [length] =>
    cases h
    exact .tip
  | [] | _ :: _ :: _ => cases h

theorem replaces_of_pedicel {params : List Float32}
    (h : pedicel cfg (.bud .pedicel params) = .ok u) :
    Replaces cfg (.bud .pedicel params) u := by
  match params with
  | [length] =>
    cases h
    exact .pedicel
  | [] | _ :: _ :: _ => cases h

theorem Replaces.of_replace (h : (standard .planar).replace cfg t s = .ok (u, s')) :
    Replaces cfg t u ∧ s' = s := by
  obtain ⟨symbol, params⟩ := t
  cases symbol with
  | bud tag =>
    cases tag with
    | root =>
      obtain ⟨hrule, hs⟩ := (replace_rule_eq_ok_iff rfl get?_root).mp h
      exact ⟨replaces_of_root hrule, hs⟩
    | secondary =>
      obtain ⟨hrule, hs⟩ := (replace_rule_eq_ok_iff rfl get?_secondary).mp h
      exact ⟨replaces_of_secondary hrule, hs⟩
    | tip =>
      obtain ⟨hrule, hs⟩ := (replace_rule_eq_ok_iff rfl get?_tip).mp h
      exact ⟨replaces_of_tip hrule, hs⟩
    | pedicel =>
      obtain ⟨hrule, hs⟩ := (replace_rule_eq_ok_iff rfl get?_pedicel).mp h
      exact ⟨replaces_of_pedicel hrule, hs⟩
    | faceC | faceV | faceB | faceN =>
      rw [replace_of_get?_eq_none rfl rfl] at h
      cases h
  | segment =>
    rw [replace_of_get?_eq_none rfl rfl] at h
    cases h
  | _ =>
    obtain ⟨rfl, hs⟩ := (replace_terminal_eq_ok_iff rfl).mp h
    exact ⟨.terminal rfl, hs⟩

theorem Replaces.replace (h : Replaces cfg t u) (s : Keystream) :
    (standard .planar).replace cfg t s = .ok (u, s) := by
  cases h with
  | terminal ht => exact (replace_terminal_eq_ok_iff ht).mpr ⟨rfl, rfl⟩
  | root_end hle => exact replace_of_rule rfl get?_root (if_pos hle) s
  | @root_fork _ length _ hlt hk =>
    have hroot := root_of_lt cfg length hlt
    rw [hk] at hroot
    exact replace_of_rule rfl get?_root hroot s
  | secondary_end hle => exact replace_of_rule rfl get?_secondary (if_pos hle) s
  | secondary_fork hlt => exact replace_of_rule rfl get?_secondary (if_neg (Int.not_le.mpr hlt)) s
  | tip => exact replace_of_rule rfl get?_tip rfl s
  | pedicel => exact replace_of_rule rfl get?_pedicel rfl s

/-- The rules of the flat cluster do what `Replaces` lists, and draw nothing. -/
theorem replace_eq_ok_iff :
    (standard .planar).replace cfg t s = .ok (u, s') ↔ Replaces cfg t u ∧ s' = s := by
  apply Iff.intro
  · exact Replaces.of_replace
  · intro h
    obtain ⟨hreplaces, rfl⟩ := h
    exact hreplaces.replace s'

end Planar

/-! ### The cluster in space -/

namespace Tapered

inductive Replaces (cfg : Config) : Token → Keystream → List Token → Keystream → Prop where
  | terminal {t : Token} {s : Keystream} : t.isNonterminal = false → Replaces cfg t s [t] s
  | axis_end {face : Tag} {depth length width : Float32} {s : Keystream} : IsFace face →
      Single.truncate depth ≤ 1 →
      Replaces cfg (.bud face [depth, length, width]) s
        [.bud .tip [length * cfg.tipRatio, width]] s
  | axis_fork {face : Tag} {depth length width : Float32} {s : Keystream} : IsFace face →
      1 < Single.truncate depth →
      Replaces cfg (.bud face [depth, length, width]) s
        (straight length width ::
          branch (faceRoll face ++
            [.bud (nextFace face)
              [Single.ofInt (Single.truncate depth - 1), length * cfg.axisRatio, width]]) ++
          branch [⟨.bendLeft, [cfg.lateralAngle]⟩,
            .bud .secondary
              [Single.ofNat cfg.secondaryDepth, length * cfg.lateralRatio, width]]) s
  | secondary_end {depth length width : Float32} {s : Keystream} : Single.truncate depth ≤ 1 →
      Replaces cfg (.bud .secondary [depth, length, width]) s
        [.bud .tip [length * cfg.tipRatio, width]] s
  | secondary_fork {depth length width : Float32} {s : Keystream} : 1 < Single.truncate depth →
      Replaces cfg (.bud .secondary [depth, length, width]) s
        (straight length width ::
          branch [.bare .rollRight,
            .bud .secondary
              [Single.ofInt (Single.truncate depth - 1), length * cfg.secondaryRatio, width]] ++
          branch [⟨.bendLeft, [cfg.lateralAngle]⟩,
            .bud .tip [length * cfg.secondaryTipRatio, width]]) s
  | tip {length width : Float32} {s : Keystream} :
      Replaces cfg (.bud .tip [length, width]) s
        (straight length width :: branch [.bud .pedicel [length * cfg.pedicelRatio, width]] ++
          branch [⟨.bendLeft, [cfg.lateralAngle]⟩, ⟨.rollLeft, [cfg.pedicelRoll]⟩,
            .bud .pedicel [length * cfg.pedicelRatio, width]] ++
          branch [⟨.bendRight, [cfg.lateralAngle]⟩, ⟨.rollRight, [cfg.pedicelRoll]⟩,
            .bud .pedicel [length * cfg.pedicelRatio, width]]) s
  | pedicel {length width : Float32} {s : Keystream} :
      Replaces cfg (.bud .pedicel [length, width]) s [⟨.segment, [1, 0, 0, length, width]⟩] s
  | segment_plain {kind bend pitch length width : Float32} {s : Keystream} :
      Single.truncate kind = 0 →
      Replaces cfg ⟨.segment, [kind, bend, pitch, length, width]⟩ s
        (stalk cfg bend pitch length width).word s
  | segment_berry {kind bend pitch length width size : Float32} {s s' : Keystream} :
      Single.truncate kind = 1 → berrySize cfg s = .ok (size, s') →
      Replaces cfg ⟨.segment, [kind, bend, pitch, length, width]⟩ s
        (⟨stalk cfg bend pitch length width, suppressed cfg length, size⟩ : Pedicel).word s'

theorem replaces_of_axis {face : Tag} {params : List Float32} (hface : IsFace face)
    (h : axis cfg (.bud face params) = .ok u) : Replaces cfg (.bud face params) s u s := by
  match params with
  | [depth, length, width] =>
    rcases Int.lt_or_le 1 (Single.truncate depth) with hlt | hle
    · cases (if_neg (Int.not_le.mpr hlt)).symm.trans h
      exact .axis_fork hface hlt
    · cases (if_pos hle).symm.trans h
      exact .axis_end hface hle
  | [] | [_] | [_, _] | _ :: _ :: _ :: _ :: _ => cases h

theorem replaces_of_secondary {params : List Float32}
    (h : secondary cfg (.bud .secondary params) = .ok u) :
    Replaces cfg (.bud .secondary params) s u s := by
  match params with
  | [depth, length, width] =>
    rcases Int.lt_or_le 1 (Single.truncate depth) with hlt | hle
    · cases (if_neg (Int.not_le.mpr hlt)).symm.trans h
      exact .secondary_fork hlt
    · cases (if_pos hle).symm.trans h
      exact .secondary_end hle
  | [] | [_] | [_, _] | _ :: _ :: _ :: _ :: _ => cases h

theorem replaces_of_tip {params : List Float32} (h : tip cfg (.bud .tip params) = .ok u) :
    Replaces cfg (.bud .tip params) s u s := by
  match params with
  | [length, width] =>
    cases h
    exact .tip
  | [] | [_] | _ :: _ :: _ :: _ => cases h

theorem replaces_of_pedicel {params : List Float32}
    (h : pedicel cfg (.bud .pedicel params) = .ok u) :
    Replaces cfg (.bud .pedicel params) s u s := by
  match params with
  | [length, width] =>
    cases h
    exact .pedicel
  | [] | [_] | _ :: _ :: _ :: _ => cases h

/-- A segment of another type than 0 and 1 is a fault. -/
theorem segment_of_other {kind : Float32} (bend pitch length width : Float32)
    (h₀ : Single.truncate kind ≠ 0) (h₁ : Single.truncate kind ≠ 1) (s : Keystream) :
    segment cfg ⟨.segment, [kind, bend, pitch, length, width]⟩ s =
      .error (.config (.segmentKind (Single.truncate kind))) := by
  simp only [segment]
  rfl

/-- What the numbers of a segment can be. -/
inductive SegmentCase (cfg : Config) : List Float32 → Prop where
  | plain {kind : Float32} (bend pitch length width : Float32) (hkind : Single.truncate kind = 0) :
      SegmentCase cfg [kind, bend, pitch, length, width]
  | berry {kind : Float32} (bend pitch length width : Float32) (hkind : Single.truncate kind = 1) :
      SegmentCase cfg [kind, bend, pitch, length, width]
  | other {kind : Float32} (bend pitch length width : Float32) (h₀ : Single.truncate kind ≠ 0)
      (h₁ : Single.truncate kind ≠ 1) : SegmentCase cfg [kind, bend, pitch, length, width]
  | arity {params : List Float32} (h : ∀ s, segment cfg ⟨.segment, params⟩ s =
      .error (.arity .segment 5 params.length)) : SegmentCase cfg params

theorem segmentCase (cfg : Config) (params : List Float32) : SegmentCase cfg params := by
  match params with
  | [kind, bend, pitch, length, width] =>
    by_cases h₀ : Single.truncate kind = 0
    · exact .plain bend pitch length width h₀
    · by_cases h₁ : Single.truncate kind = 1
      · exact .berry bend pitch length width h₁
      · exact .other bend pitch length width h₀ h₁
  | [] | [_] | [_, _] | [_, _, _] | [_, _, _, _] | _ :: _ :: _ :: _ :: _ :: _ :: _ =>
    exact .arity fun _ => rfl

theorem replaces_of_segment {params : List Float32}
    (h : segment cfg ⟨.segment, params⟩ s = .ok (u, s')) :
    Replaces cfg ⟨.segment, params⟩ s u s' := by
  cases segmentCase cfg params with
  | plain bend pitch length width hkind =>
    rw [segment_plain bend pitch length width hkind] at h
    cases h
    exact .segment_plain hkind
  | berry bend pitch length width hkind =>
    rw [segment_berry bend pitch length width hkind] at h
    cases hsize : berrySize cfg s with
    | error fault =>
      rw [hsize] at h
      cases h
    | ok drawn =>
      rw [hsize] at h
      cases h
      exact .segment_berry hkind hsize
  | other bend pitch length width h₀ h₁ =>
    rw [segment_of_other bend pitch length width h₀ h₁] at h
    cases h
  | arity harity =>
    rw [harity] at h
    cases h

theorem Replaces.of_replace (h : (standard .phyllotactic).replace cfg t s = .ok (u, s')) :
    Replaces cfg t s u s' := by
  have haxis : ∀ {face : Tag} {params : List Float32}, IsFace face →
      (standard .phyllotactic).replace cfg (.bud face params) s = .ok (u, s') →
        Replaces cfg (.bud face params) s u s' := by
    intro face params hface h
    obtain ⟨hrule, rfl⟩ := (replace_rule_eq_ok_iff rfl (get?_axis hface)).mp h
    exact replaces_of_axis hface hrule
  obtain ⟨symbol, params⟩ := t
  cases symbol with
  | bud tag =>
    cases tag with
    | root | faceC | faceV | faceB | faceN => exact haxis (by simp [IsFace]) h
    | secondary =>
      obtain ⟨hrule, rfl⟩ := (replace_rule_eq_ok_iff rfl get?_secondary).mp h
      exact replaces_of_secondary hrule
    | tip =>
      obtain ⟨hrule, rfl⟩ := (replace_rule_eq_ok_iff rfl get?_tip).mp h
      exact replaces_of_tip hrule
    | pedicel =>
      obtain ⟨hrule, rfl⟩ := (replace_rule_eq_ok_iff rfl get?_pedicel).mp h
      exact replaces_of_pedicel hrule
  | segment =>
    rw [replace_segment] at h
    exact replaces_of_segment h
  | _ =>
    obtain ⟨rfl, rfl⟩ := (replace_terminal_eq_ok_iff rfl).mp h
    exact .terminal rfl

theorem Replaces.replace (h : Replaces cfg t s u s') :
    (standard .phyllotactic).replace cfg t s = .ok (u, s') := by
  cases h with
  | terminal ht => exact (replace_terminal_eq_ok_iff ht).mpr ⟨rfl, rfl⟩
  | axis_end hface hle => exact replace_of_rule rfl (get?_axis hface) (if_pos hle) s
  | axis_fork hface hlt =>
    exact replace_of_rule rfl (get?_axis hface) (if_neg (Int.not_le.mpr hlt)) s
  | secondary_end hle => exact replace_of_rule rfl get?_secondary (if_pos hle) s
  | secondary_fork hlt => exact replace_of_rule rfl get?_secondary (if_neg (Int.not_le.mpr hlt)) s
  | tip => exact replace_of_rule rfl get?_tip rfl s
  | pedicel => exact replace_of_rule rfl get?_pedicel rfl s
  | @segment_plain _ bend pitch length width _ hkind =>
    rw [replace_segment, Tapered.segment_plain bend pitch length width hkind]
  | @segment_berry _ bend pitch length width _ _ _ hkind hsize =>
    rw [replace_berry bend pitch length width hkind, hsize]
    rfl

/-- The rules of the cluster in space do what `Replaces` lists. -/
theorem replace_eq_ok_iff :
    (standard .phyllotactic).replace cfg t s = .ok (u, s') ↔ Replaces cfg t s u s' :=
  ⟨Replaces.of_replace, Replaces.replace⟩

end Tapered

end Grapevine.Grammar
