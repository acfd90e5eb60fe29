import Grapevine.Proofs.Grammar.Habit

/-! The habits of the two variants, and that the start of either grammar is a bud of its axis. -/
namespace Grapevine.Grammar

open Number Chance

variable {g : Grammar} {cfg : Config}

theorem replace_nonterminal {t : Token} {production : Production} (ht : t.isNonterminal = true)
    (hget : g.get? t.symbol = some production) : g.replace cfg t = production cfg t := by
  simp only [replace, ht, if_true, hget]

/-- A rule gives the same on every stream and draws nothing from it. -/
theorem replace_of_rule {t : Token} {rule : Rule} {u : List Token} (ht : t.isNonterminal = true)
    (hget : g.get? t.symbol = some rule.production) (hrule : rule cfg t = .ok u) (s : Keystream) :
    g.replace cfg t s = .ok (u, s) := by
  rw [replace_nonterminal ht hget, Rule.production, hrule]
  rfl

theorem reduced_stalk (s : Stalk) : Reduced s.word :=
  reduced_append.mpr ⟨reduced_of_adjusts s.adjusts, List.forall_mem_singleton.mpr rfl⟩

theorem reduced_pedicel (p : Pedicel) : Reduced p.word := by
  refine reduced_append.mpr ⟨reduced_append.mpr ⟨reduced_stalk p.stalk, ?_⟩,
    List.forall_mem_singleton.mpr rfl⟩
  cases p.swallowed
  · exact List.forall_mem_nil _
  · exact List.forall_mem_singleton.mpr rfl

/-! ### The flat cluster -/

namespace Planar

theorem get?_root : (standard .planar).get? (.bud .root) = some root.production := rfl

theorem get?_secondary :
    (standard .planar).get? (.bud .secondary) = some secondary.production := rfl

theorem get?_tip : (standard .planar).get? (.bud .tip) = some tip.production := rfl

theorem get?_pedicel : (standard .planar).get? (.bud .pedicel) = some pedicel.production := rfl

/-- An axis goes on only where the table has a lateral. -/
theorem root_of_lt (cfg : Config) {x : Float32} (l : Float32) (h : 1 < Single.truncate x) :
    root cfg (.bud .root [x, l]) =
      (cfg.lateralDepth (Single.truncate x)).map fun k =>
        ⟨.forward, [l]⟩ ::
          branch [.bare .rollLeft, .bare .rollLeft,
            .bud .root [Single.ofInt (Single.truncate x - 1), l * cfg.lengthRatio]] ++
          branch [⟨.bendLeft, [cfg.branchAngle]⟩,
            .bud .secondary [Single.ofNat k, l * cfg.lengthRatio]] := by
  refine (if_neg (Int.not_le.mpr h)).trans ?_
  cases cfg.lateralDepth (Single.truncate x) <;> rfl

/-- A stalk is drawn as it is written. -/
def habit (cfg : Config) : Habit (standard .planar) cfg where
  delay := 0
  lookup := cfg.lateralDepth
  swallows := false
  IsStalk t := ∃ l, t = ⟨.forward, [l]⟩
  IsPedicel t := ∃ l, t = .bud .pedicel [l]
  IsTip t := ∃ l, t = .bud .tip [l]
  IsLateral d t := ∃ x l, Single.truncate x = d ∧ t = .bud .secondary [x, l]
  IsAxis d t := ∃ x l, Single.truncate x = d ∧ t = .bud .root [x, l]
  stalk := by
    intro n t w ht hw
    obtain ⟨l, rfl⟩ := ht
    exact ⟨⟨[], l, List.forall_mem_nil _⟩, yields_terminal rfl hw⟩
  pedicel := by
    intro n t w ht hw
    obtain ⟨l, rfl⟩ := ht
    obtain ⟨m, u, _, hu, hrest⟩ := hw.produces rfl
    rw [(produces_of_replace (replace_of_rule rfl get?_pedicel rfl)).mp hu] at hrest
    let p : Pedicel := ⟨⟨[], l, List.forall_mem_nil _⟩, false, cfg.baseLength * cfg.berryRatio⟩
    exact ⟨p, (derives_reduced (reduced_pedicel p)).mp hrest, id⟩
  tip := by
    intro t ht
    obtain ⟨l, rfl⟩ := ht
    exact ⟨rfl, _, [], _, [_], _, [_], _, ⟨l, rfl⟩, ⟨_, rfl⟩, ⟨_, rfl⟩, ⟨_, rfl⟩,
      by simp, by simp [Token.adjusts], by simp [Token.adjusts],
      replace_of_rule rfl get?_tip rfl⟩
  lateral_end := by
    intro d t ht hle
    obtain ⟨x, l, rfl, rfl⟩ := ht
    exact ⟨rfl, _, ⟨_, rfl⟩, replace_of_rule rfl get?_secondary (if_pos hle)⟩
  lateral_fork := by
    intro d t ht hlt
    obtain ⟨x, l, rfl, rfl⟩ := ht
    exact ⟨rfl, _, [_, _], _, [_], _, ⟨l, rfl⟩, ⟨_, _, rfl, rfl⟩, ⟨_, rfl⟩,
      by simp [Token.adjusts, Token.bare], by simp [Token.adjusts],
      replace_of_rule rfl get?_secondary (if_neg (Int.not_le.mpr hlt))⟩
  axis_end := by
    intro d t ht hle
    obtain ⟨x, l, rfl, rfl⟩ := ht
    exact ⟨rfl, _, ⟨_, rfl⟩, replace_of_rule rfl get?_root (if_pos hle)⟩
  axis_fork := by
    intro d t k ht hlt hk
    obtain ⟨x, l, rfl, rfl⟩ := ht
    have hroot := root_of_lt cfg l hlt
    rw [hk] at hroot
    exact ⟨rfl, _, [_, _], _, [_], _, ⟨l, rfl⟩, ⟨_, _, rfl, rfl⟩, ⟨_, _, rfl, rfl⟩,
      by simp [Token.adjusts, Token.bare], by simp [Token.adjusts],
      replace_of_rule rfl get?_root hroot⟩
  axis_lookup := by
    intro d n t w ht hlt hw
    obtain ⟨x, l, rfl, rfl⟩ := ht
    obtain ⟨m, u, _, ⟨s, s', hu⟩, _⟩ := hw.produces rfl
    rw [replace_nonterminal rfl get?_root, Rule.production, root_of_lt cfg l hlt] at hu
    cases hk : cfg.lateralDepth (Single.truncate x) with
    | ok k => exact ⟨k, rfl⟩
    | error fault =>
      rw [hk] at hu
      cases hu

/-- In the flat cluster stalks are terminals, and pedicels take one pass. -/
theorem timely : (habit cfg).Timely := by
  refine ⟨?_, ?_⟩
  · intro t ht
    obtain ⟨l, rfl⟩ := ht
    exact takes_terminal rfl
  · intro t ht
    obtain ⟨l, rfl⟩ := ht
    refine takes_succ rfl fun s => ⟨_, s, replace_of_rule rfl get?_pedicel rfl s, ?_, _,
      List.mem_cons_self .., trivial⟩
    exact List.forall_mem_cons.mpr ⟨rfl, List.forall_mem_singleton.mpr rfl⟩

end Planar

/-! ### The cluster in space -/

/-- A range of finite length has a berry for every stream. -/
theorem berrySize_of_isFinite (h : (cfg.berrySizes.high - cfg.berrySizes.low).isFinite = true)
    (s : Keystream) : ∃ size s', berrySize cfg s = .ok (size, s') := by
  simp only [berrySize, h, if_true]
  split
  · exact ⟨_, _, rfl⟩
  · exact ⟨_, _, rfl⟩

namespace Tapered

/-- The tags of an axis. -/
def IsFace (face : Tag) : Prop :=
  face = .root ∨ face = .faceC ∨ face = .faceV ∨ face = .faceB ∨ face = .faceN

theorem isFace_nextFace (face : Tag) : IsFace (nextFace face) := by
  cases face <;> simp [nextFace, IsFace]

theorem adjusts_faceRoll (face : Tag) : ∀ t ∈ faceRoll face, t.adjusts = true := by
  cases face <;> simp [faceRoll, Token.adjusts, Token.bare]

theorem get?_axis {face : Tag} (h : IsFace face) :
    (standard .phyllotactic).get? (.bud face) = some axis.production := by
  rcases h with rfl | rfl | rfl | rfl | rfl <;> rfl

theorem get?_secondary :
    (standard .phyllotactic).get? (.bud .secondary) = some secondary.production := rfl

theorem get?_tip : (standard .phyllotactic).get? (.bud .tip) = some tip.production := rfl

theorem get?_pedicel :
    (standard .phyllotactic).get? (.bud .pedicel) = some pedicel.production := rfl

theorem get?_segment : (standard .phyllotactic).get? .segment = some segment := rfl

/-- What a segment of any type is drawn as. -/
def stalk (cfg : Config) (bend pitch length width : Float32) : Stalk where
  lead := [⟨.bendLeft, [bend]⟩, ⟨.pitchDown, [pitch]⟩, ⟨.width, [width * cfg.widthRatio]⟩]
  length := length
  adjusts := by simp [Token.adjusts]

/-- A segment of type 0 becomes a stalk. -/
theorem segment_plain {kind : Float32} (bend pitch length width : Float32)
    (h : Single.truncate kind = 0) (s : Keystream) :
    segment cfg ⟨.segment, [kind, bend, pitch, length, width]⟩ s =
      .ok ((stalk cfg bend pitch length width).word, s) := by
  simp only [segment, h]
  rfl

/-- A segment of type 1 is a pedicel, if a berry can be drawn for it. -/
theorem segment_berry {kind : Float32} (bend pitch length width : Float32)
    (h : Single.truncate kind = 1) (s : Keystream) :
    segment cfg ⟨.segment, [kind, bend, pitch, length, width]⟩ s =
      (berrySize cfg s).map fun (size, s) =>
        ((⟨stalk cfg bend pitch length width, suppressed cfg length, size⟩ : Pedicel).word, s) := by
  simp only [segment, h, bind, StateT.bind, Except.bind, pure, StateT.pure, Except.pure]
  cases berrySize cfg s <;> rfl

theorem replace_segment (params : List Float32) :
    (standard .phyllotactic).replace cfg ⟨.segment, params⟩ = segment cfg ⟨.segment, params⟩ :=
  replace_nonterminal rfl get?_segment

theorem replace_berry {kind : Float32} (bend pitch length width : Float32)
    (h : Single.truncate kind = 1) (s : Keystream) :
    (standard .phyllotactic).replace cfg ⟨.segment, [kind, bend, pitch, length, width]⟩ s =
      (berrySize cfg s).map fun (size, s) =>
        ((⟨stalk cfg bend pitch length width, suppressed cfg length, size⟩ : Pedicel).word, s) := by
  rw [replace_segment, segment_berry bend pitch length width h]

theorem yields_segment {kind bend pitch length width : Float32} {n : Nat} {w : List Token}
    (hw : Yields (standard .phyllotactic) cfg n ⟨.segment, [kind, bend, pitch, length, width]⟩ w) :
    ∃ m u s s', n = m + 1 ∧ Derives (standard .phyllotactic) cfg m u w ∧
      segment cfg ⟨.segment, [kind, bend, pitch, length, width]⟩ s = .ok (u, s') := by
  obtain ⟨m, u, hn, ⟨s, s', hu⟩, hrest⟩ := hw.produces rfl
  rw [replace_segment] at hu
  exact ⟨m, u, s, s', hn, hrest, hu⟩

theorem truncate_zero : Single.truncate 0 = 0 := by decide

theorem truncate_one : Single.truncate 1 = 1 := by decide

/-- All that comes of a segment of type 0 in the end is a stalk. -/
theorem stalk_of_yields {bend pitch length width : Float32} {n : Nat} {w : List Token}
    (hw : Yields (standard .phyllotactic) cfg n ⟨.segment, [0, bend, pitch, length, width]⟩ w) :
    ∃ s : Stalk, w = s.word := by
  obtain ⟨m, u, s, s', _, hrest, hu⟩ := yields_segment hw
  rw [segment_plain bend pitch length width truncate_zero] at hu
  cases hu
  exact ⟨_, (derives_reduced (reduced_stalk _)).mp hrest⟩

/-- All that comes of a segment of type 1 in the end is a pedicel. -/
theorem pedicel_of_yields {bend pitch length width : Float32} {n : Nat} {w : List Token}
    (hw : Yields (standard .phyllotactic) cfg n ⟨.segment, [1, bend, pitch, length, width]⟩ w) :
    ∃ p : Pedicel, w = p.word := by
  obtain ⟨m, u, s, s', _, hrest, hu⟩ := yields_segment hw
  rw [segment_berry bend pitch length width truncate_one] at hu
  cases hsize : berrySize cfg s with
  | error fault =>
    rw [hsize] at hu
    cases hu
  | ok drawn =>
    rw [hsize] at hu
    cases hu
    exact ⟨_, (derives_reduced (reduced_pedicel _)).mp hrest⟩

/-- An internode leaves a segment, and whether it carries a berry is settled a pass later. -/
def habit (cfg : Config) : Habit (standard .phyllotactic) cfg where
  delay := 1
  lookup _ := .ok cfg.secondaryDepth
  swallows := true
  IsStalk t := ∃ bend pitch length width, t = ⟨.segment, [0, bend, pitch, length, width]⟩
  IsPedicel t := ∃ length width, t = .bud .pedicel [length, width]
  IsTip t := ∃ length width, t = .bud .tip [length, width]
  IsLateral d t := ∃ x length width,
    Single.truncate x = d ∧ t = .bud .secondary [x, length, width]
  IsAxis d t := ∃ face x length width, IsFace face ∧
    Single.truncate x = d ∧ t = .bud face [x, length, width]
  stalk := by
    intro n t w ht hw
    obtain ⟨bend, pitch, length, width, rfl⟩ := ht
    exact stalk_of_yields hw
  pedicel := by
    intro n t w ht hw
    obtain ⟨length, width, rfl⟩ := ht
    obtain ⟨m, u, _, hu, hrest⟩ := hw.produces rfl
    rw [(produces_of_replace (replace_of_rule rfl get?_pedicel rfl)).mp hu] at hrest
    obtain ⟨p, hp⟩ := pedicel_of_yields ⟨hrest, hw.reduced⟩
    exact ⟨p, hp, fun _ => rfl⟩
  tip := by
    intro t ht
    obtain ⟨length, width, rfl⟩ := ht
    exact ⟨rfl, _, [], _, [_, _], _, [_, _], _, ⟨_, _, _, _, rfl⟩, ⟨_, _, rfl⟩, ⟨_, _, rfl⟩,
      ⟨_, _, rfl⟩, by simp, by simp [Token.adjusts], by simp [Token.adjusts],
      replace_of_rule rfl get?_tip rfl⟩
  lateral_end := by
    intro d t ht hle
    obtain ⟨x, length, width, rfl, rfl⟩ := ht
    exact ⟨rfl, _, ⟨_, _, rfl⟩, replace_of_rule rfl get?_secondary (if_pos hle)⟩
  lateral_fork := by
    intro d t ht hlt
    obtain ⟨x, length, width, rfl, rfl⟩ := ht
    exact ⟨rfl, _, [_], _, [_], _, ⟨_, _, _, _, rfl⟩, ⟨_, _, _, rfl, rfl⟩, ⟨_, _, rfl⟩,
      by simp [Token.adjusts, Token.bare], by simp [Token.adjusts],
      replace_of_rule rfl get?_secondary (if_neg (Int.not_le.mpr hlt))⟩
  axis_end := by
    intro d t ht hle
    obtain ⟨face, x, length, width, hface, rfl, rfl⟩ := ht
    exact ⟨rfl, _, ⟨_, _, rfl⟩, replace_of_rule rfl (get?_axis hface) (if_pos hle)⟩
  axis_fork := by
    intro d t k ht hlt hk
    obtain ⟨face, x, length, width, hface, rfl, rfl⟩ := ht
    cases hk
    exact ⟨rfl, _, faceRoll face, _, [_], _, ⟨_, _, _, _, rfl⟩,
      ⟨nextFace face, _, _, _, isFace_nextFace face, rfl, rfl⟩, ⟨_, _, _, rfl, rfl⟩,
      adjusts_faceRoll face, by simp [Token.adjusts],
      replace_of_rule rfl (get?_axis hface) (if_neg (Int.not_le.mpr hlt))⟩
  axis_lookup _ _ _ := ⟨cfg.secondaryDepth, rfl⟩

/-- In the cluster in space stalks take one pass and pedicels two, if a berry can be drawn from the
range. -/
theorem timely (h : (cfg.berrySizes.high - cfg.berrySizes.low).isFinite = true) :
    (habit cfg).Timely := by
  refine ⟨?_, ?_⟩
  · intro t ht
    obtain ⟨bend, pitch, length, width, rfl⟩ := ht
    have hred := reduced_stalk (stalk cfg bend pitch length width)
    refine takes_succ rfl fun s => ⟨_, s, ?_, hred, ⟨.bendLeft, [bend]⟩, ?_, trivial⟩
    · rw [replace_segment, segment_plain bend pitch length width truncate_zero]
    · exact List.mem_cons_self ..
  · intro t ht
    obtain ⟨length, width, rfl⟩ := ht
    have hseg : Takes (standard .phyllotactic) cfg 1 ⟨.segment, [1, 0, 0, length, width]⟩ := by
      apply takes_succ rfl
      intro s
      obtain ⟨size, s', hsize⟩ := berrySize_of_isFinite h s
      have hword := @replace_berry cfg 1 0 0 length width truncate_one s
      rw [hsize] at hword
      exact ⟨_, s', hword, reduced_pedicel _, ⟨.bendLeft, [0]⟩, List.mem_cons_self .., trivial⟩
    refine takes_succ rfl fun s => ⟨_, s, replace_of_rule rfl get?_pedicel rfl s, ?_, _,
      List.mem_singleton.mpr rfl, hseg.lasts⟩
    exact List.forall_mem_singleton.mpr hseg.ends

end Tapered

/-! ### Either cluster -/

/-- The habit of a variant's rules. -/
def habit (cfg : Config) : (v : Variant) → Habit (standard v) cfg
  | .planar => Planar.habit cfg
  | .phyllotactic => Tapered.habit cfg

/-- A berry can be drawn wherever one is asked for: rules that draw do so from a range of finite
length. -/
def Config.Drawable (cfg : Config) : Prop :=
  cfg.variant = .phyllotactic → (cfg.berrySizes.high - cfg.berrySizes.low).isFinite = true

instance (cfg : Config) : Decidable cfg.Drawable := inferInstanceAs (Decidable (_ → _))

/-- The start is an axis of the configured depth. -/
theorem isAxis_start (cfg : Config) :
    (habit cfg cfg.variant).IsAxis (Single.truncate (Single.ofNat cfg.depth)) cfg.start := by
  unfold Config.start
  cases cfg.variant with
  | planar => exact ⟨_, _, rfl, rfl⟩
  | phyllotactic => exact ⟨.faceC, _, _, _, .inr (.inl rfl), rfl, rfl⟩

theorem timely_habit (h : cfg.Drawable) : (habit cfg cfg.variant).Timely := by
  unfold Config.Drawable at h
  cases hv : cfg.variant with
  | planar => exact Planar.timely
  | phyllotactic => exact Tapered.timely (h hv)

end Grapevine.Grammar
