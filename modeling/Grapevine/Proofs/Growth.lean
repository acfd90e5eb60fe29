import Grapevine.Cluster
import Grapevine.Proofs.Grammar.Threshold
import Grapevine.Proofs.Shoot.Walk

/-! When a cluster grows, and what it looks like.

A cluster grows from usable constants, if there are enough generations to reduce its start and room
for its brackets (`grow_verdict`). It then has as many segments, nodes and berries as the constants
say. If there are numbers for all nodes, so it has joints of each kind, and berries hang on the ends
of its pedicels (`shape_of_grow`). -/
namespace Grapevine

open Grammar Skeleton

variable {cfg : Cluster.Config}

/-! ### When a cluster grows -/

theorem grow_of_invalid {fault : ConfigFault} (h : cfg.grammar.validate = .error fault) :
    grow cfg = .error (.config fault) := by
  simp only [grow, LSystem.standard_of_invalid h, bind, Except.bind]

/-- The grammar of usable constants is derived, and the turtle walks what comes of it. -/
theorem grow_of_valid (h : cfg.grammar.validate = .ok ()) :
    grow cfg =
      ((⟨cfg.grammar, .standard cfg.grammar.variant, h⟩ : LSystem).derive cfg.generations).bind
        fun word => (Turtle.walk cfg.turtle word).map fun trail => ⟨word, trail⟩ := by
  simp only [grow, LSystem.standard_of_valid h, bind, Except.bind]
  cases (⟨cfg.grammar, .standard cfg.grammar.variant, h⟩ : LSystem).derive cfg.generations with
  | error fault => rfl
  | ok word =>
    simp only
    cases Turtle.walk cfg.turtle word <;> rfl

theorem valid_of_grow {g : Growth} (hg : grow cfg = .ok g) : cfg.grammar.validate = .ok () := by
  cases h : cfg.grammar.validate with
  | ok => rfl
  | error fault =>
    rw [grow_of_invalid h] at hg
    cases hg

theorem grow_eq_ok_iff (h : cfg.grammar.validate = .ok ()) {g : Growth} :
    grow cfg = .ok g ↔
      (⟨cfg.grammar, .standard cfg.grammar.variant, h⟩ : LSystem).derive cfg.generations =
        .ok g.word ∧ Turtle.walk cfg.turtle g.word = .ok g.trail := by
  rw [grow_of_valid h]
  cases (⟨cfg.grammar, .standard cfg.grammar.variant, h⟩ : LSystem).derive cfg.generations with
  | error fault => simp [Except.bind]
  | ok word =>
    obtain ⟨gword, gtrail⟩ := g
    simp only [Except.bind, Except.ok.injEq]
    apply Iff.intro
    · intro hmap
      cases hwalk : Turtle.walk cfg.turtle word with
      | error fault =>
        rw [hwalk] at hmap
        cases hmap
      | ok trail =>
        rw [hwalk] at hmap
        cases hmap
        exact ⟨rfl, hwalk⟩
    · intro hboth
      obtain ⟨hword, hwalk⟩ := hboth
      rw [hword, hwalk]
      rfl

/-- A grown cluster is a shoot that the constants describe, drawn from end to end. -/
theorem shoot_of_grow (hs : cfg.grammar.Shallow) {g : Growth} (hg : grow cfg = .ok g) :
    ∃ s, (habit cfg.grammar cfg.grammar.variant).Grows g.word cfg.grammar.tips
        cfg.grammar.nesting s ∧
      s.nesting ≤ cfg.turtle.maxStackDepth ∧ g.trail.isBalanced = true ∧
      s.Grown g.trail.skeleton := by
  have h := valid_of_grow hg
  obtain ⟨hword, hwalk⟩ := (grow_eq_ok_iff h).mp hg
  obtain ⟨s, hgrows⟩ := LSystem.shoot_of_shallow h hs hword
  obtain ⟨hfits, hfull⟩ := Turtle.walk_shoot cfg.turtle s
  rw [hgrows.word] at hwalk
  have hroom : s.nesting ≤ cfg.turtle.maxStackDepth := by
    by_contra hlt
    obtain ⟨i, herror⟩ := hfull (Nat.lt_of_not_le hlt)
    rw [hwalk] at herror
    cases herror
  obtain ⟨trail, htrail, hbalanced, hgrown⟩ := hfits hroom
  rw [hwalk] at htrail
  cases htrail
  exact ⟨s, hgrows, hroom, hbalanced, hgrown⟩

/-- With too few generations, a bud or a segment is left. -/
theorem grow_of_few (h : cfg.grammar.validate = .ok ()) (hs : cfg.grammar.Shallow)
    (hd : cfg.grammar.Drawable) (hn : cfg.generations < cfg.grammar.passesNeeded) :
    ∃ index t, grow cfg = .error (.unreduced index t) := by
  obtain ⟨_, index, t, _, _, herror⟩ := (@LSystem.derive_of_takes
    ⟨cfg.grammar, .standard cfg.grammar.variant, h⟩ _ (takes_start h hs hd) cfg.generations).2 hn
  refine ⟨index, t, ?_⟩
  rw [grow_of_valid h, herror]
  rfl

/-- With enough of them, the brackets decide. -/
theorem grow_of_enough (h : cfg.grammar.validate = .ok ()) (hs : cfg.grammar.Shallow)
    (hd : cfg.grammar.Drawable) (hn : cfg.grammar.passesNeeded ≤ cfg.generations) :
    (cfg.grammar.nesting ≤ cfg.turtle.maxStackDepth → ∃ g, grow cfg = .ok g) ∧
    (cfg.turtle.maxStackDepth < cfg.grammar.nesting →
      ∃ index, grow cfg = .error (.tooDeep index cfg.turtle.maxStackDepth)) := by
  obtain ⟨word, hword⟩ := (@LSystem.derive_of_takes
    ⟨cfg.grammar, .standard cfg.grammar.variant, h⟩ _ (takes_start h hs hd) cfg.generations).1 hn
  obtain ⟨s, hgrows⟩ := LSystem.shoot_of_shallow h hs hword
  obtain ⟨hfits, hfull⟩ := Turtle.walk_shoot cfg.turtle s
  rw [hgrows.nesting, ← hgrows.word] at hfits hfull
  apply And.intro
  · intro hroom
    obtain ⟨trail, hwalk, _⟩ := hfits hroom
    exact ⟨⟨word, trail⟩, (grow_eq_ok_iff h).mpr ⟨hword, hwalk⟩⟩
  · intro hlt
    obtain ⟨i, herror⟩ := hfull hlt
    refine ⟨i, ?_⟩
    rw [grow_of_valid h, hword]
    show (Turtle.walk cfg.turtle word).map _ = _
    rw [herror]
    rfl

/-- **A cluster grows if and only if its constants are usable, its generations enough and its
brackets not too deep.** Otherwise the first of the three that does not hold is named. -/
theorem grow_verdict (hs : cfg.grammar.Shallow) (hd : cfg.grammar.Drawable) :
    ((∃ g, grow cfg = .ok g) ↔ cfg.grammar.validate = .ok () ∧
      cfg.grammar.passesNeeded ≤ cfg.generations ∧
      cfg.grammar.nesting ≤ cfg.turtle.maxStackDepth) ∧
    (∀ g, grow cfg = .ok g → g.trail.unmatched = #[] ∧ g.trail.openBranches = 0) ∧
    (∀ fault, cfg.grammar.validate = .error fault → grow cfg = .error (.config fault)) ∧
    (cfg.grammar.validate = .ok () → cfg.generations < cfg.grammar.passesNeeded →
      ∃ index t, grow cfg = .error (.unreduced index t)) ∧
    (cfg.grammar.validate = .ok () → cfg.grammar.passesNeeded ≤ cfg.generations →
      cfg.turtle.maxStackDepth < cfg.grammar.nesting →
        ∃ index, grow cfg = .error (.tooDeep index cfg.turtle.maxStackDepth)) := by
  refine ⟨⟨fun ⟨g, hg⟩ => ?_, fun ⟨h, hn, hroom⟩ => (grow_of_enough h hs hd hn).1 hroom⟩,
    fun g hg => ?_, fun fault => grow_of_invalid, fun h => grow_of_few h hs hd,
    fun h hn => (grow_of_enough h hs hd hn).2⟩
  · have h := valid_of_grow hg
    obtain ⟨s, hgrows, hroom, _⟩ := shoot_of_grow hs hg
    refine ⟨h, ?_, hgrows.nesting ▸ hroom⟩
    by_contra hlt
    obtain ⟨_, _, herror⟩ := grow_of_few h hs hd (Nat.lt_of_not_le hlt)
    rw [hg] at herror
    cases herror
  · obtain ⟨_, _, _, hbalanced, _⟩ := shoot_of_grow hs hg
    simpa [Turtle.Trail.isBalanced] using hbalanced

/-- The preset of the cluster in space grows within its fifteen generations. With nine it does not,
nor with room for six brackets only, nor from a depth of 0. -/
theorem grow_verdict_phyllotactic :
    (∃ g, grow .phyllotactic = .ok g) ∧
    (∃ index t, grow { Cluster.Config.phyllotactic with generations := 9 } =
      .error (.unreduced index t)) ∧
    (∃ index, grow { Cluster.Config.phyllotactic with turtle.maxStackDepth := 6 } =
      .error (.tooDeep index 6)) ∧
    grow { Cluster.Config.phyllotactic with grammar.depth := 0 } = .error (.config .depthZero) := by
  have hs : Config.phyllotactic.Shallow := ⟨by decide, by decide, by decide⟩
  have hd : Config.phyllotactic.Drawable := by decide
  refine ⟨?_, ?_, ?_, ?_⟩
  · exact (@grow_verdict .phyllotactic hs hd).1.mpr ⟨by decide, by decide, by decide⟩
  · exact (@grow_verdict { Cluster.Config.phyllotactic with generations := 9 } hs hd).2.2.2.1
      (by decide) (by decide)
  · exact (@grow_verdict { Cluster.Config.phyllotactic with turtle.maxStackDepth := 6 } hs
      hd).2.2.2.2 (by decide) (by decide) (by decide)
  · exact (@grow_verdict { Cluster.Config.phyllotactic with grammar.depth := 0 }
      ⟨by decide, by decide, by decide⟩ (by decide)).2.2.1 _ (by decide)

/-! ### What it looks like -/

/-- How much there is of a cluster of `T` tips. -/
structure Counts (T : Nat) (word : List Token) (sk : Skeleton) : Prop where
  draws : Token.occurrences .forward word = 5 * T - 1
  berries : Token.occurrences .berry word = 3 * T
  pushes : Token.occurrences .push word = 5 * T - 2
  pops : Token.occurrences .pop word = 5 * T - 2
  nodes : sk.nodes.size = 5 * T
  edges : sk.edges.size = 5 * T - 1
  /-- All berries are hung that no `%` swallows. -/
  hung : sk.attachments.size + Token.occurrences .skip word = 3 * T

/-- The shape of a cluster of `T` tips. The node at the end of the `n`-th segment has number `n`. -/
structure Shape (T : Nat) (word : List Token) (sk : Skeleton) : Prop where
  root : (sk.children 0).length = 1
  internodes : (List.range' 1 (5 * T - 1)).countP (fun v => (sk.children v).length = 2) = T - 1
  tips : (List.range' 1 (5 * T - 1)).countP (fun v => (sk.children v).length = 3) = T
  pedicels : (List.range' 1 (5 * T - 1)).countP (fun v => (sk.children v).length = 0) = 3 * T
  /-- Leaves are the ends of pedicels. -/
  leaves : ∀ v ∈ sk.leaves, (Token.behindDraws word)[v - 1]? = some (some .berry) ∨
    (Token.behindDraws word)[v - 1]? = some (some .skip)
  /-- Berries hang, in order, on the leaves whose segment is not followed by a `%`. -/
  hung : sk.attachments.toList.map Attachment.node =
    sk.leaves.filter fun v => (Token.behindDraws word)[v - 1]? ≠ some (some .skip)
  /-- Each `%` follows the segment of a leaf of its own. -/
  swallowed : (sk.leaves.filter fun v =>
    (Token.behindDraws word)[v - 1]? = some (some .skip)).length = Token.occurrences .skip word
  /-- No leaf has two berries. -/
  once : (sk.attachments.toList.map Attachment.node).Nodup

theorem behindDraws_word_eq (s : Shoot) :
    Token.behindDraws s.word = s.joints.map fun j => some j.follower := by
  rw [← List.append_nil s.word, s.behindDraws_word, Token.behindDraws, List.append_nil]

theorem behindDraws_eq_skip_iff (s : Shoot) (i : Nat) :
    (Token.behindDraws s.word)[i]? = some (some .skip) ↔ s.joints[i]? = some (.pedicel true) := by
  have hfollower : ∀ j : Shoot.Joint, j.follower = .skip ↔ j = .pedicel true := by
    intro j
    rcases j with _ | _ | _ | _ <;> simp [Shoot.Joint.follower]
  rw [behindDraws_word_eq, List.getElem?_map]
  cases s.joints[i]? with
  | none => simp
  | some j => simp [hfollower]

theorem Shoot.Grown.exists_pedicel {s : Shoot} {sk : Skeleton} (h : s.Grown sk)
    (hroom : sk.nodes.size ≤ 2 ^ 32) {v : Nat} (hv : v ∈ sk.leaves) :
    ∃ swallowed, s.joints[v - 1]? = some (.pedicel swallowed) := by
  rw [h.leaves hroom] at hv
  obtain ⟨_, j, hj, hbranches⟩ := mem_numbered hv
  cases j with
  | internode | tip => cases hbranches
  | pedicel swallowed => exact ⟨swallowed, hj⟩

/-- All that there is of a shoot is as much as there is of joints. -/
theorem counts_of_grown {s : Shoot} {sk : Skeleton} (h : s.Grown sk) : Counts s.tips s.word sk := by
  have hpos := s.tips_pos
  have hlength := s.length_joints
  have hbracket : ∀ {x : Symbol}, x = .push ∨ x = .pop →
      Token.occurrences x s.word = 5 * s.tips - 2 := by
    intro x hx
    have hx' := s.occurrences_bracket hx
    omega
  refine ⟨?_, ?_, hbracket (.inl rfl), hbracket (.inr rfl), ?_, ?_, ?_⟩
  · rw [s.occurrences_forward]
    omega
  · rw [s.occurrences_berry, s.countP_pedicels]
  · rw [h.nodes, hlength]
  · rw [← Array.length_toList, h.edges, List.length_map, Shoot.length_edges]
    omega
  · rw [s.occurrences_skip, h.size_attachments, s.countP_pedicels]

/-- With numbers for all nodes, the children of nodes and the leaves are those of joints. -/
theorem shape_of_grown {s : Shoot} {sk : Skeleton} (h : s.Grown sk)
    (hroom : sk.nodes.size ≤ 2 ^ 32) : Shape s.tips s.word sk := by
  have hlength := s.length_joints
  have hjoints : 5 * s.tips - 1 = s.joints.length := by omega
  have hinternodes := s.countP_internodes
  refine ⟨h.length_children_root hroom, ?_, ?_, ?_, ?_, ?_, ?_, ?_⟩
  · rw [hjoints, h.countP_children hroom (· = 2)]
    omega
  · rw [hjoints, h.countP_children hroom (· = 3), s.countP_tips]
  · rw [hjoints, h.countP_children hroom (· = 0), s.countP_pedicels]
  · intro v hv
    obtain ⟨swallowed, hj⟩ := h.exists_pedicel hroom hv
    rw [behindDraws_word_eq, List.getElem?_map, hj]
    cases swallowed
    · exact .inl rfl
    · exact .inr rfl
  · rw [h.berries_eq hroom]
    apply List.filter_congr
    intro v hv
    obtain ⟨swallowed, hj⟩ := h.exists_pedicel hroom hv
    simp only [ne_eq, behindDraws_eq_skip_iff, hj, Option.any_some, Option.some.injEq]
  · rw [s.occurrences_skip, ← h.length_swallowed hroom]
    simp only [behindDraws_eq_skip_iff]
  · rw [h.berries_eq hroom, leaves_of_le hroom]
    exact List.Nodup.filter _ (List.Nodup.filter _ (List.nodup_range' ..))

/-- **A grown cluster is as large as its constants say, and if there are numbers for all its nodes,
it has the shape that they give.** A flat one then has a berry on every leaf. -/
theorem shape_of_grow (hs : cfg.grammar.Shallow) {g : Growth} (hg : grow cfg = .ok g) :
    Counts cfg.grammar.tips g.word g.trail.skeleton ∧
      (5 * cfg.grammar.tips ≤ 2 ^ 32 → Shape cfg.grammar.tips g.word g.trail.skeleton ∧
        (cfg.grammar.variant = .planar →
          g.trail.skeleton.attachments.toList.map Attachment.node = g.trail.skeleton.leaves)) := by
  obtain ⟨s, hgrows, _, _, hgrown⟩ := shoot_of_grow hs hg
  rw [← hgrows.tips, hgrows.word]
  have hcounts := counts_of_grown hgrown
  refine ⟨hcounts, fun hfew => ?_⟩
  have hroom : g.trail.skeleton.nodes.size ≤ 2 ^ 32 := hcounts.nodes ▸ hfew
  refine ⟨shape_of_grown hgrown hroom, fun hplanar => ?_⟩
  rw [hgrown.berries_eq hroom, List.filter_eq_self]
  intro v hv
  obtain ⟨swallowed, hj⟩ := hgrown.exists_pedicel hroom hv
  rw [hj]
  apply decide_eq_true
  intro heq
  have hswallows := hgrows.swallowed _ (List.mem_of_getElem? hj) heq
  rw [hplanar] at hswallows
  cases hswallows

/-- The flat preset has laterals of one tip and of two, and so four tips in all. -/
theorem shape_of_planar : ∃ g, grow .planar = .ok g ∧ Counts 4 g.word g.trail.skeleton ∧
    Shape 4 g.word g.trail.skeleton ∧
    g.trail.skeleton.attachments.toList.map Attachment.node = g.trail.skeleton.leaves := by
  have hs : Config.planar.Shallow := ⟨by decide, by decide, by decide⟩
  obtain ⟨g, hg⟩ := (@grow_of_enough .planar (by decide) hs (by decide) (by decide)).1 (by decide)
  obtain ⟨hcounts, hnumbered⟩ := @shape_of_grow .planar hs g hg
  have htips : Config.planar.tips = 4 := by decide
  have hfew : 5 * Config.planar.tips ≤ 2 ^ 32 := by
    rw [htips]
    decide
  obtain ⟨hshape, hleaves⟩ := hnumbered hfew
  exact ⟨g, hg, htips ▸ hcounts, htips ▸ hshape, hleaves rfl⟩

/-! ### Out of numbers -/

/-- **With too many tips, more nodes are left without children than there are pedicels**: what grew
on nodes beyond the last number is counted with the nodes that have the numbers. -/
theorem lt_childless_of_grow (hs : cfg.grammar.Shallow) {g : Growth} (hg : grow cfg = .ok g)
    (hmany : 2 ^ 31 < cfg.grammar.tips) :
    3 * cfg.grammar.tips < (List.range' 1 (5 * cfg.grammar.tips - 1)).countP
      fun v => (g.trail.skeleton.children v).length = 0 := by
  obtain ⟨s, _, _, _, hgrown⟩ := shoot_of_grow hs hg
  have hle := hgrown.le_countP_childless (5 * cfg.grammar.tips - 1)
  omega

/-- A cluster in space with very long laterals. -/
def Cluster.Config.crowded : Cluster.Config where
  grammar := { Grammar.Config.phyllotactic with depth := 129, secondaryDepth := 2 ^ 24 }
  turtle := { rollStep := 60, maxStackDepth := 2 ^ 25 }
  generations := 2 ^ 25

/-- Its depths are within the bounds, and grown, it has the size that its constants say, but not the
shape. -/
theorem not_shape_of_crowded : Cluster.Config.crowded.grammar.Shallow ∧
    Cluster.Config.crowded.grammar.tips = 2 ^ 31 + 1 ∧
    ∃ g, grow .crowded = .ok g ∧ ¬ Shape (2 ^ 31 + 1) g.word g.trail.skeleton := by
  have htips : Cluster.Config.crowded.grammar.tips = 2 ^ 31 + 1 :=
    (tips_of_phyllotactic rfl).trans (by decide)
  have hs : Cluster.Config.crowded.grammar.Shallow := ⟨by decide, by decide, by decide⟩
  obtain ⟨g, hg⟩ := (@grow_of_enough .crowded (by decide) hs (by decide) (by decide)).1 (by decide)
  have hless := lt_childless_of_grow hs hg (by rw [htips]; decide)
  rw [htips] at hless
  exact ⟨hs, htips, g, hg, fun hshape => Nat.lt_irrefl _ (hshape.pedicels ▸ hless)⟩

end Grapevine
