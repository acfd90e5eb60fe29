import Grapevine.Proofs.Grammar.Replacement
import Grapevine.Proofs.Growth
import Grapevine.Proofs.Skeleton.Tree
import Grapevine.Proofs.Walk.Refusal

/-! Widths of a grown cluster.

The rules of the flat cluster write no `!`, and all of it is as wide as its root. In space a width is
handed from bud to bud, tapered once where a segment is drawn, and set right in front of each `F`: a
word of that kind is `Clad`, and stays so in every pass (`Tapered.clad_of_derives`). A walk of it
makes nodes of that one width only, whatever cursors it goes back to (`Turtle.Walk.makes_of_clad`). -/
namespace Grapevine

open Number Grammar

/-- The widths of all nodes, the root first. -/
def Skeleton.widths (s : Skeleton) : List Float32 := s.nodes.toList.map Skeleton.Node.width

theorem Skeleton.length_widths (s : Skeleton) : s.widths.length = s.nodes.size := by
  rw [widths, List.length_map, Array.length_toList]

/-! ### Words that set every width -/

namespace Grammar

/-- The width of what is drawn in space. -/
def Config.tapered (cfg : Config) : Float32 := cfg.baseWidth * cfg.widthRatio

/-- A word that sets the tapered width in front of each `F`, in which `%` swallow berries only, and
whose buds and segments carry the base width. -/
inductive Clad (cfg : Config) : List Token → Prop where
  | nil : Clad cfg []
  | growing {t : Token} {word : List Token} (ht : t.isNonterminal = true)
      (hwidth : t.params.getLast? = some cfg.baseWidth) (h : Clad cfg word) : Clad cfg (t :: word)
  | terminal {t : Token} {word : List Token} (ht : t.isNonterminal = false)
      (hforward : t.symbol ≠ .forward) (hskip : t.symbol ≠ .skip) (h : Clad cfg word) :
      Clad cfg (t :: word)
  | drawn {length : Float32} {word : List Token} (h : Clad cfg word) :
      Clad cfg (⟨.width, [cfg.tapered]⟩ :: ⟨.forward, [length]⟩ :: word)
  | swallowed {size : Float32} {word : List Token} (h : Clad cfg word) :
      Clad cfg (.bare .skip :: ⟨.berry, [size]⟩ :: word)

variable {cfg : Config} {t : Token} {u v word out : List Token} {n : Nat}

theorem Clad.append (hu : Clad cfg u) (hv : Clad cfg v) : Clad cfg (u ++ v) := by
  induction hu with
  | nil => exact hv
  | growing ht hwidth _ ih => exact .growing ht hwidth ih
  | terminal ht hforward hskip _ ih => exact .terminal ht hforward hskip ih
  | drawn _ ih => exact .drawn ih
  | swallowed _ ih => exact .swallowed ih

theorem Clad.branch (hu : Clad cfg u) : Clad cfg (branch u) :=
  .terminal rfl (by decide) (by decide)
    (hu.append (.terminal rfl (by decide) (by decide) .nil))

theorem clad_of_adjusts (hu : ∀ t ∈ u, t.adjusts = true) : Clad cfg u := by
  induction u with
  | nil => exact .nil
  | cons t u ih =>
    obtain ⟨ht, hu⟩ := List.forall_mem_cons.mp hu
    exact .terminal (terminal_of_adjusts ht) (Token.plain_of_eq (by simp) t ht)
      (Token.plain_of_eq (by simp) t ht) (ih hu)

/-- Turns, and a bud behind them that hands on the base width. -/
theorem clad_turns {turns : List Token} (hturns : ∀ t ∈ turns, t.adjusts = true) {tag : Tag}
    {params : List Float32} (h : params.getLast? = some cfg.baseWidth) :
    Clad cfg (turns ++ [.bud tag params]) :=
  (clad_of_adjusts hturns).append (.growing rfl h .nil)

namespace Tapered

/-- A stalk sets the width before it draws. -/
theorem clad_stalk (bend pitch length : Float32) :
    Clad cfg (stalk cfg bend pitch length cfg.baseWidth).word :=
  (clad_of_adjusts (u := [⟨.bendLeft, [bend]⟩, ⟨.pitchDown, [pitch]⟩])
    (by simp [Token.adjusts])).append (.drawn .nil)

theorem clad_pedicel (bend pitch length size : Float32) (swallowed : Bool) :
    Clad cfg (⟨stalk cfg bend pitch length cfg.baseWidth, swallowed, size⟩ : Pedicel).word := by
  rw [Pedicel.word, List.append_assoc]
  refine (clad_stalk bend pitch length).append ?_
  cases swallowed with
  | true => exact .swallowed .nil
  | false => exact .terminal rfl (by simp) (by simp) .nil

/-- **Every rule hands the width on as it is, and only the segment tapers it.** -/
theorem clad_of_produces (ht : t.isNonterminal = true)
    (hwidth : t.params.getLast? = some cfg.baseWidth)
    (h : Produces (standard .phyllotactic) cfg t u) : Clad cfg u := by
  have hsegment : ∀ {length : Float32} {word : List Token}, Clad cfg word →
      Clad cfg (straight length cfg.baseWidth :: word) := .growing rfl rfl
  obtain ⟨s, s', hu⟩ := h
  cases replace_eq_ok_iff.mp hu with
  | terminal hterminal => cases hterminal.symm.trans ht
  | axis_end | secondary_end =>
    cases hwidth
    exact clad_turns (List.forall_mem_nil _) rfl
  | @axis_fork face =>
    cases hwidth
    exact (hsegment (clad_turns (adjusts_faceRoll face) rfl).branch).append
      (clad_turns (adjusts_bendLeft cfg.lateralAngle) rfl).branch
  | secondary_fork =>
    cases hwidth
    exact (hsegment (clad_turns adjusts_rollRight rfl).branch).append
      (clad_turns (adjusts_bendLeft cfg.lateralAngle) rfl).branch
  | tip =>
    cases hwidth
    obtain ⟨hleft, hright⟩ := adjusts_sides cfg.lateralAngle cfg.pedicelRoll
    exact ((hsegment (clad_turns (List.forall_mem_nil _) rfl).branch).append
      (clad_turns hleft rfl).branch).append (clad_turns hright rfl).branch
  | pedicel =>
    cases hwidth
    exact .growing rfl rfl .nil
  | segment_plain =>
    cases hwidth
    exact clad_stalk ..
  | segment_berry =>
    cases hwidth
    exact clad_pedicel ..

theorem clad_of_becomes (hword : Clad cfg word) (h : Becomes (standard .phyllotactic) cfg word out) :
    Clad cfg out := by
  induction hword generalizing out with
  | nil =>
    rw [becomes_nil.mp h]
    exact .nil
  | growing ht hwidth _ ih =>
    obtain ⟨u, next, rfl, hu, hnext⟩ := becomes_cons.mp h
    exact (clad_of_produces ht hwidth hu).append (ih hnext)
  | @terminal t _ ht hforward hskip _ ih =>
    have hred : Reduced [t] := List.forall_mem_singleton.mpr ht
    obtain ⟨next, rfl, hnext⟩ := (becomes_reduced_append hred).mp h
    exact .terminal ht hforward hskip (ih hnext)
  | @drawn length _ _ ih =>
    have hred : Reduced [⟨.width, [cfg.tapered]⟩, ⟨.forward, [length]⟩] :=
      List.forall_mem_cons.mpr ⟨rfl, List.forall_mem_singleton.mpr rfl⟩
    obtain ⟨next, rfl, hnext⟩ := (becomes_reduced_append hred).mp h
    exact .drawn (ih hnext)
  | @swallowed size _ _ ih =>
    have hred : Reduced [.bare .skip, ⟨.berry, [size]⟩] :=
      List.forall_mem_cons.mpr ⟨rfl, List.forall_mem_singleton.mpr rfl⟩
    obtain ⟨next, rfl, hnext⟩ := (becomes_reduced_append hred).mp h
    exact .swallowed (ih hnext)

/-- Whatever derives from a word that sets every width does so too. -/
theorem clad_of_derives (hword : Clad cfg word) (h : Derives (standard .phyllotactic) cfg n word out) :
    Clad cfg out := by
  induction n generalizing word with
  | zero =>
    cases h
    exact hword
  | succ n ih =>
    obtain ⟨next, hnext, hrest⟩ := h
    exact ih (clad_of_becomes hword hnext) hrest

end Tapered

/-- In the flat cluster widths are never set. -/
theorem Planar.unset_of_derives (hword : ∀ t ∈ word, t.symbol ≠ .width)
    (h : Derives (standard .planar) cfg n word out) : ∀ t ∈ out, t.symbol ≠ .width := by
  refine derives_forall (fun t u ht hu => ?_) h hword
  obtain ⟨s, s', hu⟩ := hu
  cases (replace_eq_ok_iff.mp hu).1 with
  | terminal => exact List.forall_mem_singleton.mpr ht
  | root_end | root_fork | secondary_end | secondary_fork | tip | pedicel =>
    simp [branch, Token.bud, Token.bare]

end Grammar

/-! ### Walks -/

namespace Turtle.Walk

variable {cfg : Config} {w v w' : Walk} {t : Token} {word : List Token} {width : Float32}

/-- All nodes made between the two walks are of one width. -/
def Makes (width : Float32) (w w' : Walk) : Prop :=
  ∃ count, w'.skeleton.widths = w.skeleton.widths ++ List.replicate count width

theorem Makes.none (h : w'.skeleton.widths = w.skeleton.widths) : Makes width w w' :=
  ⟨0, by rw [h, List.replicate_zero, List.append_nil]⟩

theorem Makes.trans (h : Makes width w v) (h' : Makes width v w') : Makes width w w' := by
  obtain ⟨m, hm⟩ := h
  obtain ⟨n, hn⟩ := h'
  exact ⟨m + n, by rw [hn, hm, List.append_assoc, List.replicate_append_replicate]⟩

theorem makes_draw (length : Float32) : Makes w.turtle.width w (w.draw length) := by
  refine ⟨1, ?_⟩
  show ((w.skeleton.nodes.push _).toList).map Skeleton.Node.width = _
  rw [Array.toList_push, List.map_append]
  rfl

/-- Only a drawn segment makes a node, as wide as the turtle is. -/
theorem Step.makes (h : Step cfg w t v) (hwidth : t.symbol = .forward → w.turtle.width = width) :
    Makes width w v := by
  cases h with
  | drawn _ ht =>
    rw [← hwidth ht]
    exact makes_draw (w := w) _
  | hung =>
    refine .none ?_
    show ((w.skeleton.attach _ _).nodes.toList).map _ = _
    rw [Skeleton.nodes_attach]
    rfl
  | swallowed | turned | widened | saved | restored | unmatched | skipped => exact .none rfl

theorem Step.awake (h : Step cfg w t v) (hawake : w.skipping = false) (ht : t.symbol ≠ .skip) :
    v.skipping = false := by
  rw [h.skipping, hawake, pending, decide_eq_false ht]
  rfl

theorem Step.width_eq {x : Float32} (h : Step cfg w ⟨.width, [x]⟩ v) (hawake : w.skipping = false) :
    v.turtle.width = x := by
  cases h with
  | widened => rfl
  | swallowed hskip => cases hskip.symm.trans hawake
  | drawn _ ht | hung _ ht | turned _ ht | saved _ ht | restored _ ht | unmatched _ ht
  | skipped _ ht => cases ht

/-- **A clad word is drawn in the tapered width.** -/
theorem makes_of_clad {grammar : Grammar.Config} (hword : Clad grammar word)
    (h : Run cfg w word w') (hawake : w.skipping = false) : Makes grammar.tapered w w' := by
  induction hword generalizing w with
  | nil =>
    cases h
    exact .none rfl
  | growing ht =>
    cases h with
    | cons hstep => cases (step_of_nonterminal ht).symm.trans (step_eq_ok_iff.mpr hstep)
  | terminal _ hforward hskip _ ih =>
    cases h with
    | cons hstep hrest =>
      exact (hstep.makes fun ht => absurd ht hforward).trans (ih hrest (hstep.awake hawake hskip))
  -- The `F` is carried out behind its `!`, so it does not matter how wide the turtle was before.
  | drawn _ ih =>
    obtain _ | ⟨hset, _ | ⟨hdraw, hrest⟩⟩ := h
    have hset' := hset.awake hawake (by simp)
    have hdraw' := hdraw.awake hset' (by simp)
    refine (hset.makes (by simp)).trans ((hdraw.makes fun _ => ?_).trans (ih hrest hdraw'))
    exact hset.width_eq hawake
  | swallowed _ ih =>
    obtain _ | ⟨hskip, _ | ⟨hberry, hrest⟩⟩ := h
    have hberry' := hberry.skipping
    rw [hskip.skipping, hawake] at hberry'
    exact (hskip.makes (by simp [Token.bare])).trans
      ((hberry.makes (by simp)).trans (ih hrest hberry'))

/-- Where no width is set, all cursors are of the same one. -/
structure Uniform (width : Float32) (w : Walk) : Prop where
  turtle : w.turtle.width = width
  saved : ∀ cursor ∈ w.saved, cursor.width = width

theorem Step.uniform (h : Step cfg w t v) (ht : t.symbol ≠ .width) (hw : Uniform width w) :
    Uniform width v := by
  cases h with
  | widened _ hwidth => exact absurd hwidth ht
  | saved => exact ⟨hw.turtle, List.forall_mem_cons.mpr ⟨hw.turtle, hw.saved⟩⟩
  | restored _ _ hsaved =>
    have hall := hw.saved
    rw [hsaved] at hall
    obtain ⟨hcursor, hrest⟩ := List.forall_mem_cons.mp hall
    exact ⟨hcursor, hrest⟩
  | swallowed | drawn | hung | turned | unmatched | skipped => exact ⟨hw.turtle, hw.saved⟩

/-- Where no width is set, all is drawn in the width of the start. -/
theorem makes_of_unset (hword : ∀ t ∈ word, t.symbol ≠ .width) (h : Run cfg w word w')
    (hw : Uniform width w) : Makes width w w' := by
  induction h with
  | nil => exact .none rfl
  | cons hstep _ ih =>
    obtain ⟨ht, hword⟩ := List.forall_mem_cons.mp hword
    exact (hstep.makes fun _ => hw.turtle).trans (ih hword (hstep.uniform ht hw))

end Turtle.Walk

/-! ### Clusters -/

/-- The width of all nodes of a cluster but the root. -/
def Cluster.Config.width (cfg : Cluster.Config) : Float32 :=
  match cfg.grammar.variant with
  | .planar => cfg.turtle.defaultWidth
  | .phyllotactic => cfg.grammar.tapered

/-- The walk of a grown cluster makes all its nodes at one width. -/
theorem makes_of_grow {cfg : Cluster.Config} {g : Growth} (hg : grow cfg = .ok g)
    {w : Turtle.Walk} (hrun : Turtle.Walk.Run cfg.turtle (.start cfg.turtle) g.word w) :
    Turtle.Walk.Makes cfg.width (.start cfg.turtle) w := by
  obtain ⟨hword, _⟩ := (grow_eq_ok_iff (valid_of_grow hg)).mp hg
  obtain ⟨hexpand, _⟩ := LSystem.derive_eq_ok_iff.mp hword
  obtain ⟨s, hpasses⟩ := LSystem.expand_eq_ok_iff.mp hexpand
  have hderives := derives_of_passes hpasses
  unfold Cluster.Config.width
  cases hv : cfg.grammar.variant with
  | planar =>
    simp only [hv, Config.start] at hderives
    have hunset := Planar.unset_of_derives (List.forall_mem_singleton.mpr (by simp [Token.bud]))
      hderives
    exact Turtle.Walk.makes_of_unset hunset hrun ⟨rfl, List.forall_mem_nil _⟩
  | phyllotactic =>
    simp only [hv, Config.start] at hderives
    have hclad := Tapered.clad_of_derives (.growing rfl rfl .nil) hderives
    exact Turtle.Walk.makes_of_clad hclad hrun rfl

/-- **All that is drawn of a cluster is of one width**: that of the root in the flat cluster, and the
base width, tapered once, in space. -/
theorem widths_of_grow {cfg : Cluster.Config} {g : Growth} (hg : grow cfg = .ok g) :
    g.trail.skeleton.widths =
      cfg.turtle.defaultWidth :: List.replicate (g.trail.skeleton.nodes.size - 1) cfg.width := by
  obtain ⟨_, hwalk⟩ := (grow_eq_ok_iff (valid_of_grow hg)).mp hg
  obtain ⟨w, hrun, htrail⟩ := Turtle.Walk.walk_eq_ok_iff.mp hwalk
  obtain ⟨count, hwidths⟩ := makes_of_grow hg hrun
  have hskeleton : w.skeleton = g.trail.skeleton := congrArg Turtle.Trail.skeleton htrail
  have hsize := congrArg List.length hwidths
  rw [hskeleton] at hwidths hsize
  rw [Skeleton.length_widths, List.length_append, List.length_replicate] at hsize
  have hcount : g.trail.skeleton.nodes.size - 1 = count := by
    rw [hsize]
    exact Nat.add_sub_cancel_left 1 count
  rw [hwidths, hcount]
  rfl

/-- The preset of the cluster in space is drawn in a width of 2.94, and that of the flat cluster in
the width of its root. -/
theorem widths_of_grow_presets :
    (∃ g, grow .phyllotactic = .ok g ∧
      g.trail.skeleton.widths = 0.1 :: List.replicate (g.trail.skeleton.nodes.size - 1) 2.94) ∧
    ∃ g, grow .planar = .ok g ∧
      g.trail.skeleton.widths = 0.1 :: List.replicate (g.trail.skeleton.nodes.size - 1) 0.1 := by
  obtain ⟨g, hg⟩ := (@grow_of_enough .phyllotactic (by decide)
    ⟨by decide, by decide, by decide⟩ (by decide) (by decide)).1 (by decide)
  obtain ⟨g', hg'⟩ := (@grow_of_enough .planar (by decide)
    ⟨by decide, by decide, by decide⟩ (by decide) (by decide)).1 (by decide)
  have hwidth : Cluster.Config.phyllotactic.width = 2.94 := by decide
  have h := widths_of_grow hg
  rw [hwidth] at h
  exact ⟨⟨g, hg, h⟩, g', hg', widths_of_grow hg'⟩

end Grapevine
