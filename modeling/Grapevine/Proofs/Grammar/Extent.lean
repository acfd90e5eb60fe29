import Grapevine.Proofs.Grammar.Descent
import Grapevine.Proofs.Grammar.Variants

/-! The extent of a cluster, read off its constants.

`Config.tips` and `Config.nesting` count the tips of a cluster and how deep its brackets nest. They
are those of the branching that the start of the grammar follows (`follows_of_shallow`), so they
also say how many passes it takes (`takes_start`). -/
namespace Grapevine

open Number Grammar

namespace Grammar

namespace Config

/-- The depth of the lateral that leaves the main axis at a depth of 2 or more. -/
def lateralAt (cfg : Config) (d : Nat) : Nat :=
  match cfg.variant with
  | .planar => cfg.lateralDepths.getD (d - 2) 0
  | .phyllotactic => cfg.secondaryDepth

/-- The tips of that lateral. One of depth 0 ends as one of depth 1 does. -/
def lateralTips (cfg : Config) (d : Nat) : Nat := max (cfg.lateralAt d) 1

def tips (cfg : Config) : Nat := 1 + ∑ d ∈ Finset.Icc 2 cfg.depth, cfg.lateralTips d

/-- How deep brackets nest: along the main axis, or along it and then along a lateral. -/
def nesting (cfg : Config) : Nat :=
  match cfg.variant with
  | .planar => max cfg.depth
      ((Finset.Icc 2 cfg.depth).sup fun d => cfg.depth - d + 1 + cfg.lateralTips d)
  | .phyllotactic => if cfg.depth = 1 then 1 else cfg.depth - 1 + max cfg.secondaryDepth 1

/-- How many passes reduce the start of the grammar. -/
def passesNeeded (cfg : Config) : Nat :=
  match cfg.variant with
  | .planar => cfg.nesting + 2
  | .phyllotactic => cfg.nesting + 3

/-- No depth that is read is too great for single precision. -/
structure Shallow (cfg : Config) : Prop where
  depth : cfg.depth ≤ 2 ^ 24
  /-- A flat cluster has its laterals from the table, -/
  table : cfg.variant = .planar → ∀ k ∈ cfg.lateralDepths.take (cfg.depth - 1), k ≤ 2 ^ 24
  /-- and in space they are all alike. -/
  secondary : cfg.variant = .phyllotactic → cfg.secondaryDepth ≤ 2 ^ 24

variable {cfg : Config}

theorem one_le_lateralTips (cfg : Config) (d : Nat) : 1 ≤ cfg.lateralTips d := Nat.le_max_right ..

theorem depth_pos_of_valid (h : cfg.validate = .ok ()) : 0 < cfg.depth := by
  by_contra hzero
  simp [validate, Nat.eq_zero_of_not_pos hzero] at h

theorem table_of_valid (h : cfg.validate = .ok ()) (hv : cfg.variant = .planar) :
    cfg.depth - 1 ≤ cfg.lateralDepths.length := by
  by_contra hshort
  have hpos := depth_pos_of_valid h
  simp [validate, hv, Nat.ne_of_gt hpos, Nat.lt_of_not_le hshort] at h

/-- Usable constants have a lateral for every depth that the axis passes. -/
theorem lookup_of_valid (h : cfg.validate = .ok ()) {d : Nat} (hd : 2 ≤ d) (hle : d ≤ cfg.depth) :
    (habit cfg cfg.variant).lookup d = .ok (cfg.lateralAt d) := by
  cases hv : cfg.variant with
  | planar =>
    have htable := table_of_valid h hv
    have hindex : ((d : Int) - 2).toNat = d - 2 := by omega
    have hlt : d - 2 < cfg.lateralDepths.length := by omega
    simp only [habit, Planar.habit, lateralDepth, hindex, List.getElem?_eq_getElem hlt, lateralAt,
      hv, List.getD_eq_getElem?_getD, Option.getD_some]
  | phyllotactic =>
    simp only [habit, Tapered.habit, lateralAt, hv]

theorem Shallow.lateralAt_le (hs : cfg.Shallow) (h : cfg.validate = .ok ()) {d : Nat} (hd : 2 ≤ d)
    (hle : d ≤ cfg.depth) : cfg.lateralAt d ≤ 2 ^ 24 := by
  unfold lateralAt
  cases hv : cfg.variant with
  | planar =>
    have htable := table_of_valid h hv
    have hlt : d - 2 < (cfg.lateralDepths.take (cfg.depth - 1)).length := by
      rw [List.length_take]
      omega
    have hmem := hs.table hv _ (List.getElem_mem hlt)
    rw [List.getElem_take] at hmem
    rw [List.getD_eq_getElem?_getD, List.getElem?_eq_getElem (by omega)]
    exact hmem
  | phyllotactic => exact hs.secondary hv

end Config

variable {cfg : Config}

/-- Within the bounds, the axis branches as the constants say. -/
theorem follows_of_shallow (h : cfg.validate = .ok ()) (hs : cfg.Shallow) :
    (branching cfg.lateralTips cfg.depth).Follows (habit cfg cfg.variant).lookup
      (Single.truncate (Single.ofNat cfg.depth)) := by
  rw [Single.truncate_ofNat_of_le hs.depth]
  apply follows_branching hs.depth
  intro d hd hle
  exact ⟨_, Config.lookup_of_valid h hd hle, hs.lateralAt_le h hd hle, rfl⟩

theorem tips_eq (cfg : Config) : (branching cfg.lateralTips cfg.depth).tips = cfg.tips :=
  tips_branching cfg.one_le_lateralTips cfg.depth

/-- In space all laterals are alike, and one leaves the axis at each depth but the last. -/
theorem tips_of_phyllotactic (hv : cfg.variant = .phyllotactic) :
    cfg.tips = 1 + (cfg.depth - 1) * max cfg.secondaryDepth 1 := by
  have htips : ∀ d, cfg.lateralTips d = max cfg.secondaryDepth 1 := by
    intro d
    simp only [Config.lateralTips, Config.lateralAt, hv]
  have hcard : cfg.depth + 1 - 2 = cfg.depth - 1 := by omega
  simp only [Config.tips, htips, Finset.sum_const, Nat.card_Icc, smul_eq_mul, hcard]

/-- Where all laterals are alike, the first one nests deepest. -/
theorem nesting_eq (h : cfg.validate = .ok ()) :
    (branching cfg.lateralTips cfg.depth).nesting = cfg.nesting := by
  have hpos := Config.depth_pos_of_valid h
  unfold Config.nesting
  cases hv : cfg.variant with
  | planar => exact nesting_branching cfg.one_le_lateralTips hpos
  | phyllotactic =>
    have htips : ∀ d, cfg.lateralTips d = max cfg.secondaryDepth 1 := by
      intro d
      simp only [Config.lateralTips, Config.lateralAt, hv]
    apply eq_of_forall_ge_iff
    intro x
    rw [nesting_branching_le_iff cfg.one_le_lateralTips hpos]
    simp only [htips]
    apply Iff.intro
    · intro hboth
      obtain ⟨haxis, hall⟩ := hboth
      split
      · omega
      · have hfirst := hall cfg.depth (by omega) (Nat.le_refl _)
        have hsecond := hall 2 (Nat.le_refl _) (by omega)
        omega
    · intro hle
      split at hle
      · exact ⟨by omega, fun d hd hdm => by omega⟩
      · exact ⟨by omega, fun d hd hdm => by omega⟩

/-- **The start of a grammar takes as many passes as its constants say.** -/
theorem takes_start (h : cfg.validate = .ok ()) (hs : cfg.Shallow) (hd : cfg.Drawable) :
    Takes (standard cfg.variant) cfg cfg.passesNeeded cfg.start := by
  have htakes := Habit.takes_axis (timely_habit hd) (follows_of_shallow h hs) (isAxis_start cfg)
  have hpasses : (branching cfg.lateralTips cfg.depth).nesting + 2 + (habit cfg cfg.variant).delay =
      cfg.passesNeeded := by
    rw [nesting_eq h]
    unfold Config.passesNeeded
    cases cfg.variant <;> rfl
  rwa [hpasses] at htakes

end Grammar

end Grapevine
