import Grapevine.Proofs.Grammar.Extent

/-! How many generations a derivation needs.

Within the reach of single precision it is a number that the constants give
(`LSystem.derive_standard`). Beyond, there are constants that are usable, and yet no number of
generations is enough for them (`LSystem.exists_derive_iff`). -/
namespace Grapevine

open Number Chance Grammar

namespace LSystem

variable {cfg : Config}

theorem make_of_valid {g : Grammar} (h : cfg.validate = .ok ()) : make cfg g = .ok ⟨cfg, g, h⟩ := by
  unfold make
  split
  · rfl
  · rename_i hfault
    rw [h] at hfault
    cases hfault

theorem make_of_invalid {g : Grammar} {fault : ConfigFault} (h : cfg.validate = .error fault) :
    make cfg g = .error (.config fault) := by
  unfold make
  split
  · rename_i hok
    rw [h] at hok
    cases hok
  · rename_i hfault
    rw [h] at hfault
    cases hfault
    rfl

theorem standard_of_valid (h : cfg.validate = .ok ()) :
    standard cfg = .ok ⟨cfg, .standard cfg.variant, h⟩ := make_of_valid h

theorem standard_of_invalid {fault : ConfigFault} (h : cfg.validate = .error fault) :
    standard cfg = .error (.config fault) := make_of_invalid h

theorem valid_of_standard {sys : LSystem} (hsys : standard cfg = .ok sys) : cfg.validate = .ok () := by
  cases h : cfg.validate with
  | ok => rfl
  | error fault =>
    rw [standard_of_invalid h] at hsys
    cases hsys

theorem standard_eq_ok_iff {sys : LSystem} :
    standard cfg = .ok sys ↔ ∃ h : cfg.validate = .ok (), sys = ⟨cfg, .standard cfg.variant, h⟩ := by
  apply Iff.intro
  · intro hsys
    have h := valid_of_standard hsys
    rw [standard_of_valid h] at hsys
    cases hsys
    exact ⟨h, rfl⟩
  · intro hvalid
    obtain ⟨h, rfl⟩ := hvalid
    exact standard_of_valid h

/-- **Usable constants of moderate depth need a number of generations that can be read off them.**
With as many or more a derivation succeeds. With fewer it names the first non-terminal that is
left; it has no other way to fail. -/
theorem derive_standard (h : cfg.validate = .ok ()) (hs : cfg.Shallow) (hd : cfg.Drawable) :
    ∃ sys, standard cfg = .ok sys ∧ ∀ n,
      ((∃ word, sys.derive n = .ok word) ↔ cfg.passesNeeded ≤ n) ∧
      (n < cfg.passesNeeded → ∃ word index t, sys.expand [cfg.start] n = .ok word ∧
        FirstNonterminal word index t ∧ sys.derive n = .error (.unreduced index t)) ∧
      ∀ fault, sys.derive n = .error fault → ∃ index t, fault = .unreduced index t := by
  refine ⟨_, standard_of_valid h, fun n => ?_⟩
  obtain ⟨hok, hfail⟩ := @derive_of_takes ⟨cfg, .standard cfg.variant, h⟩ _ (takes_start h hs hd) n
  refine ⟨⟨fun ⟨word, hword⟩ => ?_, hok⟩, hfail, fun fault hfault => ?_⟩
  · by_contra hlt
    obtain ⟨_, _, _, _, _, herror⟩ := hfail (Nat.lt_of_not_le hlt)
    rw [hword] at herror
    cases herror
  · rcases Nat.lt_or_ge n cfg.passesNeeded with hlt | hle
    · obtain ⟨_, index, t, _, _, herror⟩ := hfail hlt
      rw [hfault] at herror
      cases herror
      exact ⟨index, t, rfl⟩
    · obtain ⟨word, hword⟩ := hok hle
      rw [hfault] at hword
      cases hword

/-- The cluster in space needs ten generations, and nine are refused. -/
theorem derive_standard_phyllotactic : ∃ sys, standard .phyllotactic = .ok sys ∧
    (∃ word, sys.derive 10 = .ok word) ∧
      ∃ index t, sys.derive 9 = .error (.unreduced index t) := by
  have hneeded : Config.phyllotactic.passesNeeded = 10 := by decide
  obtain ⟨sys, hsys, hall⟩ := @derive_standard .phyllotactic (by decide)
    ⟨by decide, by decide, by decide⟩ (by decide)
  obtain ⟨_, _, _, _, _, hfail⟩ := (hall 9).2.1 (by decide)
  exact ⟨sys, hsys, (hall 10).1.mpr (Nat.le_of_eq hneeded), _, _, hfail⟩

/-! ### What a derivation ends with -/

/-- A derived word is the word of a shoot, and the constants have a branching for it. -/
theorem shoot_of_derive (h : cfg.validate = .ok ()) {n : Nat} {word : List Token}
    (hword : (⟨cfg, .standard cfg.variant, h⟩ : LSystem).derive n = .ok word) :
    ∃ b : Branching, b.Follows (habit cfg cfg.variant).lookup
        (Single.truncate (Single.ofNat cfg.depth)) ∧
      ∃ s, (habit cfg cfg.variant).Grows word b.tips b.nesting s := by
  obtain ⟨hexpand, hred⟩ := derive_eq_ok_iff.mp hword
  obtain ⟨_, hpasses⟩ := expand_eq_ok_iff.mp hexpand
  exact Habit.shoot_of_axis (isAxis_start cfg) ⟨derives_of_passes hpasses, hred⟩

theorem shoot_of_shallow (h : cfg.validate = .ok ()) (hs : cfg.Shallow) {n : Nat}
    {word : List Token} (hword : (⟨cfg, .standard cfg.variant, h⟩ : LSystem).derive n = .ok word) :
    ∃ s, (habit cfg cfg.variant).Grows word cfg.tips cfg.nesting s := by
  obtain ⟨b, hb, hshoot⟩ := shoot_of_derive h hword
  rwa [hb.unique (follows_of_shallow h hs), tips_eq, nesting_eq h] at hshoot

/-! ### Depths out of reach -/

/-- Some number of generations is enough if and only if the axis comes to an end. -/
theorem exists_derive_iff_follows (h : cfg.validate = .ok ()) (hd : cfg.Drawable) :
    (∃ n word, (⟨cfg, .standard cfg.variant, h⟩ : LSystem).derive n = .ok word) ↔
      ∃ b : Branching, b.Follows (habit cfg cfg.variant).lookup
        (Single.truncate (Single.ofNat cfg.depth)) := by
  apply Iff.intro
  · intro hderive
    obtain ⟨n, word, hword⟩ := hderive
    obtain ⟨b, hb, _⟩ := shoot_of_derive h hword
    exact ⟨b, hb⟩
  · intro hfollows
    obtain ⟨b, hb⟩ := hfollows
    have htakes := Habit.takes_axis (timely_habit hd) hb (isAxis_start cfg)
    exact ⟨_, (@derive_of_takes ⟨cfg, .standard cfg.variant, h⟩ _ htakes _).1 (Nat.le_refl _)⟩

/-- **Usable constants come to an end if and only if no depth they count down from is above
`2 ^ 24 + 2`.** From any other, one less is sooner or later rounded back up, and every generation
leaves a bud of the same depth. -/
theorem exists_derive_iff (h : cfg.validate = .ok ()) (hd : cfg.Drawable) :
    ∃ sys, standard cfg = .ok sys ∧ ((∃ n word, sys.derive n = .ok word) ↔
      cfg.depth ≤ 2 ^ 24 + 2 ∧ ∀ d, 2 ≤ d → d ≤ cfg.depth → d ≠ 2 ^ 24 + 1 →
        cfg.lateralAt d ≤ 2 ^ 24 + 2) := by
  refine ⟨_, standard_of_valid h, ?_⟩
  rw [exists_derive_iff_follows h hd, exists_follows_iff]
  have hlookup : ∀ {d : Nat}, 2 ≤ d → d ≤ cfg.depth →
      ((∃ k, (habit cfg cfg.variant).lookup d = .ok k ∧ k ≤ 2 ^ 24 + 2) ↔
        cfg.lateralAt d ≤ 2 ^ 24 + 2) := by
    intro d hd hle
    rw [Config.lookup_of_valid h hd hle]
    simp
  apply Iff.intro
  · intro hends
    obtain ⟨hdepth, hall⟩ := hends
    exact ⟨hdepth, fun d hd hle hne => (hlookup hd hle).mp (hall d hd hle hne)⟩
  · intro hends
    obtain ⟨hdepth, hall⟩ := hends
    exact ⟨hdepth, fun d hd hle hne => (hlookup hd hle).mpr (hall d hd hle hne)⟩

/-- Both sides hold of the preset. -/
theorem exists_derive_phyllotactic :
    ∃ sys, standard .phyllotactic = .ok sys ∧ ∃ n word, sys.derive n = .ok word := by
  obtain ⟨sys, hsys, hiff⟩ := @exists_derive_iff .phyllotactic (by decide) (by decide)
  refine ⟨sys, hsys, hiff.mpr ⟨by decide, fun d _ _ _ => ?_⟩⟩
  show 1 ≤ 2 ^ 24 + 2
  decide

/-- Four above `2 ^ 24`, a depth is usable, and never counted down. -/
theorem not_exists_derive_deep :
    Config.validate { Config.phyllotactic with depth := 16777220 } = .ok () ∧
    Config.Drawable { Config.phyllotactic with depth := 16777220 } ∧
    ∃ sys, standard { Config.phyllotactic with depth := 16777220 } = .ok sys ∧
      ∀ n word, sys.derive n ≠ .ok word := by
  have hvalid : Config.validate { Config.phyllotactic with depth := 16777220 } = .ok () := by decide
  refine ⟨hvalid, by decide, _, standard_of_valid hvalid, fun n word hword => ?_⟩
  obtain ⟨b, hb, _⟩ := shoot_of_derive hvalid hword
  exact not_follows (le_truncate_ofNat (by decide)) hb

end LSystem

end Grapevine
