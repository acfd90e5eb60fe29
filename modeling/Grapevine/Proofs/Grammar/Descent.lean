import Grapevine.Proofs.Grammar.Habit
import Grapevine.Proofs.Number.Whole

/-! Counting down in single precision.

The depth of an axis is stored in single precision, and taken out again in every pass. Up to
`2 ^ 24` nothing is lost on the way, and an axis branches as its depths say (`follows_branching`).
Above, there are depths that one less is rounded back up to, and from `2 ^ 24 + 4` on no axis comes
to an end (`exists_descends_iff`, `exists_follows_iff`). -/
namespace Grapevine.Grammar

open Number

/-! ### Depths that are kept -/

theorem below_natCast {m : Nat} (h : m ≤ 2 ^ 24) : below ((m + 1 : Nat) : Int) = m := by
  have hpred : ((m + 1 : Nat) : Int) - 1 = m := by omega
  rw [below, hpred, Single.ofInt_natCast, Single.truncate_ofNat_of_le h]

theorem descends_natCast {m : Nat} (h : m ≤ 2 ^ 24) : Descends (max m 1 - 1) (m : Int) := by
  induction m with
  | zero => exact Int.zero_le_ofNat 1
  | succ m ih =>
    by_cases hm : m = 0
    · subst hm
      exact Int.le_refl 1
    · have hcount : max (m + 1) 1 - 1 = max m 1 - 1 + 1 := by omega
      rw [hcount]
      refine ⟨by omega, ?_⟩
      rw [below_natCast (by omega)]
      exact ih (by omega)

/-- The branching of an axis of a depth, if its laterals have as many tips as `K` says. -/
def branching (K : Nat → Nat) : Nat → Branching
  | 0 | 1 => []
  | m + 2 => (K (m + 2) - 1) :: branching K (m + 1)

/-- **An axis of moderate depth branches at every depth from its own down to 2.** -/
theorem follows_branching {lookup : Int → Except Fault Nat} {K : Nat → Nat} {m : Nat}
    (hm : m ≤ 2 ^ 24)
    (h : ∀ d : Nat, 2 ≤ d → d ≤ m → ∃ k, lookup d = .ok k ∧ k ≤ 2 ^ 24 ∧ K d = max k 1) :
    (branching K m).Follows lookup (m : Int) := by
  induction m using branching.induct with
  | case1 => exact Int.zero_le_ofNat 1
  | case2 => exact Int.le_refl 1
  | case3 m ih =>
    obtain ⟨k, hk, hle, htips⟩ := h (m + 2) (by omega) (Nat.le_refl _)
    have hrest := ih (by omega) fun d hd hdm => h d hd (by omega)
    refine ⟨by omega, ⟨k, hk, ?_⟩, ?_⟩
    · rw [htips, Single.truncate_ofNat_of_le hle]
      exact descends_natCast hle
    · rw [below_natCast (by omega)]
      exact hrest

/-- A branching with tables of laterals has one tip, and those of each lateral. -/
theorem tips_branching {K : Nat → Nat} (hK : ∀ d, 1 ≤ K d) (m : Nat) :
    (branching K m).tips = 1 + ∑ d ∈ Finset.Icc 2 m, K d := by
  induction m using branching.induct with
  | case1 => rfl
  | case2 => rfl
  | case3 m ih =>
    have hlast := hK (m + 2)
    have hsum : ∑ d ∈ Finset.Icc 2 (m + 2), K d =
        (∑ d ∈ Finset.Icc 2 (m + 1), K d) + K (m + 2) := Finset.sum_Icc_succ_top (by omega) K
    simp only [Branching.tips] at ih
    simp only [branching, Branching.tips, List.map_cons, List.sum_cons, hsum]
    omega

/-- Branches nest as deep as the axis goes on, or as a lateral that leaves it on the way. -/
theorem nesting_branching_le_iff {K : Nat → Nat} (hK : ∀ d, 1 ≤ K d) {m x : Nat} (hm : 0 < m) :
    (branching K m).nesting ≤ x ↔ m ≤ x ∧ ∀ d, 2 ≤ d → d ≤ m → m - d + 1 + K d ≤ x := by
  induction m using branching.induct generalizing x with
  | case1 => exact absurd hm (Nat.lt_irrefl 0)
  | case2 => exact ⟨fun h => ⟨h, fun d hd hle => by omega⟩, And.left⟩
  | case3 m ih =>
    have hlast := hK (m + 2)
    have hnest : (branching K (m + 2)).nesting =
        max (branching K (m + 1)).nesting (K (m + 2)) + 1 := by
      simp only [branching, Branching.nesting]
      omega
    have hsplit : (branching K (m + 2)).nesting ≤ x ↔
        (branching K (m + 1)).nesting ≤ x - 1 ∧ K (m + 2) + 1 ≤ x := by omega
    rw [hsplit, ih (Nat.succ_pos m)]
    apply Iff.intro
    · intro hboth
      obtain ⟨⟨haxis, hrest⟩, hlateral⟩ := hboth
      refine ⟨by omega, fun d hd hle => ?_⟩
      rcases Nat.le_succ_iff.mp hle with hle | heq
      · have hd' := hrest d hd hle
        omega
      · have hd' : K d = K (m + 2) := congrArg K heq
        omega
    · intro hboth
      obtain ⟨haxis, hall⟩ := hboth
      have hlateral := hall (m + 2) (by omega) (Nat.le_refl _)
      refine ⟨⟨by omega, fun d hd hle => ?_⟩, by omega⟩
      have hd' := hall d hd (by omega)
      omega

theorem nesting_branching {K : Nat → Nat} (hK : ∀ d, 1 ≤ K d) {m : Nat} (hm : 0 < m) :
    (branching K m).nesting = max m ((Finset.Icc 2 m).sup fun d => m - d + 1 + K d) := by
  apply eq_of_forall_ge_iff
  intro x
  rw [nesting_branching_le_iff hK hm, Nat.max_le, Finset.sup_le_iff]
  simp only [Finset.mem_Icc, and_imp]

/-! ### Depths that come to an end -/

/-- The depth from which on one less is rounded back up. -/
theorem le_below {d : Int} (h : 2 ^ 24 + 4 ≤ d) : 2 ^ 24 + 4 ≤ below d := by
  obtain ⟨m, hm⟩ := Int.eq_ofNat_of_zero_le (show 0 ≤ d - 1 by omega)
  have hmono : Single.truncate (Single.ofNat (2 ^ 24 + 3)) ≤ Single.truncate (Single.ofNat m) :=
    Single.truncate_ofNat_mono (by omega)
  have hround : Single.truncate (Single.ofNat (2 ^ 24 + 3)) = 2 ^ 24 + 4 := by decide
  rw [hround] at hmono
  rw [below, hm]
  exact hmono

/-- A depth of more than a significand holds is never counted down. -/
theorem not_descends {n : Nat} {d : Int} (h : 2 ^ 24 + 4 ≤ d) : ¬ Descends n d := by
  induction n generalizing d with
  | zero =>
    intro hd
    simp only [Descends] at hd
    omega
  | succ n ih => exact fun hd => ih (le_below h) hd.2

theorem not_follows {lookup : Int → Except Fault Nat} {b : Branching} {d : Int}
    (h : 2 ^ 24 + 4 ≤ d) : ¬ b.Follows lookup d := by
  induction b generalizing d with
  | nil =>
    intro hd
    simp only [Branching.Follows] at hd
    omega
  | cons n b ih => exact fun hd => ih (le_below h) hd.2.2

/-- The depths that end are those that are kept, and the two that are rounded to a lower one before
they could be rounded up. -/
theorem ends_cases {m : Nat} (h : m ≤ 2 ^ 24 + 2) :
    (m ≤ 2 ^ 24 ∧ Single.truncate (Single.ofNat m) = m) ∨
      (m = 2 ^ 24 + 1 ∧ Single.truncate (Single.ofNat m) = 2 ^ 24) ∨
      (m = 2 ^ 24 + 2 ∧ Single.truncate (Single.ofNat m) = 2 ^ 24 + 2 ∧
        below (2 ^ 24 + 2) = 2 ^ 24) := by
  rcases Nat.lt_or_ge (2 ^ 24) m with hlt | hle
  · obtain rfl | rfl : m = 2 ^ 24 + 1 ∨ m = 2 ^ 24 + 2 := by omega
    · exact .inr (.inl (by decide))
    · exact .inr (.inr (by decide))
  · exact .inl ⟨hle, Single.truncate_ofNat_of_le hle⟩

theorem le_truncate_ofNat {m : Nat} (h : 2 ^ 24 + 2 < m) :
    2 ^ 24 + 4 ≤ Single.truncate (Single.ofNat m) := by
  have hmono : Single.truncate (Single.ofNat (2 ^ 24 + 3)) ≤ Single.truncate (Single.ofNat m) :=
    Single.truncate_ofNat_mono h
  have hround : Single.truncate (Single.ofNat (2 ^ 24 + 3)) = 2 ^ 24 + 4 := by decide
  rwa [hround] at hmono

theorem descends_succ_iff {n : Nat} {d : Int} :
    Descends (n + 1) d ↔ 1 < d ∧ Descends n (below d) := Iff.rfl

/-- **A lateral comes to an end from depths up to `2 ^ 24 + 2`, and from no others.** -/
theorem exists_descends_iff {m : Nat} :
    (∃ n, Descends n (Single.truncate (Single.ofNat m))) ↔ m ≤ 2 ^ 24 + 2 := by
  have hdescends : Descends (2 ^ 24 - 1) (2 ^ 24) := descends_natCast (Nat.le_refl (2 ^ 24))
  apply Iff.intro
  · intro hends
    obtain ⟨n, hn⟩ := hends
    by_contra hlt
    exact not_descends (le_truncate_ofNat (Nat.lt_of_not_le hlt)) hn
  · intro h
    rcases ends_cases h with ⟨hle, heq⟩ | ⟨rfl, heq⟩ | ⟨rfl, heq, hbelow⟩ <;> rw [heq]
    · exact ⟨_, descends_natCast hle⟩
    · exact ⟨_, hdescends⟩
    · refine ⟨2 ^ 24 - 1 + 1, descends_succ_iff.mpr ⟨by decide, ?_⟩⟩
      rw [hbelow]
      exact hdescends

variable {lookup : Int → Except Fault Nat}

theorem exists_follows_step {d : Int} (h : 1 < d) :
    (∃ b : Branching, b.Follows lookup d) ↔
      (∃ k, lookup d = .ok k ∧ k ≤ 2 ^ 24 + 2) ∧ ∃ b : Branching, b.Follows lookup (below d) := by
  apply Iff.intro
  · intro hfollows
    obtain ⟨b, hb⟩ := hfollows
    cases b with
    | nil => exact absurd h (Int.not_lt.mpr hb)
    | cons n b =>
      obtain ⟨_, ⟨k, hk, hn⟩, hrest⟩ := hb
      exact ⟨⟨k, hk, exists_descends_iff.mp ⟨n, hn⟩⟩, b, hrest⟩
  · intro hboth
    obtain ⟨⟨k, hk, hle⟩, b, hrest⟩ := hboth
    obtain ⟨n, hn⟩ := exists_descends_iff.mpr hle
    exact ⟨n :: b, h, ⟨k, hk, hn⟩, hrest⟩

/-- An axis comes to its end if each of its laterals does. -/
theorem exists_follows_natCast_iff {m : Nat} (hm : m ≤ 2 ^ 24) :
    (∃ b : Branching, b.Follows lookup m) ↔
      ∀ d : Nat, 2 ≤ d → d ≤ m → ∃ k, lookup d = .ok k ∧ k ≤ 2 ^ 24 + 2 := by
  induction m with
  | zero => exact ⟨fun _ d hd hle => by omega, fun _ => ⟨[], Int.zero_le_ofNat 1⟩⟩
  | succ m ih =>
    by_cases hzero : m = 0
    · subst hzero
      exact ⟨fun _ d hd hle => by omega, fun _ => ⟨[], Int.le_refl 1⟩⟩
    · rw [exists_follows_step (by omega), below_natCast (by omega), ih (by omega)]
      apply Iff.intro
      · intro hboth d hd hle
        obtain ⟨hlast, hrest⟩ := hboth
        rcases Nat.le_succ_iff.mp hle with hle | rfl
        · exact hrest d hd hle
        · exact hlast
      · intro hall
        exact ⟨hall (m + 1) (by omega) (Nat.le_refl _), fun d hd hle => hall d hd (by omega)⟩

/-- **An axis comes to an end from depths up to `2 ^ 24 + 2`, if the laterals do that it leaves.**
One that starts above `2 ^ 24` never stands at `2 ^ 24 + 1`. -/
theorem exists_follows_iff {m : Nat} :
    (∃ b : Branching, b.Follows lookup (Single.truncate (Single.ofNat m))) ↔
      m ≤ 2 ^ 24 + 2 ∧ ∀ d : Nat, 2 ≤ d → d ≤ m → d ≠ 2 ^ 24 + 1 →
        ∃ k, lookup d = .ok k ∧ k ≤ 2 ^ 24 + 2 := by
  have hkept := @exists_follows_natCast_iff lookup _ (Nat.le_refl (2 ^ 24))
  rcases Nat.lt_or_ge (2 ^ 24 + 2) m with hlt | hle
  · refine ⟨fun ⟨b, hb⟩ => absurd hb (not_follows (le_truncate_ofNat hlt)), fun h => ?_⟩
    exact absurd h.1 (Nat.not_le.mpr hlt)
  · rcases ends_cases hle with ⟨hle', heq⟩ | ⟨rfl, heq⟩ | ⟨rfl, heq, hbelow⟩
    · rw [heq, exists_follows_natCast_iff hle']
      exact ⟨fun h => ⟨hle, fun d hd hdm _ => h d hd hdm⟩,
        fun h d hd hdm => h.2 d hd hdm (by omega)⟩
    · rw [heq]
      refine hkept.trans ⟨fun h => ⟨hle, fun d hd hdm hne => h d hd (by omega)⟩,
        fun h d hd hdm => h.2 d hd (by omega) (by omega)⟩
    · rw [heq, exists_follows_step (by decide), hbelow]
      apply Iff.intro
      · intro hboth
        obtain ⟨hlast, hrest⟩ := hboth
        refine ⟨hle, fun d hd hdm hne => ?_⟩
        obtain hdm | rfl : d ≤ 2 ^ 24 ∨ d = 2 ^ 24 + 2 := by omega
        · exact hkept.mp hrest d hd hdm
        · exact hlast
      · intro hboth
        obtain ⟨_, hall⟩ := hboth
        exact ⟨hall (2 ^ 24 + 2) (by decide) (Nat.le_refl _) (by decide),
          hkept.mpr fun d hd hdm => hall d hd (by omega) (by omega)⟩

end Grapevine.Grammar
