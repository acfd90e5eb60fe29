import Grapevine.Proofs.Shoot

/-! The joints of a shoot, and what its word says of them.

A shoot of `T` tips has `T - 1` internodes, `T` tips and `3 * T` pedicels, and so its word has
`5 * T - 1` draws. The symbol behind a draw tells a joint with branches from a pedicel, and a
pedicel whose berry was swallowed from one that bears it (`behindDraws_word`). -/
namespace Grapevine

open Grammar

namespace Shoot

/-! ### Counting joints -/

/-- How many segments leave a joint. -/
def Joint.branches : Joint → Nat
  | internode => 2
  | tip => 3
  | pedicel _ => 0

/-- The symbol that is written behind the segment of a joint. -/
def Joint.follower : Joint → Symbol
  | internode | tip => .push
  | pedicel swallowed => if swallowed then .skip else .berry

/-- A berry hangs on a joint. -/
def Joint.bears : Joint → Bool
  | pedicel swallowed => !swallowed
  | _ => false

/-- **Every tip brings an internode with it, all but the first, and three pedicels.** So do counts
of joints that do not ask whether a berry was swallowed. -/
theorem countP_joints {p : Joint → Bool} (hp : p (.pedicel true) = p (.pedicel false)) (s : Shoot) :
    s.joints.countP p + (p .internode).toNat =
      ((p .internode).toNat + (p .tip).toNat + 3 * (p (.pedicel false)).toNat) * s.tips := by
  have hpedicel : ∀ swallowed, p (.pedicel swallowed) = p (.pedicel false) := by
    intro swallowed
    cases swallowed
    · rfl
    · exact hp
  have hcons : ∀ (j : Joint) (l : List Joint), (j :: l).countP p = l.countP p + (p j).toNat := by
    intro j l
    rw [List.countP_cons]
    cases p j <;> rfl
  induction s with
  | tip =>
    simp only [joints, hcons, hpedicel, List.countP_nil, tips]
    omega
  | fork _ _ _ ihf ihs =>
    simp only [joints, List.cons_append, hcons, List.countP_append, tips, Nat.mul_add, ← ihf, ← ihs]
    omega

/-- A shoot has five joints for each tip, less one: the first tip has no internode in front of it.
-/
theorem length_joints (s : Shoot) : s.joints.length + 1 = 5 * s.tips := by
  have hall := countP_joints (p := fun _ => true) rfl s
  rwa [List.countP_true] at hall

/-- Every tip but the first stands behind an internode of its own. -/
theorem countP_internodes (s : Shoot) : s.joints.countP (·.branches = 2) + 1 = s.tips :=
  (@countP_joints (·.branches = 2) rfl s).trans (Nat.one_mul _)

theorem countP_tips (s : Shoot) : s.joints.countP (·.branches = 3) = s.tips :=
  (@countP_joints (·.branches = 3) rfl s).trans (Nat.one_mul _)

/-- Each tip carries three pedicels. -/
theorem countP_pedicels (s : Shoot) : s.joints.countP (·.branches = 0) = 3 * s.tips :=
  @countP_joints (·.branches = 0) rfl s

end Shoot

/-! ### Counting symbols -/

namespace Token

/-- How often a symbol is written in a word. -/
def occurrences (x : Symbol) (word : List Token) : Nat := word.countP (·.symbol = x)

variable {x : Symbol}

@[simp] theorem occurrences_append (u v : List Token) :
    occurrences x (u ++ v) = occurrences x u + occurrences x v := List.countP_append

@[simp] theorem occurrences_cons (t : Token) (u : List Token) :
    occurrences x (t :: u) = occurrences x u + if t.symbol = x then 1 else 0 := by
  simp [occurrences, List.countP_cons]

@[simp] theorem occurrences_nil : occurrences x [] = 0 := rfl

/-- A branch adds one bracket of each kind to what is inside. -/
theorem occurrences_branch (u : List Token) :
    occurrences x (branch u) =
      occurrences x u + (if .push = x then 1 else 0) + if .pop = x then 1 else 0 := by
  simp only [branch, List.cons_append, occurrences_cons, occurrences_append, occurrences_nil, bare]
  omega

/-- A symbol that neither turns the turtle nor sets its width. -/
def Plain (x : Symbol) : Prop := ∀ t : Token, t.adjusts = true → t.symbol ≠ x

theorem plain_of_eq (h : x = .forward ∨ x = .berry ∨ x = .push ∨ x = .pop ∨ x = .skip) :
    Plain x := by
  intro t ht heq
  rcases h with rfl | rfl | rfl | rfl | rfl <;> simp [adjusts, heq] at ht

/-- A stalk draws once. All else in it adjusts the turtle. -/
theorem occurrences_stalk (h : Plain x) (s : Stalk) :
    occurrences x s.word = if .forward = x then 1 else 0 := by
  have hlead : occurrences x s.lead = 0 :=
    List.countP_eq_zero.mpr fun t ht => by simpa using h t (s.adjusts t ht)
  simp only [Stalk.word, occurrences_append, hlead, occurrences_cons, occurrences_nil, Nat.zero_add]

/-- A pedicel draws once and bears one berry, with a `%` in front of it if it is swallowed. -/
theorem occurrences_pedicel (h : Plain x) (p : Pedicel) :
    occurrences x p.word = (if .forward = x then 1 else 0) +
      (if p.swallowed = true ∧ .skip = x then 1 else 0) + if .berry = x then 1 else 0 := by
  simp only [Pedicel.word, occurrences_append, occurrences_stalk h, occurrences_cons,
    occurrences_nil, Nat.zero_add]
  cases p.swallowed <;> simp [bare]

/-- The symbol behind each `F` of a word, if there is one. -/
def behindDraws : List Token → List (Option Symbol)
  | [] => []
  | t :: word =>
    if t.symbol = .forward then word.head?.map Token.symbol :: behindDraws word
    else behindDraws word

theorem behindDraws_cons_of_ne {t : Token} (h : t.symbol ≠ .forward) (word : List Token) :
    behindDraws (t :: word) = behindDraws word := if_neg h

/-- What is behind the segment of a stalk is behind the whole stalk. -/
theorem behindDraws_stalk (s : Stalk) (word : List Token) :
    behindDraws (s.word ++ word) = word.head?.map Token.symbol :: behindDraws word := by
  obtain ⟨lead, length, hlead⟩ := s
  show behindDraws (lead ++ [⟨.forward, [length]⟩] ++ word) = _
  induction lead with
  | nil => rfl
  | cons t lead ih =>
    obtain ⟨ht, hrest⟩ := List.forall_mem_cons.mp hlead
    have hne : t.symbol ≠ .forward := plain_of_eq (.inl rfl) t ht
    rw [List.cons_append, List.cons_append, behindDraws_cons_of_ne hne]
    exact ih hrest

/-- The segment of a pedicel is followed by its berry, or by the `%` that swallows it. -/
theorem behindDraws_pedicel (p : Pedicel) (word : List Token) :
    behindDraws (p.word ++ word) =
      some (Shoot.Joint.pedicel p.swallowed).follower :: behindDraws word := by
  rw [Pedicel.word, List.append_assoc, List.append_assoc, behindDraws_stalk]
  cases p.swallowed <;> rfl

/-- The last segment of a branch has the `]` behind it. -/
theorem behindDraws_branch (u word : List Token) :
    behindDraws (branch u ++ word) = behindDraws (u ++ .bare .pop :: word) := by
  rw [branch, List.append_assoc]
  rfl

end Token

namespace Shoot

open Token

/-- Each joint is drawn by one segment. -/
theorem occurrences_forward (s : Shoot) : occurrences .forward s.word = s.joints.length := by
  have hplain : Plain .forward := plain_of_eq (by simp)
  induction s with
  | tip =>
    simp [word, joints, occurrences_branch, occurrences_stalk hplain, occurrences_pedicel hplain]
  | fork _ _ _ ihf ihs =>
    simp only [word, joints, occurrences_append, occurrences_branch, occurrences_stalk hplain, ihf,
      ihs, List.cons_append, List.length_cons, List.length_append]
    simp
    omega

/-- All joints but the first stand at the end of a branch. -/
theorem occurrences_bracket {x : Symbol} (hx : x = .push ∨ x = .pop) (s : Shoot) :
    occurrences x s.word + 1 = s.joints.length := by
  have hplain : Plain x := plain_of_eq (by rcases hx with rfl | rfl <;> simp)
  have hbranch : ∀ u, occurrences x (branch u) = occurrences x u + 1 := by
    intro u
    rcases hx with rfl | rfl <;> simp [occurrences_branch]
  have hsym : .forward ≠ x ∧ .berry ≠ x ∧ .skip ≠ x := by
    rcases hx with rfl | rfl <;> simp
  induction s with
  | tip =>
    simp [word, joints, hbranch, occurrences_stalk hplain, occurrences_pedicel hplain, hsym]
  | fork _ _ _ ihf ihs =>
    simp only [word, joints, occurrences_append, hbranch, occurrences_stalk hplain, hsym.1,
      if_false, List.cons_append, List.length_cons, List.length_append]
    omega

/-- Each pedicel has an `S`, swallowed or not. -/
theorem occurrences_berry (s : Shoot) :
    occurrences .berry s.word = s.joints.countP (·.branches = 0) := by
  have hplain : Plain .berry := plain_of_eq (by simp)
  induction s with
  | tip =>
    simp [word, joints, occurrences_branch, occurrences_stalk hplain, occurrences_pedicel hplain,
      Joint.branches]
  | fork _ _ _ ihf ihs =>
    simp only [word, joints, occurrences_append, occurrences_branch, occurrences_stalk hplain, ihf,
      ihs, List.cons_append, List.countP_cons, List.countP_append]
    simp [Joint.branches]

theorem occurrences_skip (s : Shoot) :
    occurrences .skip s.word = s.joints.count (.pedicel true) := by
  have hplain : Plain .skip := plain_of_eq (by simp)
  induction s with
  | tip _ first second third =>
    simp only [word, joints, occurrences_append, occurrences_branch, occurrences_stalk hplain,
      occurrences_pedicel hplain, List.count_cons, List.count_nil]
    cases first.swallowed <;> cases second.swallowed <;> cases third.swallowed <;> rfl
  | fork _ _ _ ihf ihs =>
    simp only [word, joints, occurrences_append, occurrences_branch, occurrences_stalk hplain, ihf,
      ihs, List.cons_append, List.count_cons, List.count_append]
    simp

/-- The tokens behind the segments of a shoot are, in order, those that follow its joints. -/
theorem behindDraws_word (s : Shoot) (word : List Token) :
    behindDraws (s.word ++ word) = (s.joints.map fun j => some j.follower) ++ behindDraws word := by
  have hpop : ∀ word, behindDraws (.bare .pop :: word) = behindDraws word := fun _ => rfl
  induction s generalizing word with
  | tip =>
    simp only [Shoot.word, List.append_assoc, behindDraws_stalk, behindDraws_branch,
      behindDraws_pedicel, hpop]
    rfl
  | fork _ _ _ ihf ihs =>
    rw [Shoot.word, List.append_assoc, List.append_assoc, behindDraws_stalk, behindDraws_branch,
      ihf, hpop, behindDraws_branch, ihs, hpop]
    simp only [joints, List.cons_append, List.map_cons, List.map_append, List.append_assoc]
    rfl

end Shoot

end Grapevine
