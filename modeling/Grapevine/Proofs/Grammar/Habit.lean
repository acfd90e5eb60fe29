import Grapevine.Proofs.Grammar.Duration
import Grapevine.Proofs.Shoot

/-! Habits: how the two kinds of cluster grow, in one description.

Axes of either variant count down a depth, leave a lateral at each internode and end in a tip, which
fans out into pedicels. The variants differ in what a stalk is before it is drawn, in how many
passes that takes, and in where the depth of a lateral comes from. A `Habit` is what they share: the
kinds of buds of a grammar, and a law for how each is replaced.

From the laws follow, for any habit, how many passes an axis takes (`Habit.takes_axis`) and what it
has become when it is reduced (`Habit.shoot_of_axis`). Both go along the `Branching` of the axis,
the list of its laterals. -/
namespace Grapevine

open Number

namespace Grammar

/-! ### Counting down -/

/-- The depth that an axis hands on. -/
def below (depth : Int) : Int := Single.truncate (Single.ofInt (depth - 1))

/-- The depth is down to 1 after this many internodes. -/
def Descends : Nat → Int → Prop
  | 0, d => d ≤ 1
  | n + 1, d => 1 < d ∧ Descends n (below d)

/-- The laterals of an axis, from its start on, each by the number of its internodes. -/
abbrev Branching := List Nat

namespace Branching

/-- A lateral of `n` internodes has `n + 1` tips, and the axis has one of its own. -/
def tips (b : Branching) : Nat := 1 + (b.map (· + 1)).sum

def nesting : Branching → Nat
  | [] => 1
  | n :: b => max (nesting b) (n + 1) + 1

/-- An axis of this depth branches so, if laterals of its depths are as deep as `lookup` says. -/
def Follows (lookup : Int → Except Fault Nat) : Branching → Int → Prop
  | [], d => d ≤ 1
  | n :: b, d => 1 < d ∧ (∃ k, lookup d = .ok k ∧ Descends n (Single.truncate (Single.ofNat k))) ∧
      Follows lookup b (below d)

end Branching

/-- A depth counts down in one number of steps at most. -/
theorem Descends.unique {m n : Nat} {d : Int} (hm : Descends m d) (hn : Descends n d) : m = n := by
  induction m generalizing n d with
  | zero =>
    cases n with
    | zero => rfl
    | succ n => exact absurd hn.1 (Int.not_lt.mpr hm)
  | succ m ih =>
    cases n with
    | zero => exact absurd hm.1 (Int.not_lt.mpr hn)
    | succ n => exact congrArg Nat.succ (ih hm.2 hn.2)

/-- From a depth, an axis can branch in one way at most. -/
theorem Branching.Follows.unique {lookup : Int → Except Fault Nat} {b c : Branching} {d : Int}
    (hb : b.Follows lookup d) (hc : c.Follows lookup d) : b = c := by
  induction b generalizing c d with
  | nil =>
    cases c with
    | nil => rfl
    | cons n c => exact absurd hc.1 (Int.not_lt.mpr hb)
  | cons m b ih =>
    cases c with
    | nil => exact absurd hb.1 (Int.not_lt.mpr hc)
    | cons n c =>
      obtain ⟨_, ⟨k, hk, hm⟩, hb⟩ := hb
      obtain ⟨_, ⟨l, hl, hn⟩, hc⟩ := hc
      rw [hk] at hl
      cases hl
      rw [hm.unique hn, ih hb hc]

/-! ### Ways to be replaced -/

variable {g : Grammar} {cfg : Config}

/-- Replaced, without a draw, by one bud of a kind. -/
structure EndsIn (g : Grammar) (cfg : Config) (A : Token → Prop) (t : Token) : Prop where
  nonterminal : t.isNonterminal = true
  replaced : ∃ a, A a ∧ ∀ s, g.replace cfg t s = .ok ([a], s)

/-- Replaced, without a draw, by a stalk and two branches that end in a bud each. -/
structure Forks (g : Grammar) (cfg : Config) (S A B : Token → Prop) (t : Token) : Prop where
  nonterminal : t.isNonterminal = true
  replaced : ∃ st p a q b, S st ∧ A a ∧ B b ∧
    (∀ x ∈ p, x.adjusts = true) ∧ (∀ x ∈ q, x.adjusts = true) ∧
    ∀ s, g.replace cfg t s = .ok (st :: branch (p ++ [a]) ++ branch (q ++ [b]), s)

/-- Replaced, without a draw, by a stalk and three branches that end in a bud each. -/
structure Fans (g : Grammar) (cfg : Config) (S A : Token → Prop) (t : Token) : Prop where
  nonterminal : t.isNonterminal = true
  replaced : ∃ st p a q b r c, S st ∧ A a ∧ A b ∧ A c ∧
    (∀ x ∈ p, x.adjusts = true) ∧ (∀ x ∈ q, x.adjusts = true) ∧ (∀ x ∈ r, x.adjusts = true) ∧
    ∀ s, g.replace cfg t s =
      .ok (st :: branch (p ++ [a]) ++ branch (q ++ [b]) ++ branch (r ++ [c]), s)

theorem terminal_of_adjusts {t : Token} (h : t.adjusts = true) : t.isNonterminal = false := by
  obtain ⟨symbol, params⟩ := t
  cases symbol <;> first | rfl | cases h

theorem reduced_of_adjusts {u : List Token} (h : ∀ t ∈ u, t.adjusts = true) : Reduced u :=
  fun t ht => terminal_of_adjusts (h t ht)

theorem reduced_branch {u : List Token} : Reduced (branch u) ↔ Reduced u := by
  rw [branch, List.cons_append, ← List.singleton_append, reduced_append, reduced_append]
  exact ⟨fun h => h.2.1, fun h => ⟨reduced_push, h, reduced_pop⟩⟩

/-- A branch takes as long as the bud at its end. -/
theorem endsWithin_branch {n : Nat} {p : List Token} {a : Token}
    (hp : ∀ x ∈ p, x.adjusts = true) (ha : EndsWithin g cfg n a) :
    ∀ x ∈ branch (p ++ [a]), EndsWithin g cfg n x := by
  have hterminal : ∀ {u : List Token}, Reduced u → ∀ x ∈ u, EndsWithin g cfg n x :=
    fun hu x hx => endsWithin_terminal (hu x hx) n
  rw [branch, List.cons_append, ← List.singleton_append]
  refine List.forall_mem_append.mpr ⟨hterminal reduced_push, List.forall_mem_append.mpr ⟨?_,
    hterminal reduced_pop⟩⟩
  exact List.forall_mem_append.mpr ⟨hterminal (reduced_of_adjusts hp),
    List.forall_mem_singleton.mpr ha⟩

theorem mem_branch_of_mem {u : List Token} {a : Token} (h : a ∈ u) : a ∈ branch u :=
  List.mem_append_left _ (List.mem_cons_of_mem _ h)

section Kinds

variable {S A B : Token → Prop} {t : Token} {w : List Token}

/-- A token that is replaced by another takes one pass more than that one. -/
theorem EndsIn.takes {n : Nat} (h : EndsIn g cfg A t) (hA : ∀ a, A a → Takes g cfg n a) :
    Takes g cfg (n + 1) t := by
  obtain ⟨a, ha, hrep⟩ := h.replaced
  refine takes_succ h.nonterminal fun s => ⟨[a], s, hrep s, ?_, a, List.mem_singleton.mpr rfl, ?_⟩
  · exact List.forall_mem_singleton.mpr (hA a ha).ends
  · exact (hA a ha).lasts

/-- A fork takes one pass more than the longer of its branches. -/
theorem Forks.takes {e m n : Nat} (h : Forks g cfg S A B t) (hS : ∀ x, S x → Takes g cfg e x)
    (hA : ∀ x, A x → Takes g cfg m x) (hB : ∀ x, B x → Takes g cfg n x) (he : e ≤ max m n) :
    Takes g cfg (max m n + 1) t := by
  obtain ⟨st, p, a, q, b, hst, ha, hb, hp, hq, hrep⟩ := h.replaced
  refine takes_succ h.nonterminal fun s => ⟨_, s, hrep s, ?_, ?_⟩
  · refine List.forall_mem_append.mpr ⟨List.forall_mem_cons.mpr ⟨(hS st hst).ends.mono he, ?_⟩, ?_⟩
    · exact endsWithin_branch hp ((hA a ha).ends.mono (Nat.le_max_left m n))
    · exact endsWithin_branch hq ((hB b hb).ends.mono (Nat.le_max_right m n))
  · -- The slower of the two branches goes on for as long as both.
    rcases Nat.le_total n m with hle | hle
    · rw [Nat.max_eq_left hle]
      exact ⟨a, List.mem_append_left _ (List.mem_cons_of_mem _ (mem_branch_of_mem (by simp))),
        (hA a ha).lasts⟩
    · rw [Nat.max_eq_right hle]
      exact ⟨b, List.mem_append_right _ (mem_branch_of_mem (by simp)), (hB b hb).lasts⟩

/-- A fan takes one pass more than each of its three branches. -/
theorem Fans.takes {e n : Nat} (h : Fans g cfg S A t) (hS : ∀ x, S x → Takes g cfg e x)
    (hA : ∀ x, A x → Takes g cfg n x) (he : e ≤ n) : Takes g cfg (n + 1) t := by
  obtain ⟨st, p, a, q, b, r, c, hst, ha, hb, hc, hp, hq, hr, hrep⟩ := h.replaced
  refine takes_succ h.nonterminal fun s => ⟨_, s, hrep s, ?_, c, ?_, (hA c hc).lasts⟩
  · refine List.forall_mem_append.mpr ⟨List.forall_mem_append.mpr ⟨List.forall_mem_cons.mpr
      ⟨(hS st hst).ends.mono he, ?_⟩, ?_⟩, ?_⟩
    · exact endsWithin_branch hp (hA a ha).ends
    · exact endsWithin_branch hq (hA b hb).ends
    · exact endsWithin_branch hr (hA c hc).ends
  · exact List.mem_append_right _ (mem_branch_of_mem (by simp))

/-! ### What comes of them -/

theorem EndsIn.yields {n : Nat} (h : EndsIn g cfg A t) (hw : Yields g cfg n t w) :
    ∃ m a, n = m + 1 ∧ A a ∧ Yields g cfg m a w := by
  obtain ⟨m, u, hn, hu, hrest⟩ := hw.produces h.nonterminal
  obtain ⟨a, ha, hrep⟩ := h.replaced
  rw [(produces_of_replace hrep).mp hu] at hrest
  exact ⟨m, a, hn, ha, hrest, hw.reduced⟩

/-- What comes of a branch is a branch, with the same turns at its beginning. -/
theorem yields_of_derives_branch {n : Nat} {p : List Token} {a : Token}
    (hp : ∀ x ∈ p, x.adjusts = true) (h : Derives g cfg n (branch (p ++ [a])) w)
    (hred : Reduced w) : ∃ v, w = branch (p ++ v) ∧ Yields g cfg n a v := by
  obtain ⟨y, rfl, hy⟩ := derives_branch.mp h
  obtain ⟨v, rfl, hv⟩ := (derives_reduced_append (reduced_of_adjusts hp)).mp hy
  exact ⟨v, rfl, hv, (reduced_append.mp (reduced_branch.mp hred)).2⟩

/-- In the end a fork is a stalk and two branches. -/
theorem Forks.yields {n : Nat} (h : Forks g cfg S A B t) (hw : Yields g cfg n t w) :
    ∃ m st p a q b wst wa wb, n = m + 1 ∧ w = wst ++ branch (p ++ wa) ++ branch (q ++ wb) ∧
      (∀ x ∈ p, x.adjusts = true) ∧ (∀ x ∈ q, x.adjusts = true) ∧
      (S st ∧ Yields g cfg m st wst) ∧ (A a ∧ Yields g cfg m a wa) ∧ B b ∧ Yields g cfg m b wb := by
  obtain ⟨m, u, hn, hu, hrest⟩ := hw.produces h.nonterminal
  obtain ⟨st, p, a, q, b, hst, ha, hb, hp, hq, hrep⟩ := h.replaced
  rw [(produces_of_replace hrep).mp hu, ← List.singleton_append] at hrest
  obtain ⟨x, y, rfl, hx, hy⟩ := derives_append.mp hrest
  obtain ⟨wst, z, rfl, hwst, hz⟩ := derives_append.mp hx
  obtain ⟨hredx, hredy⟩ := reduced_append.mp hw.reduced
  obtain ⟨hredst, hredz⟩ := reduced_append.mp hredx
  obtain ⟨wa, rfl, hwa⟩ := yields_of_derives_branch hp hz hredz
  obtain ⟨wb, rfl, hwb⟩ := yields_of_derives_branch hq hy hredy
  exact ⟨m, st, p, a, q, b, wst, wa, wb, hn, rfl, hp, hq, ⟨hst, hwst, hredst⟩, ⟨ha, hwa⟩, hb, hwb⟩

/-- In the end a fan is a stalk and three branches. -/
theorem Fans.yields {n : Nat} (h : Fans g cfg S A t) (hw : Yields g cfg n t w) :
    ∃ m st p a q b r c wst wa wb wc, n = m + 1 ∧
      w = wst ++ branch (p ++ wa) ++ branch (q ++ wb) ++ branch (r ++ wc) ∧
      (∀ x ∈ p, x.adjusts = true) ∧ (∀ x ∈ q, x.adjusts = true) ∧ (∀ x ∈ r, x.adjusts = true) ∧
      (S st ∧ Yields g cfg m st wst) ∧ (A a ∧ Yields g cfg m a wa) ∧ (A b ∧ Yields g cfg m b wb) ∧
      A c ∧ Yields g cfg m c wc := by
  obtain ⟨m, u, hn, hu, hrest⟩ := hw.produces h.nonterminal
  obtain ⟨st, p, a, q, b, r, c, hst, ha, hb, hc, hp, hq, hr, hrep⟩ := h.replaced
  rw [(produces_of_replace hrep).mp hu, ← List.singleton_append] at hrest
  obtain ⟨x, y, rfl, hx, hy⟩ := derives_append.mp hrest
  obtain ⟨x', z, rfl, hx', hz⟩ := derives_append.mp hx
  obtain ⟨wst, z', rfl, hwst, hz'⟩ := derives_append.mp hx'
  obtain ⟨hredx, hredy⟩ := reduced_append.mp hw.reduced
  obtain ⟨hredx', hredz⟩ := reduced_append.mp hredx
  obtain ⟨hredst, hredz'⟩ := reduced_append.mp hredx'
  obtain ⟨wa, rfl, hwa⟩ := yields_of_derives_branch hp hz' hredz'
  obtain ⟨wb, rfl, hwb⟩ := yields_of_derives_branch hq hz hredz
  obtain ⟨wc, rfl, hwc⟩ := yields_of_derives_branch hr hy hredy
  exact ⟨m, st, p, a, q, b, r, c, wst, wa, wb, wc, hn, rfl, hp, hq, hr, ⟨hst, hwst, hredst⟩,
    ⟨ha, hwa⟩, ⟨hb, hwb⟩, hc, hwc⟩

end Kinds

/-! ### Habits -/

/-- The kinds of buds of a grammar, those of axes with the depth they stand at. -/
structure Habit (g : Grammar) (cfg : Config) where
  /-- How many passes it takes to draw a stalk. -/
  delay : Nat
  /-- The depth of the lateral that leaves the axis at a depth. -/
  lookup : Int → Except Fault Nat
  /-- Whether a berry may be swallowed. -/
  swallows : Bool
  IsStalk : Token → Prop
  IsPedicel : Token → Prop
  IsTip : Token → Prop
  IsLateral : Int → Token → Prop
  IsAxis : Int → Token → Prop
  stalk : ∀ {n t w}, IsStalk t → Yields g cfg n t w → ∃ s : Stalk, w = s.word
  pedicel : ∀ {n t w}, IsPedicel t → Yields g cfg n t w →
    ∃ p : Pedicel, w = p.word ∧ (p.swallowed = true → swallows = true)
  tip : ∀ {t}, IsTip t → Fans g cfg IsStalk IsPedicel t
  lateral_end : ∀ {d t}, IsLateral d t → d ≤ 1 → EndsIn g cfg IsTip t
  lateral_fork : ∀ {d t}, IsLateral d t → 1 < d → Forks g cfg IsStalk (IsLateral (below d)) IsTip t
  axis_end : ∀ {d t}, IsAxis d t → d ≤ 1 → EndsIn g cfg IsTip t
  axis_fork : ∀ {d t k}, IsAxis d t → 1 < d → lookup d = .ok k →
    Forks g cfg IsStalk (IsAxis (below d)) (IsLateral (Single.truncate (Single.ofNat k))) t
  /-- An internode without a lateral is not replaced at all. -/
  axis_lookup : ∀ {d n t w}, IsAxis d t → 1 < d → Yields g cfg n t w → ∃ k, lookup d = .ok k

namespace Habit

/-- Stalks and pedicels take as long as they should, whatever berries are drawn. -/
structure Timely (h : Habit g cfg) : Prop where
  stalk : ∀ t, h.IsStalk t → Takes g cfg h.delay t
  pedicel : ∀ t, h.IsPedicel t → Takes g cfg (h.delay + 1) t

variable {h : Habit g cfg}

/-- A tip takes two passes more than the segments of its pedicels. -/
theorem takes_tip (ht : h.Timely) {t : Token} (htip : h.IsTip t) : Takes g cfg (h.delay + 2) t :=
  (h.tip htip).takes ht.stalk ht.pedicel (Nat.le_succ _)

/-- A lateral takes a pass for each fork, one to end in a tip, and those of the tip. -/
theorem takes_lateral (ht : h.Timely) {n : Nat} {d : Int} {t : Token} (hd : Descends n d)
    (hlat : h.IsLateral d t) : Takes g cfg (h.delay + 3 + n) t := by
  induction n generalizing d t with
  | zero => exact (h.lateral_end hlat hd).takes fun _ => takes_tip ht
  | succ n ih =>
    have htakes := (h.lateral_fork hlat hd.1).takes ht.stalk (fun _ => ih hd.2)
      (fun _ => takes_tip ht) (by omega)
    rwa [Nat.max_eq_left (by omega)] at htakes

/-- **An axis takes two passes more than its brackets nest**, and the delay of a stalk. -/
theorem takes_axis (ht : h.Timely) {b : Branching} {d : Int} {t : Token}
    (hd : b.Follows h.lookup d) (hax : h.IsAxis d t) : Takes g cfg (b.nesting + 2 + h.delay) t := by
  induction b generalizing d t with
  | nil =>
    have htakes := (h.axis_end hax hd).takes fun _ => takes_tip ht
    rwa [Nat.add_assoc, Nat.add_comm] at htakes
  | cons n b ih =>
    obtain ⟨hlt, ⟨k, hk, hn⟩, hrest⟩ := hd
    have htakes := (h.axis_fork hax hlt hk).takes ht.stalk (fun _ => ih hrest)
      (fun _ => takes_lateral ht hn) (by omega)
    have hpasses : max (Branching.nesting b + 2 + h.delay) (h.delay + 3 + n) + 1 =
        Branching.nesting (n :: b) + 2 + h.delay := by
      simp only [Branching.nesting]
      omega
    rwa [hpasses] at htakes

/-! ### Shoots -/

/-- The word is that of a shoot, with berries swallowed only if the habit does so. -/
structure Grows (h : Habit g cfg) (w : List Token) (tips nesting : Nat) (s : Shoot) : Prop where
  word : w = s.word
  tips : s.tips = tips
  nesting : s.nesting = nesting
  swallowed : ∀ j ∈ s.joints, j = .pedicel true → h.swallows = true

theorem shoot_of_tip {n : Nat} {t : Token} {w : List Token} (htip : h.IsTip t)
    (hw : Yields g cfg n t w) : ∃ s, h.Grows w 1 1 s := by
  obtain ⟨m, st, p, a, q, b, r, c, wst, wa, wb, wc, _, rfl, hp, hq, hr, ⟨hst, hwst⟩, ⟨ha, hwa⟩,
    ⟨hb, hwb⟩, hc, hwc⟩ := (h.tip htip).yields hw
  obtain ⟨stalk, rfl⟩ := h.stalk hst hwst
  obtain ⟨first, rfl, hfirst⟩ := h.pedicel ha hwa
  obtain ⟨second, rfl, hsecond⟩ := h.pedicel hb hwb
  obtain ⟨third, rfl, hthird⟩ := h.pedicel hc hwc
  refine ⟨.tip stalk (first.turned p hp) (second.turned q hq) (third.turned r hr), ?_, rfl, rfl, ?_⟩
  · simp only [Shoot.word, Pedicel.word_turned]
  · simpa [Shoot.joints, Pedicel.turned] using ⟨hfirst, hsecond, hthird⟩

/-- Two shoots on a stalk have the tips of both, and nest one deeper than the deeper one. -/
theorem Grows.fork {wa wb : List Token} {a b c d : Nat} {first second : Shoot} {p q : List Token}
    (hp : ∀ x ∈ p, x.adjusts = true) (hq : ∀ x ∈ q, x.adjusts = true) (stalk : Stalk)
    (hfirst : h.Grows wa a b first) (hsecond : h.Grows wb c d second) :
    h.Grows (stalk.word ++ branch (p ++ wa) ++ branch (q ++ wb)) (a + c) (max b d + 1)
      (.fork stalk (first.turned p hp) (second.turned q hq)) := by
  refine ⟨?_, ?_, ?_, ?_⟩
  · simp only [Shoot.word, Shoot.word_turned, hfirst.word, hsecond.word]
  · simp only [Shoot.tips, Shoot.tips_turned, hfirst.tips, hsecond.tips]
  · simp only [Shoot.nesting, Shoot.nesting_turned, hfirst.nesting, hsecond.nesting]
  · have hjoint : Shoot.Joint.internode = .pedicel true → h.swallows = true := by
      intro heq
      cases heq
    simp only [Shoot.joints, Shoot.joints_turned]
    exact List.forall_mem_append.mpr
      ⟨List.forall_mem_cons.mpr ⟨hjoint, hfirst.swallowed⟩, hsecond.swallowed⟩

/-- A lateral becomes a shoot with one tip more than it has forks. -/
theorem shoot_of_lateral {n : Nat} {d : Int} {t : Token} {w : List Token} (hlat : h.IsLateral d t)
    (hw : Yields g cfg n t w) : ∃ k, Descends k d ∧ ∃ s, h.Grows w (k + 1) (k + 1) s := by
  induction n using Nat.strongRecOn generalizing d t w with
  | ind n ih =>
    rcases Int.lt_or_le 1 d with hlt | hle
    · obtain ⟨m, st, p, a, q, b, wst, wa, wb, rfl, rfl, hp, hq, ⟨hst, hwst⟩, ⟨ha, hwa⟩, hb, hwb⟩ :=
        (h.lateral_fork hlat hlt).yields hw
      obtain ⟨stalk, rfl⟩ := h.stalk hst hwst
      obtain ⟨k, hk, first, hfirst⟩ := ih m (Nat.lt_succ_self m) ha hwa
      obtain ⟨second, hsecond⟩ := shoot_of_tip hb hwb
      have hfork := hfirst.fork hp hq stalk hsecond
      rw [Nat.max_eq_left (Nat.le_add_left 1 k)] at hfork
      exact ⟨k + 1, ⟨hlt, hk⟩, _, hfork⟩
    · obtain ⟨m, a, rfl, ha, hwa⟩ := (h.lateral_end hlat hle).yields hw
      exact ⟨0, hle, shoot_of_tip ha hwa⟩

/-- **What an axis is reduced to is the word of a shoot**, whose tips and nesting are those of the
one branching that the axis can follow. -/
theorem shoot_of_axis {n : Nat} {d : Int} {t : Token} {w : List Token} (hax : h.IsAxis d t)
    (hw : Yields g cfg n t w) :
    ∃ b : Branching, b.Follows h.lookup d ∧ ∃ s, h.Grows w b.tips b.nesting s := by
  induction n using Nat.strongRecOn generalizing d t w with
  | ind n ih =>
    rcases Int.lt_or_le 1 d with hlt | hle
    · obtain ⟨k, hk⟩ := h.axis_lookup hax hlt hw
      obtain ⟨m, st, p, a, q, b, wst, wa, wb, rfl, rfl, hp, hq, ⟨hst, hwst⟩, ⟨ha, hwa⟩, hb, hwb⟩ :=
        (h.axis_fork hax hlt hk).yields hw
      obtain ⟨stalk, rfl⟩ := h.stalk hst hwst
      obtain ⟨rest, hrest, first, hfirst⟩ := ih m (Nat.lt_succ_self m) ha hwa
      obtain ⟨i, hi, second, hsecond⟩ := shoot_of_lateral hb hwb
      have hfork := hfirst.fork hp hq stalk hsecond
      have htips : Branching.tips (i :: rest) = Branching.tips rest + (i + 1) := by
        simp only [Branching.tips, List.map_cons, List.sum_cons]
        omega
      rw [← htips] at hfork
      exact ⟨i :: rest, ⟨hlt, ⟨k, hk, hi⟩, hrest⟩, _, hfork⟩
    · obtain ⟨m, a, rfl, ha, hwa⟩ := (h.axis_end hax hle).yields hw
      exact ⟨[], hle, shoot_of_tip ha hwa⟩

end Habit

end Grammar

end Grapevine
