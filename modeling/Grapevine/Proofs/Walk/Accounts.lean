import Grapevine.Proofs.Partners
import Grapevine.Proofs.Walk.Stack

/-! What a walk tells of the brackets.

The brackets that are carried out have partners or not, which is a matter of the word alone. A walk
reports just that: it notes every `]` without a partner and no other, counts the branches that stay
open, and makes an event of each bracket that opens a branch or closes one (`accounts_of_walk`). -/
namespace Grapevine

def Bracket.symbol : Bracket → Symbol
  | opening => .push
  | closing => .pop

theorem Bracket.ofSymbol?_eq_some_iff {x : Symbol} {b : Bracket} :
    ofSymbol? x = some b ↔ x = b.symbol := by
  cases x <;> cases b <;> simp [ofSymbol?, symbol]

theorem count_brackets (skipping : Bool) (word : List Token) (b : Bracket) :
    (brackets skipping word).count b = Token.occurrences b.symbol (executed skipping word) := by
  rw [brackets, List.count, List.countP_filterMap, Token.occurrences]
  congr 1
  funext t
  rw [Bool.eq_iff_iff, decide_eq_true_iff, ← Bracket.ofSymbol?_eq_some_iff]
  cases Bracket.ofSymbol? t.symbol <;> simp

/-- A duplicate-free list has as many entries as there are things in it. -/
theorem encard_of_nodup {s : Set Nat} {l : List Nat} (hl : l.Nodup) (hs : ∀ i, i ∈ l ↔ i ∈ s) :
    s.encard = l.length := by
  have hset : s = (l.toFinset : Set Nat) := by
    ext i
    rw [Finset.mem_coe, List.mem_toFinset, hs]
  rw [hset, Set.encard_coe_eq_coe_finsetCard, List.toFinset_card_of_nodup hl]

namespace Turtle

/-- The event of a `[`. -/
def Event.opens : Event → Bool
  | branchOpen _ => true
  | _ => false

/-- The event of a `]` that had a cursor to go back to. -/
def Event.closes : Event → Bool
  | branchClose _ => true
  | _ => false

namespace Walk

variable {cfg : Config} {w w' : Walk} {t : Token} {word : List Token} {i : Nat}

/-! ### Noted brackets -/

theorem Run.length_saved_eq (h : Run cfg (start cfg) word w) :
    w.saved.length = (excess (brackets false word)).opened :=
  h.unwinds.length_saved.trans (congrArg (_ + ·) (Nat.zero_sub _))

theorem turn?_of_pop (ht : t.symbol = .pop) : turn? cfg t = none := by
  rw [turn?, ht]
  rfl

theorem Step.mem_unmatched_iff (h : Step cfg w t w') : i ∈ w'.unmatched ↔
    i ∈ w.unmatched ∨ i = w.index ∧ (t.symbol = .pop ∧ w.skipping = false) ∧ w.saved = [] := by
  cases h with
  | unmatched hawake ht hsaved => simp [advance, Array.mem_push, hawake, ht, hsaved]
  | swallowed hskip => simp [advance, hskip]
  | restored _ _ hsaved => simp [advance, hsaved]
  | turned _ ht =>
    refine (or_iff_left fun h => ?_).symm
    rw [turn?_of_pop h.2.1.1] at ht
    cases ht
  | hung _ ht | drawn _ ht | widened _ ht | saved _ ht | skipped _ ht =>
    refine (or_iff_left fun h => ?_).symm
    rw [h.2.1.1] at ht
    cases ht

/-- **What is noted has no partner**, and everything without one is noted. -/
theorem Run.mem_unmatched_iff (h : Run cfg (start cfg) word w) :
    i ∈ w.unmatched ↔ Unopened word i := by
  induction word using List.reverseRecOn generalizing w i with
  | nil =>
    cases h
    exact iff_of_false (Array.not_mem_empty i) fun hi => absurd hi.1.lt (Nat.not_lt_zero i)
  | append_singleton word t ih =>
    obtain ⟨v, hrun, hstep⟩ := run_append_iff.mp h
    cases hstep with
    | cons ht hnil =>
      cases hnil
      have hindex : v.index = word.length := hrun.index_eq_length
      have hskipping : v.skipping = pending false word := hrun.skipping
      have hsaved : v.saved = [] ↔ (excess (brackets false word)).opened = 0 := by
        rw [← hrun.length_saved_eq, List.length_eq_zero_iff]
      rw [ht.mem_unmatched_iff, ih hrun, hindex, hskipping, hsaved]
      rcases Nat.lt_trichotomy i word.length with hlt | rfl | hlt
      · rw [unopened_append hlt]
        exact or_iff_left fun hi => absurd hi.1 hlt.ne
      · rw [unopened_length_iff]
        refine (or_iff_right fun hi => absurd hi.1.lt (Nat.lt_irrefl _)).trans ?_
        exact and_iff_right rfl
      · refine iff_of_false ?_ fun hi => ?_
        · rintro (hi | ⟨rfl, _⟩)
          · exact absurd hi.1.lt hlt.asymm
          · exact absurd hlt (Nat.lt_irrefl _)
        · have hlen := hi.1.lt
          rw [List.length_append, List.length_singleton] at hlen
          omega

theorem Step.pairwise_unmatched (h : Step cfg w t w') (hlt : ∀ i ∈ w.unmatched, i < w.index)
    (hw : w.unmatched.Pairwise (· < ·)) : w'.unmatched.Pairwise (· < ·) := by
  cases h with
  | unmatched => exact Array.pairwise_push.mpr ⟨hw, hlt⟩
  | _ => exact hw

/-- Brackets are noted in the order of the word. -/
theorem Run.pairwise_unmatched (h : Run cfg (start cfg) word w) :
    w.unmatched.Pairwise (· < ·) := by
  refine (h.keeps (P := fun w => (∀ i ∈ w.unmatched, i < w.index) ∧
    w.unmatched.Pairwise (· < ·)) (fun ht hw => ?_) ⟨?_, Array.pairwise_empty⟩).2
  · exact ⟨ht.unmatched_lt hw.1, ht.pairwise_unmatched hw.1 hw.2⟩
  · exact fun i hi => absurd hi (Array.not_mem_empty i)

/-! ### Events of brackets -/

theorem Step.countP_opens (h : Step cfg w t w') : w'.events.countP Event.opens =
    w.events.countP Event.opens + Token.occurrences .push (executed w.skipping [t]) := by
  cases h with
  | swallowed hskip =>
    rw [hskip]
    rfl
  | saved hawake ht | drawn hawake ht | hung hawake ht | restored hawake ht =>
    rw [occurrences_awake hawake, ht]
    exact Array.countP_push
  | turned hawake ht =>
    rw [occurrences_awake hawake, if_neg (Token.plain_of_eq (by simp) t (adjusts_of_turn? ht))]
    exact Array.countP_push
  | widened hawake ht | unmatched hawake ht | skipped hawake ht =>
    rw [occurrences_awake hawake, ht]
    rfl

/-- A `]` closes a branch or is noted. -/
theorem Step.countP_closes (h : Step cfg w t w') :
    w'.events.countP Event.closes + w'.unmatched.size =
      w.events.countP Event.closes + w.unmatched.size +
        Token.occurrences .pop (executed w.skipping [t]) := by
  cases h with
  | swallowed hskip =>
    rw [hskip]
    rfl
  | saved hawake ht | drawn hawake ht | hung hawake ht =>
    rw [occurrences_awake hawake, ht]
    exact congrArg (· + w.unmatched.size) Array.countP_push
  | restored hawake ht =>
    rw [occurrences_awake hawake, ht, Nat.add_right_comm]
    exact congrArg (· + w.unmatched.size) Array.countP_push
  | unmatched hawake ht =>
    rw [occurrences_awake hawake, ht]
    exact congrArg (w.events.countP Event.closes + ·) (Array.size_push _)
  | turned hawake ht =>
    rw [occurrences_awake hawake, if_neg (Token.plain_of_eq (by simp) t (adjusts_of_turn? ht))]
    exact congrArg (· + w.unmatched.size) Array.countP_push
  | widened hawake ht | skipped hawake ht =>
    rw [occurrences_awake hawake, ht]
    rfl

/-- A branch that was opened is closed or still open. -/
theorem Step.saved_add_closes (h : Step cfg w t w')
    (hw : w.saved.length + w.events.countP Event.closes = w.events.countP Event.opens) :
    w'.saved.length + w'.events.countP Event.closes = w'.events.countP Event.opens := by
  cases h with
  | saved =>
    simp only [advance, List.length_cons, Array.countP_push, Event.opens, Event.closes, ← hw]
    simp only [Bool.false_eq_true, if_true, if_false]
    omega
  | restored _ _ hsaved =>
    rw [hsaved] at hw
    simp only [advance, Array.countP_push, Event.opens, Event.closes, ← hw]
    simp only [Bool.false_eq_true, if_true, if_false, List.length_cons]
    omega
  | drawn | hung | turned =>
    simp only [advance, draw, hang, turn, Array.countP_push, Event.opens, Event.closes]
    exact hw
  | swallowed | widened | unmatched | skipped => exact hw

theorem Run.countP_opens (h : Run cfg (start cfg) word w) :
    w.events.countP Event.opens = Token.occurrences .push (executed false word) :=
  (h.counts (P := fun _ => True) (f := fun w => w.events.countP Event.opens)
    (fun ht _ => ⟨trivial, ht.countP_opens⟩) trivial).trans (Nat.zero_add _)

theorem Run.countP_closes (h : Run cfg (start cfg) word w) :
    w.events.countP Event.closes + w.unmatched.size =
      Token.occurrences .pop (executed false word) :=
  (h.counts (P := fun _ => True) (f := fun w => w.events.countP Event.closes + w.unmatched.size)
    (fun ht _ => ⟨trivial, ht.countP_closes⟩) trivial).trans (Nat.zero_add _)

theorem Run.saved_add_closes (h : Run cfg (start cfg) word w) :
    w.saved.length + w.events.countP Event.closes = w.events.countP Event.opens :=
  h.keeps (P := fun w =>
    w.saved.length + w.events.countP Event.closes = w.events.countP Event.opens)
    Step.saved_add_closes rfl

/-! ### Counts -/

theorem Run.encard_unopened (h : Run cfg (start cfg) word w) :
    {j | Unopened word j}.encard = w.unmatched.size := by
  have hnodup : w.unmatched.toList.Nodup := h.pairwise_unmatched.imp fun hlt => hlt.ne
  exact encard_of_nodup hnodup fun i => Array.mem_toList_iff.trans h.mem_unmatched_iff

/-- As many branches are closed as there are pairs, -/
theorem Run.encard_pairs (h : Run cfg (start cfg) word w) :
    (pairs word).encard = w.events.countP Event.closes := by
  have hsum := encard_pairs_add_unopened word
  rw [h.encard_unopened, ← h.countP_closes, ENat.natCast_add] at hsum
  exact ENat.add_left_injective_of_ne_top (ENat.natCast_ne_top _) hsum

/-- and as many stay open as there are `[` without a partner. -/
theorem Run.encard_unclosed (h : Run cfg (start cfg) word w) :
    {i | Unclosed word i}.encard = w.saved.length := by
  have hsum := encard_pairs_add_unclosed word
  rw [h.encard_pairs, ← h.countP_opens, ← h.saved_add_closes, ENat.natCast_add, add_comm] at hsum
  exact ENat.add_left_injective_of_ne_top (ENat.natCast_ne_top _) hsum

/-- The brackets left over are those that are noted and those that stay open. -/
theorem Run.excess_eq (h : Run cfg (start cfg) word w) :
    excess (brackets false word) = ⟨w.unmatched.size, w.saved.length⟩ := by
  have hopened := h.length_saved_eq
  have hpush : (brackets false word).count .opening = w.events.countP Event.opens :=
    (count_brackets false word .opening).trans h.countP_opens.symm
  have hpop : (brackets false word).count .closing =
      w.events.countP Event.closes + w.unmatched.size :=
    (count_brackets false word .closing).trans h.countP_closes.symm
  have hsum := count_add_closed (brackets false word)
  have hclosed := h.saved_add_closes
  ext
  · show (excess (brackets false word)).closed = w.unmatched.size
    omega
  · exact hopened.symm

end Walk

theorem isBalanced_iff {trail : Trail} :
    trail.isBalanced = true ↔ trail.unmatched.size = 0 ∧ trail.openBranches = 0 := by
  rw [Trail.isBalanced, Bool.and_eq_true, Array.isEmpty_iff_size_eq_zero, beq_iff_eq]

/-- **A walk accounts for the brackets that it carries out.** It notes those `]` that have no
partner, in their order, and leaves as many branches open as there are `[` without one. Each `[` is
an event, and so is the `]` of each pair; and nothing is left over if and only if the brackets form
a Dyck word. -/
theorem accounts_of_walk {cfg : Config} {word : List Token} {trail : Trail}
    (h : walk cfg word = .ok trail) :
    (trail.unmatched.Pairwise (· < ·) ∧ ∀ j, j ∈ trail.unmatched ↔
      Carries word j .pop ∧ ∀ i, ¬ Partners word i j) ∧
    trail.openBranches = {i | Carries word i .push ∧ ∀ j, ¬ Partners word i j}.encard ∧
    trail.events.countP Event.opens = {i | Carries word i .push}.encard ∧
    trail.events.countP Event.closes = {p : Nat × Nat | Partners word p.1 p.2}.encard ∧
    (trail.isBalanced = true ↔ IsDyck (brackets false word)) := by
  obtain ⟨w, hrun, rfl⟩ := Walk.walk_eq_ok_iff.mp h
  refine ⟨⟨hrun.pairwise_unmatched, fun _ => hrun.mem_unmatched_iff⟩, hrun.encard_unclosed.symm,
    ?_, hrun.encard_pairs.symm, ?_⟩
  · rw [encard_carries, ← hrun.countP_opens]
    rfl
  · rw [isBalanced_iff, isDyck_iff_excess, hrun.excess_eq, Excess.ext_iff]
    rfl

/-- A pair around a swallowed `[`, between brackets without a partner. -/
theorem accounts_of_walk_stray : ∃ word,
    word = [.bare .pop, .bare .push, .bare .skip, .bare .push, .bare .pop, .bare .pop,
      .bare .push] ∧
    walk {} word = .ok
      { events := #[.branchOpen 1, .branchClose 0, .branchOpen 1]
        skeleton := .ofRoot .zero .halfTurnX 0.1
        unmatched := #[0, 5]
        openBranches := 1 } ∧
    (∀ j, Unopened word j ↔ j = 0 ∨ j = 5) ∧ {i | Unclosed word i}.encard = 1 ∧
    {i | Carries word i .push}.encard = 2 ∧ (pairs word).encard = 1 ∧
    ¬ IsDyck (brackets false word) := by
  have hwalk : walk {} [.bare .pop, .bare .push, .bare .skip, .bare .push, .bare .pop, .bare .pop,
      .bare .push] = .ok
        { events := #[.branchOpen 1, .branchClose 0, .branchOpen 1]
          skeleton := .ofRoot .zero .halfTurnX 0.1
          unmatched := #[0, 5]
          openBranches := 1 } := rfl
  obtain ⟨⟨_, hunopened⟩, hunclosed, hopens, hcloses, hdyck⟩ := accounts_of_walk hwalk
  refine ⟨_, rfl, hwalk, fun j => ?_, hunclosed.symm, hopens.symm, hcloses.symm, fun h => ?_⟩
  · exact (hunopened j).symm.trans (by simp)
  · cases hdyck.mpr h

end Turtle
end Grapevine
