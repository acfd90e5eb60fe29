import Grapevine.Proofs.Brackets
import Grapevine.Proofs.Shoot.Joints

/-! Brackets and their partners.

A `[` and a `]` are partners if both are carried out and the brackets between them form a Dyck word
(`Partners`). No bracket has two partners, and a `]` has one if and only if some branch is open in
front of it (`exists_partner_iff`). The brackets of a word are therefore those of the pairs and
those without a partner, which is all that is needed to count any of them. -/
namespace Grapevine

variable {word u v : List Token} {t : Token} {x : Symbol} {i i' j j' k : Nat} {b : Bracket}
  {s r : List Bracket} {skipping : Bool}

/-! ### Dyck words -/

def Bracket.step : Bracket → DyckStep
  | opening => .U
  | closing => .D

theorem Bracket.step_injective : Function.Injective step := by
  intro a b h
  cases a <;> cases b <;> first | rfl | cases h

/-- Every bracket is closed, and none before it is opened. -/
def IsDyck (s : List Bracket) : Prop := ∃ d : DyckWord, d.toList = s.map Bracket.step

/-- As many brackets as are not left over have cancelled. -/
theorem count_add_closed (s : List Bracket) :
    s.count .opening + (excess s).closed = s.count .closing + (excess s).opened := by
  induction s with
  | nil => rfl
  | cons b s ih =>
    rw [excess_cons, Excess.mul_def]
    cases b <;> simp only [List.count_cons, Bracket.excess, beq_iff_eq, reduceCtorEq, if_true,
      if_false] <;> omega

theorem closed_le_of_prefix (h : s <+: r) : (excess s).closed ≤ (excess r).closed := by
  obtain ⟨rest, rfl⟩ := h
  rw [excess_append, Excess.mul_def]
  exact Nat.le_add_right ..

/-- A word of which no front closes more than it opens leaves no `]` over. -/
theorem closed_eq_zero (h : ∀ front, front <+: s → front.count .closing ≤ front.count .opening) :
    (excess s).closed = 0 := by
  induction s using List.reverseRecOn with
  | nil => rfl
  | append_singleton s b ih =>
    have hfront := ih fun front hle => h front (hle.trans (List.prefix_append s [b]))
    have hcount := count_add_closed s
    have hwhole := h _ (List.prefix_refl _)
    rw [List.count_append, List.count_append] at hwhole
    rw [excess_append, Excess.mul_def]
    cases b with
    | opening =>
      show (excess s).closed + (0 - (excess s).opened) = 0
      omega
    | closing =>
      have hopening : [Bracket.closing].count .opening = 0 := rfl
      have hclosing : [Bracket.closing].count .closing = 1 := rfl
      show (excess s).closed + (1 - (excess s).opened) = 0
      omega

theorem count_map_step (s : List Bracket) (b : Bracket) :
    (s.map Bracket.step).count b.step = s.count b :=
  List.count_map_of_injective s Bracket.step Bracket.step_injective b

/-- A Dyck word leaves nothing over, -/
theorem IsDyck.excess_eq_one (h : IsDyck s) : excess s = 1 := by
  obtain ⟨d, hd⟩ := h
  have hclosed : (excess s).closed = 0 := by
    refine closed_eq_zero fun front hfront => ?_
    have hle := d.count_D_le_count_U front.length
    rw [hd, ← List.map_take, ← List.prefix_iff_eq_take.mp hfront] at hle
    rwa [← count_map_step front .closing, ← count_map_step front .opening]
  have heven := d.count_U_eq_count_D
  rw [hd] at heven
  have hsame : s.count .opening = s.count .closing := by
    rw [← count_map_step s .opening, ← count_map_step s .closing]
    exact heven
  have hsum := count_add_closed s
  ext
  · exact hclosed
  · show (excess s).opened = 0
    omega

/-- and what leaves nothing over is a Dyck word. -/
theorem isDyck_of_excess_eq_one (h : excess s = 1) : IsDyck s := by
  refine ⟨⟨s.map Bracket.step, ?_, fun n => ?_⟩, rfl⟩
  · have hsum := count_add_closed s
    rw [h, Excess.one_def] at hsum
    exact (count_map_step s .opening).trans (hsum.trans (count_map_step s .closing).symm)
  -- What a front closes too often stays closed too often.
  · have hle := closed_le_of_prefix (List.take_prefix n s)
    have hsum := count_add_closed (s.take n)
    have hzero : (excess s).closed = 0 := congrArg Excess.closed h
    rw [← List.map_take]
    refine (count_map_step (s.take n) .closing).trans_le
      (le_trans ?_ (count_map_step (s.take n) .opening).ge)
    omega

/-- **Dyck words are the words that leave nothing over.** -/
theorem isDyck_iff_excess : IsDyck s ↔ excess s = 1 :=
  ⟨IsDyck.excess_eq_one, isDyck_of_excess_eq_one⟩

theorem excess_opening (s : List Bracket) (hr : excess r = 1) :
    excess (s ++ .opening :: r) = ⟨(excess s).closed, (excess s).opened + 1⟩ := by
  rw [excess_append, excess_cons, hr, mul_one, Excess.mul_def]
  ext
  · show (excess s).closed + (0 - (excess s).opened) = (excess s).closed
    omega
  · show 1 + ((excess s).opened - 0) = (excess s).opened + 1
    omega

/-! ### Positions -/

/-- The token at a position is carried out, and has this symbol. -/
structure Carries (word : List Token) (i : Nat) (x : Symbol) : Prop where
  symbol : word[i]?.map Token.symbol = some x
  awake : pending false (word.take i) = false

instance (word : List Token) (i : Nat) (x : Symbol) : Decidable (Carries word i x) :=
  decidable_of_iff (word[i]?.map Token.symbol = some x ∧ pending false (word.take i) = false)
    ⟨fun h => ⟨h.1, h.2⟩, fun h => ⟨h.symbol, h.awake⟩⟩

theorem Carries.lt (h : Carries word i x) : i < word.length := by
  obtain ⟨t, ht, _⟩ := Option.map_eq_some_iff.mp h.symbol
  exact (List.getElem?_eq_some_iff.mp ht).1

theorem carries_append (h : i < u.length) : Carries (u ++ v) i x ↔ Carries u i x := by
  have hget : (u ++ v)[i]? = u[i]? := List.getElem?_append_left h
  have htake : (u ++ v).take i = u.take i := List.take_append_of_le_length h.le
  exact ⟨fun hi => ⟨hget ▸ hi.symbol, htake ▸ hi.awake⟩,
    fun hi => ⟨hget ▸ hi.symbol, htake ▸ hi.awake⟩⟩

theorem carries_length_iff :
    Carries (u ++ t :: v) u.length x ↔ t.symbol = x ∧ pending false u = false := by
  have hget : (u ++ t :: v)[u.length]? = some t := by simp
  have htake : (u ++ t :: v).take u.length = u := List.take_left
  apply Iff.intro
  · intro h
    refine ⟨?_, htake ▸ h.awake⟩
    have hsymbol := h.symbol
    rw [hget] at hsymbol
    exact Option.some.inj hsymbol
  · intro h
    exact ⟨by rw [hget, Option.map_some, h.1], by rw [htake, h.2]⟩

/-- The brackets that are carried out between two positions, if the first one is no `%`. -/
def between (word : List Token) (i j : Nat) : List Bracket :=
  brackets false ((word.take j).drop (i + 1))

theorem Carries.take_eq (h : Carries word i x) (hij : i < j) :
    ∃ t, t.symbol = x ∧ word.take j = word.take i ++ t :: (word.take j).drop (i + 1) := by
  obtain ⟨t, ht, hsymbol⟩ := Option.map_eq_some_iff.mp h.symbol
  have hget : (word.take j)[i]? = some t := by rw [List.getElem?_take_of_lt hij, ht]
  obtain ⟨hlt, hget⟩ := List.getElem?_eq_some_iff.mp hget
  refine ⟨t, hsymbol, ?_⟩
  rw [← hget, List.getElem_cons_drop hlt]
  have htake : word.take i = (word.take j).take i := by rw [List.take_take, min_eq_left hij.le]
  rw [htake, List.take_append_drop]

/-- What is carried out up to a position is divided at every bracket in front of it. -/
theorem Carries.brackets_take (h : Carries word i x) (hx : Bracket.ofSymbol? x = some b)
    (hij : i < j) :
    brackets false (word.take j) = brackets false (word.take i) ++ b :: between word i j := by
  obtain ⟨t, rfl, htake⟩ := h.take_eq hij
  have hskip : decide (t.symbol = .skip) = false := by
    refine decide_eq_false fun heq => ?_
    rw [heq] at hx
    cases hx
  have hcons := brackets_cons t ((word.take j).drop (i + 1))
  rw [hx, hskip] at hcons
  rw [htake, brackets_append, h.awake, hcons]
  rfl

theorem Carries.between_eq (hi : Carries word i .push) (hk : Carries word k x)
    (hx : Bracket.ofSymbol? x = some b) (hik : i < k) (hkj : k < j) :
    between word i j = between word i k ++ b :: between word k j := by
  have hwhole := hi.brackets_take rfl (hik.trans hkj)
  rw [hk.brackets_take hx hkj, hi.brackets_take rfl hik, List.append_assoc, List.cons_append]
    at hwhole
  exact (List.cons.inj (List.append_cancel_left hwhole)).2.symm

/-! ### Partners -/

/-- A `[` and the `]` that closes it. -/
structure Partners (word : List Token) (i j : Nat) : Prop where
  lt : i < j
  opening : Carries word i .push
  closing : Carries word j .pop
  between : IsDyck (between word i j)

/-- Between partners nothing is left over. -/
theorem Partners.excess_between (h : Partners word i j) : excess (Grapevine.between word i j) = 1 :=
  h.between.excess_eq_one

/-- A `]` closes one `[` only, -/
theorem Partners.unique_opening (h : Partners word i j) (h' : Partners word i' j) : i = i' := by
  -- The later `[` would be left over between the earlier one and the `]`.
  have hnot : ∀ {i i' : Nat}, Partners word i j → Partners word i' j → ¬ i < i' := by
    intro i i' h h' hlt
    have heven := h.excess_between
    rw [h.opening.between_eq h'.opening rfl hlt h'.lt, excess_opening _ h'.excess_between] at heven
    exact Nat.succ_ne_zero _ (congrArg Excess.opened heven)
  exact le_antisymm (not_lt.mp (hnot h' h)) (not_lt.mp (hnot h h'))

/-- and a `[` is closed by one `]` only. -/
theorem Partners.unique_closing (h : Partners word i j) (h' : Partners word i j') : j = j' := by
  have hnot : ∀ {j j' : Nat}, Partners word i j → Partners word i j' → ¬ j < j' := by
    intro j j' h h' hlt
    have heven := h'.excess_between
    rw [h.opening.between_eq h.closing rfl h.lt hlt, excess_append, h.excess_between, one_mul,
      excess_cons, Bracket.closing_mul] at heven
    exact Nat.succ_ne_zero _ (congrArg Excess.closed heven)
  exact le_antisymm (not_lt.mp (hnot h' h)) (not_lt.mp (hnot h h'))

/-- Where branches are left open, there is one that was opened last. -/
theorem exists_last_open (h : 0 < (excess (brackets skipping u)).opened) :
    ∃ front t back, u = front ++ t :: back ∧ pending skipping front = false ∧
      t.symbol = .push ∧ excess (brackets false back) = 1 := by
  induction u generalizing skipping with
  | nil => cases skipping <;> exact absurd h (Nat.lt_irrefl 0)
  | cons t u ih =>
    cases skipping with
    | true =>
      obtain ⟨front, t', back, rfl, hpending, ht', hback⟩ := @ih false h
      exact ⟨t :: front, t', back, rfl, hpending, ht', hback⟩
    | false =>
      by_cases hrest : 0 < (excess (brackets (decide (t.symbol = .skip)) u)).opened
      · obtain ⟨front, t', back, rfl, hpending, ht', hback⟩ := ih hrest
        exact ⟨t :: front, t', back, rfl, hpending, ht', hback⟩
      -- If none is left open behind the first token, it is this one that is.
      · rw [brackets_cons, excess_append, Excess.mul_def] at h
        have hopened : (excess (brackets (decide (t.symbol = .skip)) u)).opened = 0 := by omega
        dsimp only at h
        rw [hopened] at h
        cases hsymbol : t.symbol with
        | push =>
          rw [hsymbol] at h hopened
          refine ⟨[], t, u, rfl, rfl, hsymbol, ?_⟩
          have hclosed : 0 < 0 + (1 - (excess (brackets false u)).closed) := h
          ext
          · show (excess (brackets false u)).closed = 0
            omega
          · exact hopened
        | _ =>
          rw [hsymbol] at h
          have hnone : 0 < 0 + (0 - (excess (brackets _ u)).closed) := h
          omega

/-- **A `]` has a partner if and only if a branch is open in front of it.** -/
theorem exists_partner_iff (hj : Carries word j .pop) :
    (∃ i, Partners word i j) ↔ 0 < (excess (brackets false (word.take j))).opened := by
  apply Iff.intro
  · rintro ⟨i, h⟩
    rw [h.opening.brackets_take rfl h.lt, excess_opening _ h.excess_between]
    exact Nat.succ_pos _
  · intro h
    obtain ⟨front, t, back, htake, hpending, ht, hback⟩ := exists_last_open h
    have hlength : (word.take j).length = j := List.length_take_of_le hj.lt.le
    have hlt : front.length < j := by
      rw [← hlength, htake, List.length_append, List.length_cons]
      omega
    have hopening : Carries (word.take j ++ word.drop j) front.length .push := by
      rw [htake, List.append_assoc]
      exact carries_length_iff.mpr ⟨ht, hpending⟩
    rw [List.take_append_drop] at hopening
    refine ⟨front.length, hlt, hopening, hj, isDyck_of_excess_eq_one ?_⟩
    rw [between, htake, List.drop_append, List.drop_eq_nil_of_le (Nat.le_succ _)]
    simpa using hback

/-! ### Counting brackets -/

def pairs (word : List Token) : Set (Nat × Nat) := {p | Partners word p.1 p.2}

/-- A `[` without a partner. -/
def Unclosed (word : List Token) (i : Nat) : Prop :=
  Carries word i .push ∧ ∀ j, ¬ Partners word i j

theorem pending_of_no_skip (h : ∀ t ∈ word, t.symbol ≠ .skip) : pending false word = false := by
  induction word with
  | nil => rfl
  | cons t word ih =>
    obtain ⟨ht, hword⟩ := List.forall_mem_cons.mp h
    rw [pending, decide_eq_false ht]
    exact ih hword

/-- Where nothing is closed and nothing swallowed, every `[` is left open. -/
theorem unclosed_iff_getElem? (hpop : ∀ t ∈ word, t.symbol ≠ .pop)
    (hskip : ∀ t ∈ word, t.symbol ≠ .skip) :
    Unclosed word i ↔ word[i]?.map Token.symbol = some .push := by
  refine ⟨fun h => h.1.symbol, fun h => ⟨⟨h, ?_⟩, fun j hj => ?_⟩⟩
  · exact pending_of_no_skip fun t ht => hskip t (List.mem_of_mem_take ht)
  · obtain ⟨t, ht, hsymbol⟩ := Option.map_eq_some_iff.mp hj.closing.symbol
    exact hpop t (List.mem_of_getElem? ht) hsymbol

/-- A `]` without a partner. -/
def Unopened (word : List Token) (j : Nat) : Prop :=
  Carries word j .pop ∧ ∀ i, ¬ Partners word i j

/-- A `]` has no partner if no bracket in front of it is open. -/
theorem unopened_iff : Unopened word j ↔
    Carries word j .pop ∧ (excess (brackets false (word.take j))).opened = 0 := by
  refine and_congr_right fun hj => ?_
  rw [← not_exists, exists_partner_iff hj]
  exact Nat.pos_iff_ne_zero.not.trans not_not

instance (word : List Token) (j : Nat) : Decidable (Unopened word j) :=
  decidable_of_iff _ unopened_iff.symm

theorem unopened_append (h : j < u.length) : Unopened (u ++ v) j ↔ Unopened u j := by
  rw [unopened_iff, unopened_iff, carries_append h, List.take_append_of_le_length h.le]

theorem unopened_length_iff : Unopened (u ++ t :: v) u.length ↔
    (t.symbol = .pop ∧ pending false u = false) ∧ (excess (brackets false u)).opened = 0 := by
  rw [unopened_iff, carries_length_iff, List.take_left]

theorem occurrences_executed_append_singleton : Token.occurrences x (executed false (u ++ [t])) =
    Token.occurrences x (executed false u) +
      if t.symbol = x ∧ pending false u = false then 1 else 0 := by
  rw [executed_append, Token.occurrences_append]
  cases pending false u <;> simp [executed]

theorem encard_carries (word : List Token) (x : Symbol) :
    {i | Carries word i x}.encard = Token.occurrences x (executed false word) := by
  induction word using List.reverseRecOn with
  | nil =>
    rw [Set.encard_eq_zero.mpr (Set.eq_empty_of_forall_notMem fun i h => absurd h.lt (by simp))]
    rfl
  | append_singleton u t ih =>
    have hbefore : ∀ i, i ≠ u.length → (Carries (u ++ [t]) i x ↔ Carries u i x) := by
      intro i hne
      refine ⟨fun h => (carries_append ?_).mp h, fun h => (carries_append h.lt).mpr h⟩
      have hlt := h.lt
      rw [List.length_append, List.length_singleton] at hlt
      omega
    have hnew : u.length ∉ {i | Carries u i x} := fun h => absurd h.lt (Nat.lt_irrefl _)
    rw [occurrences_executed_append_singleton]
    by_cases hlast : t.symbol = x ∧ pending false u = false
    · have hset : {i | Carries (u ++ [t]) i x} = insert u.length {i | Carries u i x} := by
        ext i
        by_cases hi : i = u.length
        · subst hi
          simpa using carries_length_iff.mpr hlast
        · simpa [hi] using hbefore i hi
      rw [hset, Set.encard_insert_of_notMem hnew, ih, if_pos hlast]
      rfl
    · have hset : {i | Carries (u ++ [t]) i x} = {i | Carries u i x} := by
        ext i
        by_cases hi : i = u.length
        · subst hi
          exact iff_of_false (fun h => hlast (carries_length_iff.mp h)) hnew
        · exact hbefore i hi
      rw [hset, ih, if_neg hlast]
      rfl

/-- If every pair has a token of a symbol, such tokens are those of the pairs and those of none. -/
theorem encard_pairs_add {f : Nat × Nat → Nat} (hinj : Set.InjOn f (pairs word))
    (hf : ∀ p ∈ pairs word, Carries word (f p) x) :
    (pairs word).encard + {i | Carries word i x ∧ ∀ p ∈ pairs word, f p ≠ i}.encard =
      Token.occurrences x (executed false word) := by
  rw [← encard_carries, ← hinj.encard_image, ← Set.encard_union_eq]
  · congr 1
    ext i
    apply Iff.intro
    · rintro (⟨p, hp, rfl⟩ | hi)
      · exact hf p hp
      · exact hi.1
    · intro hi
      by_cases hpair : ∃ p ∈ pairs word, f p = i
      · exact .inl hpair
      · exact .inr ⟨hi, fun p hp heq => hpair ⟨p, hp, heq⟩⟩
  · rw [Set.disjoint_left]
    rintro _ ⟨p, hp, rfl⟩ hi
    exact hi.2 p hp rfl

/-- Every `[` that is carried out has a partner or is left open. -/
theorem encard_pairs_add_unclosed (word : List Token) :
    (pairs word).encard + {i | Unclosed word i}.encard =
      Token.occurrences .push (executed false word) := by
  have hinj : Set.InjOn Prod.fst (pairs word) := fun p hp q hq heq =>
    Prod.ext heq (Partners.unique_closing hp (by rw [heq]; exact hq))
  have hset : {i | Unclosed word i} = {i | Carries word i .push ∧ ∀ p ∈ pairs word, p.1 ≠ i} := by
    ext i
    refine and_congr_right fun _ => ⟨fun h p hp heq => h p.2 (heq ▸ hp), fun h j hj => ?_⟩
    exact h (i, j) hj rfl
  rw [hset, encard_pairs_add hinj fun p hp => hp.opening]

/-- Every `]` that is carried out has a partner or is noted. -/
theorem encard_pairs_add_unopened (word : List Token) :
    (pairs word).encard + {j | Unopened word j}.encard =
      Token.occurrences .pop (executed false word) := by
  have hinj : Set.InjOn Prod.snd (pairs word) := fun p hp q hq heq =>
    Prod.ext (Partners.unique_opening hp (by rw [heq]; exact hq)) heq
  have hset : {j | Unopened word j} = {j | Carries word j .pop ∧ ∀ p ∈ pairs word, p.2 ≠ j} := by
    ext j
    refine and_congr_right fun _ => ⟨fun h p hp heq => h p.1 (heq ▸ hp), fun h i hi => ?_⟩
    exact h (i, j) hi rfl
  rw [hset, encard_pairs_add hinj fun p hp => hp.closing]

end Grapevine
