import Grapevine.Proofs.Grammar.Descent
import Grapevine.Proofs.Grammar.Lengths
import Grapevine.Proofs.Partners

/-! The main axis of the cluster in space.

The bud of the main axis is replaced by an internode and two branches, and goes on in the first of
them, behind a roll that its face tells. So in front of the bud there is one open branch for each
internode (`Climb`), and no other bud has a face. Faces come in a cycle of four, and each tells the
roll behind it and the face that is next (`LSystem.main_axis_of_expand`). -/
namespace Grapevine

open Chance Number Grammar

/-- The token rolls the turtle. -/
def Token.rolls (t : Token) : Bool :=
  match t.symbol with
  | .rollLeft | .rollRight => true
  | _ => false

theorem Token.symbol_of_rolls {t : Token} (h : t.rolls = true) :
    t.symbol = .rollLeft ∨ t.symbol = .rollRight := by
  obtain ⟨symbol, params⟩ := t
  cases symbol <;> first | exact .inl rfl | exact .inr rfl | cases h

/-- The token is a bud of the main axis. -/
def Token.onAxis (t : Token) : Bool :=
  match t.symbol with
  | .bud .root | .bud .faceC | .bud .faceV | .bud .faceB | .bud .faceN => true
  | _ => false

namespace Grammar.Tapered

variable {cfg : Config} {tag : Tag} {k m n : Nat} {l w : Float32} {front back out : List Token}
  {t : Token}

/-! ### The cycle of faces -/

/-- The faces of the main axis in turn, from its first internode on. -/
def face (n : Nat) : Tag :=
  match n % 4 with
  | 0 => .faceC
  | 1 => .faceV
  | 2 => .faceB
  | _ => .faceN

/-- How the turtle is rolled behind each of these internodes. -/
def roll (n : Nat) : List Token :=
  match n % 4 with
  | 0 => [.bare .rollLeft, .bare .rollLeft]
  | 1 => [.bare .rollLeft]
  | 2 => [.bare .rollLeft, .bare .rollLeft]
  | _ => [.bare .rollRight]

/-- A bud of this tag does what the `n`-th face does. -/
structure InTurn (tag : Tag) (n : Nat) : Prop where
  isFace : IsFace tag
  roll : faceRoll tag = roll n
  next : nextFace tag = face (n + 1)

theorem inTurn_face (n : Nat) : InTurn (face n) n := by
  obtain h | h | h | h : n % 4 = 0 ∨ n % 4 = 1 ∨ n % 4 = 2 ∨ n % 4 = 3 := by omega
  all_goals
    have hnext := Nat.add_mod n 1 4
    rw [h] at hnext
    exact ⟨by simp [face, h, IsFace], by simp [face, roll, h, faceRoll],
      by simp [face, h, hnext, nextFace]⟩

/-- The root counts as the first face. -/
theorem inTurn_root : InTurn .root 0 := ⟨.inl rfl, rfl, rfl⟩

theorem roll_rolls (n : Nat) : ∀ t ∈ roll n, t.rolls = true := by
  rw [← (inTurn_face n).roll]
  cases face n <;> simp [faceRoll, Token.rolls, Token.bare]

theorem reduced_roll (n : Nat) : Reduced (roll n) := by
  rw [← (inTurn_face n).roll]
  exact reduced_of_adjusts (adjusts_faceRoll _)

/-! ### What stands in front of the bud -/

/-- A token of an internode is no bracket, swallows nothing, does not roll, and has no face. -/
structure Smooth (t : Token) : Prop where
  plain : t.plain = true
  rolls : t.rolls = false
  onAxis : t.onAxis = false

/-- An internode stays a segment until it is drawn. -/
theorem smooth_of_derives_straight
    (h : Derives (standard .phyllotactic) cfg n [straight l w] out) : ∀ t ∈ out, Smooth t := by
  have hsegment : ∀ t ∈ [straight l w], Smooth t :=
    List.forall_mem_singleton.mpr ⟨rfl, rfl, rfl⟩
  have hstalk : ∀ t ∈ (stalk cfg 0 0 l w).word, Smooth t := by
    intro t ht
    simp only [stalk, Stalk.word, List.cons_append, List.nil_append, List.mem_cons,
      List.not_mem_nil, or_false] at ht
    rcases ht with rfl | rfl | rfl | rfl <;> exact ⟨rfl, rfl, rfl⟩
  cases n with
  | zero =>
    cases h
    exact hsegment
  | succ n =>
    obtain ⟨next, hnext, hrest⟩ := h
    have hreplace : ∀ s, (standard .phyllotactic).replace cfg (straight l w) s =
        .ok ((stalk cfg 0 0 l w).word, s) := by
      intro s
      rw [straight, replace_segment, segment_plain 0 0 l w truncate_zero]
    rw [(produces_of_replace hreplace).mp (becomes_singleton.mp hnext)] at hrest
    rwa [(derives_reduced (reduced_stalk _)).mp hrest]

/-- The axis has climbed so many internodes, of which the first has the `k`-th face: behind each of
them a branch is open, and the turtle is rolled. -/
inductive Climb : Nat → Nat → List Token → Prop where
  | nil {k : Nat} : Climb k 0 []
  | cons {k n : Nat} {internode front : List Token} (hinternode : ∀ t ∈ internode, Smooth t)
      (h : Climb (k + 1) n front) :
      Climb k (n + 1) ((internode ++ .bare .push :: roll k) ++ front)

theorem Climb.forall_mem (h : Climb k n front) :
    ∀ t ∈ front, t.symbol ≠ .pop ∧ t.symbol ≠ .skip ∧ t.onAxis = false := by
  induction h with
  | nil => exact List.forall_mem_nil _
  | @cons k n internode front hinternode _ ih =>
    refine List.forall_mem_append.mpr ⟨List.forall_mem_append.mpr ⟨fun t ht => ?_,
      List.forall_mem_cons.mpr ⟨by decide, fun t ht => ?_⟩⟩, ih⟩
    · have hplain := (hinternode t ht).plain
      refine ⟨fun heq => ?_, fun heq => ?_, (hinternode t ht).onAxis⟩ <;>
      · rw [Token.plain, heq] at hplain
        cases hplain
    · rcases Token.symbol_of_rolls (roll_rolls k t ht) with h | h <;> simp [Token.onAxis, h]

/-- Behind a roll there is no other. -/
theorem Climb.head (h : Climb k n front) (back : List Token) (ht : t.rolls = false) :
    ∃ t' rest, front ++ t :: back = t' :: rest ∧ t'.rolls = false := by
  cases h with
  | nil => exact ⟨t, back, rfl, ht⟩
  | @cons _ _ internode _ hinternode _ =>
    cases internode with
    | nil => exact ⟨_, _, rfl, rfl⟩
    | cons t' internode => exact ⟨t', _, rfl, (hinternode t' (List.mem_cons_self ..)).rolls⟩

/-- So the roll of a face ends where the climb goes on. -/
theorem Climb.takeWhile_roll (h : Climb k n front) (back : List Token) (ht : t.rolls = false)
    (j : Nat) : (roll j ++ (front ++ t :: back)).takeWhile Token.rolls = roll j := by
  obtain ⟨t', rest, hnext, ht'⟩ := h.head back ht
  rw [hnext, List.takeWhile_append_of_pos (roll_rolls j),
    List.takeWhile_cons_of_neg (ne_true_of_eq_false ht'), List.append_nil]

/-- One branch is opened behind an internode. -/
theorem getElem?_internode {internode : List Token} (h : ∀ t ∈ internode, Smooth t) (i : Nat) :
    (internode ++ .bare .push :: roll k)[i]?.map Token.symbol = some .push ↔
      i = internode.length := by
  rcases lt_trichotomy i internode.length with hlt | rfl | hgt
  · rw [List.getElem?_append_left hlt]
    refine iff_of_false (fun hpush => ?_) hlt.ne
    obtain ⟨t, ht, hsymbol⟩ := Option.map_eq_some_iff.mp hpush
    have hplain := (h t (List.mem_of_getElem? ht)).plain
    rw [Token.plain, hsymbol] at hplain
    cases hplain
  · simp [Token.bare]
  · obtain ⟨d, rfl⟩ := Nat.exists_eq_add_of_lt hgt
    refine iff_of_false (fun hpush => ?_) hgt.ne'
    rw [List.getElem?_append_right (by omega), Nat.add_assoc, Nat.add_sub_cancel_left,
      List.getElem?_cons_succ] at hpush
    obtain ⟨t, ht, hsymbol⟩ := Option.map_eq_some_iff.mp hpush
    rcases Token.symbol_of_rolls (roll_rolls k t (List.mem_of_getElem? ht)) with hroll | hroll <;>
      cases hroll.symm.trans hsymbol

/-- The branches of a climb are that of its first internode and those of the others. -/
theorem getElem?_climb {internode : List Token} (h : ∀ t ∈ internode, Smooth t)
    (front : List Token) (i : Nat) :
    ((internode ++ .bare .push :: roll k) ++ front)[i]?.map Token.symbol = some .push ↔
      i = internode.length ∨ ∃ d, i = (internode ++ .bare .push :: roll k).length + d ∧
        front[d]?.map Token.symbol = some .push := by
  have hlength : internode.length < (internode ++ .bare .push :: roll k).length := by simp
  rcases Nat.lt_or_ge i (internode ++ .bare .push :: roll k).length with hlt | hge
  · rw [List.getElem?_append_left hlt, getElem?_internode h]
    refine ⟨.inl, fun hor => hor.resolve_right ?_⟩
    rintro ⟨d, rfl, _⟩
    exact absurd hlt (Nat.not_lt.mpr (Nat.le_add_right ..))
  · obtain ⟨d, rfl⟩ := Nat.exists_eq_add_of_le hge
    rw [List.getElem?_append_right hge, Nat.add_sub_cancel_left]
    refine ⟨fun hpush => .inr ⟨d, rfl, hpush⟩, ?_⟩
    rintro (heq | ⟨d', heq, hpush⟩)
    · omega
    · rwa [Nat.add_left_cancel heq]

/-- **Where the branches are that a climb has opened**, and that each begins with its roll. -/
theorem Climb.opened (h : Climb k n front) (back : List Token) (ht : t.rolls = false) :
    ∃ opened : Nat → Nat, StrictMono opened ∧
      (∀ i, front[i]?.map Token.symbol = some .push ↔ ∃ j < n, opened j = i) ∧
      ∀ j < n, ((front ++ t :: back).drop (opened j + 1)).takeWhile Token.rolls = roll (k + j) := by
  induction h with
  | nil => exact ⟨id, strictMono_id, fun i => by simp, fun j hj => absurd hj (Nat.not_lt_zero j)⟩
  | @cons k n internode front hinternode h ih =>
    obtain ⟨opened, hmono, hopen, hroll⟩ := ih
    let first := internode ++ .bare .push :: roll k
    refine ⟨fun j => j.casesOn internode.length fun j => first.length + opened j, ?_, fun i => ?_,
      fun j hj => ?_⟩
    · refine strictMono_nat_of_lt_succ fun j => ?_
      cases j with
      | zero =>
        have hlength : internode.length < first.length := by simp [first]
        exact Nat.lt_add_right (opened 0) hlength
      | succ j => exact Nat.add_lt_add_left (hmono (Nat.lt_succ_self j)) first.length
    · rw [getElem?_climb hinternode]
      apply Iff.intro
      · rintro (rfl | ⟨d, rfl, hpush⟩)
        · exact ⟨0, Nat.succ_pos n, rfl⟩
        · obtain ⟨j, hj, rfl⟩ := (hopen d).mp hpush
          exact ⟨j + 1, Nat.succ_lt_succ hj, rfl⟩
      · rintro ⟨j, hj, rfl⟩
        cases j with
        | zero => exact .inl rfl
        | succ j => exact .inr ⟨_, rfl, (hopen _).mpr ⟨j, Nat.lt_of_succ_lt_succ hj, rfl⟩⟩
    · rw [List.append_assoc]
      cases j with
      | zero =>
        rw [List.append_assoc]
        show ((internode ++ (.bare .push :: roll k ++ (front ++ t :: back))).drop
          (internode.length + 1)).takeWhile _ = _
        rw [List.drop_length_add_append]
        exact h.takeWhile_roll back ht k
      | succ j =>
        show ((first ++ (front ++ t :: back)).drop (first.length + (opened j + 1))).takeWhile _ = _
        rw [List.drop_length_add_append, hroll j (Nat.lt_of_succ_lt_succ hj), Nat.add_right_comm,
          Nat.add_assoc]

/-! ### Off the axis -/

theorem onAxis_of_isFace (h : IsFace tag) (params : List Float32) :
    (Token.bud tag params).onAxis = true := by
  rcases h with rfl | rfl | rfl | rfl | rfl <;> rfl

theorem offAxis_of_reduced {u : List Token} (h : Reduced u) : ∀ x ∈ u, x.onAxis = false := by
  intro x hx
  have hterminal := h x hx
  obtain ⟨symbol, params⟩ := x
  cases symbol <;> first | rfl | cases hterminal

/-- What is no bud of the axis becomes none. -/
theorem offAxis_of_produces {u : List Token} (ht : t.onAxis = false)
    (h : Produces (standard .phyllotactic) cfg t u) : ∀ x ∈ u, x.onAxis = false := by
  obtain ⟨s, s', hu⟩ := h
  cases replace_eq_ok_iff.mp hu with
  | terminal => exact List.forall_mem_singleton.mpr ht
  | axis_end hface | axis_fork hface => cases (onAxis_of_isFace hface _).symm.trans ht
  | segment_plain => exact offAxis_of_reduced (reduced_stalk _)
  | segment_berry => exact offAxis_of_reduced (reduced_pedicel _)
  | secondary_end | secondary_fork | tip | pedicel =>
    simp [branch, straight, Token.onAxis, Token.bud, Token.bare]

theorem offAxis_of_derives {u : List Token} (hu : ∀ t ∈ u, t.onAxis = false)
    (h : Derives (standard .phyllotactic) cfg n u out) : ∀ x ∈ out, x.onAxis = false :=
  derives_forall (fun _ _ => offAxis_of_produces) h hu

/-! ### The climb -/

theorem axis_replace (htag : InTurn tag k) (hm : m ≤ 2 ^ 24) (hlt : 1 < m) (s : Keystream) :
    (standard .phyllotactic).replace cfg (.bud tag [Single.ofNat m, l, w]) s =
      .ok (straight l w ::
        branch (roll k ++ [.bud (face (k + 1)) [Single.ofNat (m - 1), l * cfg.axisRatio, w]]) ++
        branch [⟨.bendLeft, [cfg.lateralAngle]⟩,
          .bud .secondary [Single.ofNat cfg.secondaryDepth, l * cfg.lateralRatio, w]], s) := by
  have hdepth : Single.truncate (Single.ofNat m) = m := Single.truncate_ofNat_of_le hm
  have hpred : (m : Int) - 1 = (m - 1 : Nat) := by omega
  have hfork : 1 < Single.truncate (Single.ofNat m) := by omega
  have h := (@Replaces.axis_fork cfg tag _ l w s htag.isFace hfork).replace
  rwa [htag.roll, htag.next, hdepth, hpred, Single.ofInt_natCast] at h

/-- **The axis climbs one internode in a pass**, and hands on one less in depth. -/
theorem climb_of_derives (htag : InTurn tag k) (hm : m ≤ 2 ^ 24) (hn : n < m)
    (h : Derives (standard .phyllotactic) cfg n [.bud tag [Single.ofNat m, l, w]] out) :
    ∃ front back, Climb k n front ∧ (∀ t ∈ back, t.onAxis = false) ∧
      out = front ++ .bud (if n = 0 then tag else face (k + n))
        [Single.ofNat (m - n), scaled l cfg.axisRatio n, w] :: back := by
  induction n generalizing tag k m l out with
  | zero =>
    cases h
    exact ⟨[], [], .nil, List.forall_mem_nil _, rfl⟩
  | succ n ih =>
    obtain ⟨next, hnext, hrest⟩ := h
    rw [(produces_of_replace (axis_replace htag hm (by omega))).mp (becomes_singleton.mp hnext),
      ← List.singleton_append, List.append_assoc] at hrest
    -- The axis goes on in the first branch; the second holds the lateral, which has no face.
    obtain ⟨internode, _, rfl, hinternode, hrest⟩ := derives_append.mp hrest
    obtain ⟨_, lateral, rfl, haxis, hlateral⟩ := derives_append.mp hrest
    obtain ⟨_, rfl, hinside⟩ := derives_branch.mp haxis
    obtain ⟨above, rfl, habove⟩ := (derives_reduced_append (reduced_roll k)).mp hinside
    obtain ⟨front, back, hclimb, hback, rfl⟩ :=
      ih (inTurn_face (k + 1)) (Nat.le_trans (Nat.sub_le m 1) hm) (by omega) habove
    refine ⟨_, back ++ .bare .pop :: lateral,
      .cons (smooth_of_derives_straight hinternode) hclimb, ?_, ?_⟩
    · refine List.forall_mem_append.mpr ⟨hback, List.forall_mem_cons.mpr ⟨rfl, ?_⟩⟩
      refine offAxis_of_derives ?_ hlateral
      simp [branch, Token.onAxis, Token.bud, Token.bare]
    · have htag : (if n = 0 then face (k + 1) else face (k + 1 + n)) = face (k + (n + 1)) := by
        rw [Nat.add_right_comm, Nat.add_assoc]
        split
        · rename_i hzero
          rw [hzero]
        · rfl
      rw [htag, scaled_mul, Nat.sub_sub, Nat.add_comm 1 n, if_neg (Nat.succ_ne_zero n)]
      simp [branch]

end Grammar.Tapered

namespace LSystem

open Grammar.Tapered

/-- **The main axis walks the cycle of faces.** After `n` passes one bud is left of it: its face is
the `n`-th of the cycle, its depth is `n` less, its length was multiplied `n` times, and its width is
as it was. In front of it `n` branches are open, which begin with the rolls of the faces before. -/
theorem main_axis_of_expand {cfg : Config} {sys : LSystem} {start : Tag} {m n : Nat} {l w : Float32}
    {out : List Token} (hsys : standard cfg = .ok sys) (hspace : cfg.variant = .phyllotactic)
    (hstart : start = .faceC ∨ start = .root) (hm : m ≤ 2 ^ 24) (hn : n < m)
    (h : sys.expand [.bud start [Single.ofNat m, l, w]] n = .ok out) :
    ∃ front back,
      out = front ++ .bud (if n = 0 then start else face n)
        [Single.ofNat (m - n), scaled l cfg.axisRatio n, w] :: back ∧
      (∀ t ∈ front ++ back, t.onAxis = false) ∧
      ∃ opened : Nat → Nat, StrictMono opened ∧
        (∀ i, Unclosed front i ↔ ∃ j < n, opened j = i) ∧
        ∀ j < n, (out.drop (opened j + 1)).takeWhile Token.rolls = roll j := by
  obtain ⟨_, rfl⟩ := standard_eq_ok_iff.mp hsys
  have hturn : InTurn start 0 := by
    rcases hstart with rfl | rfl
    · exact inTurn_face 0
    · exact inTurn_root
  obtain ⟨s, hpasses⟩ := expand_eq_ok_iff.mp h
  have hderives := derives_of_passes hpasses
  rw [hspace] at hderives
  obtain ⟨front, back, hclimb, hback, rfl⟩ := climb_of_derives hturn hm hn hderives
  have hfront := hclimb.forall_mem
  obtain ⟨opened, hmono, hopen, hroll⟩ := hclimb.opened back
    (t := .bud (if n = 0 then start else face (0 + n))
      [Single.ofNat (m - n), scaled l cfg.axisRatio n, w]) rfl
  simp only [Nat.zero_add] at hroll ⊢
  refine ⟨front, back, rfl, ?_, opened, hmono, fun i => ?_, hroll⟩
  · exact List.forall_mem_append.mpr ⟨fun t ht => (hfront t ht).2.2, hback⟩
  · rw [← hopen]
    exact unclosed_iff_getElem? (fun t ht => (hfront t ht).1) fun t ht => (hfront t ht).2.1

/-- The root counts as c, and v stands behind it: the axis has come to b, at a depth of 1. -/
theorem main_axis_of_expand_root : ∃ sys out front back,
    standard .phyllotactic = .ok sys ∧
    sys.expand [.bud .root [Single.ofNat 3, 1, 1]] 2 = .ok out ∧
    out = front ++ .bud .faceB [1, 0.99 * 0.99, 1] :: back ∧
    (∀ t ∈ front ++ back, t.onAxis = false) ∧
    ∃ opened : Nat → Nat, StrictMono opened ∧
      (∀ i, Unclosed front i ↔ ∃ j < 2, opened j = i) ∧
      ∀ j < 2, (out.drop (opened j + 1)).takeWhile Token.rolls = roll j := by
  have hsys := @standard_of_valid .phyllotactic (by decide)
  have hout : LSystem.expand ⟨.phyllotactic, .standard .phyllotactic, by decide⟩
      [.bud .root [Single.ofNat 3, 1, 1]] 2 =
      .ok ([⟨.bendLeft, [0]⟩, ⟨.pitchDown, [0]⟩, ⟨.width, [0.98]⟩, ⟨.forward, [1]⟩] ++
        branch ([.bare .rollLeft, .bare .rollLeft, straight 0.99 1] ++
          branch [.bare .rollLeft, .bud .faceB [1, 0.99 * 0.99, 1]] ++
          branch [⟨.bendLeft, [60]⟩, .bud .secondary [1, 0.99 * 0.89, 1]]) ++
        branch [⟨.bendLeft, [60]⟩, .bud .tip [0.89 * 0.6, 1]]) := by decide +kernel
  have hbud : [Single.ofNat (3 - 2), scaled 1 Config.phyllotactic.axisRatio 2, 1] =
      [1, 0.99 * 0.99, 1] := by decide +kernel
  obtain ⟨front, back, hsplit, haxis, hopened⟩ :=
    main_axis_of_expand hsys rfl (.inr rfl) (by decide) (by decide) hout
  rw [hbud] at hsplit
  exact ⟨_, _, front, back, hsys, hout, hsplit, haxis, hopened⟩

end LSystem

end Grapevine
