import Mathlib
import Grapevine.Token

/-! Brackets.

A `%` that is carried out swallows the token behind it, and with it what that token would have done:
only the tokens that are left are `executed`, and only their brackets count. Neighbours `[` and `]`
cancel. However a word is cancelled, what is left over in the end are some `]` and some `[` behind
them, and always as many: that is its `excess` (`cancels_iff`). Since excesses multiply as words are
joined, the excess of a word can be found part by part. -/
namespace Grapevine

/-! ### What is carried out -/

/-- The tokens that are carried out, if the first one is to be swallowed or not. -/
def executed : Bool → List Token → List Token
  | _, [] => []
  | true, _ :: word => executed false word
  | false, t :: word => t :: executed (decide (t.symbol = .skip)) word

/-- At the end of the word a token is still to be swallowed. -/
def pending : Bool → List Token → Bool
  | skipping, [] => skipping
  | true, _ :: word => pending false word
  | false, t :: word => pending (decide (t.symbol = .skip)) word

variable {skipping : Bool}

/-- What is carried out of a second word depends on whether the first leaves a `%` pending. -/
theorem executed_append (u v : List Token) :
    executed skipping (u ++ v) = executed skipping u ++ executed (pending skipping u) v := by
  induction u generalizing skipping with
  | nil => cases skipping <;> rfl
  | cons t u ih =>
    cases skipping with
    | true => exact ih
    | false => exact congrArg (t :: ·) ih

theorem pending_append (u v : List Token) :
    pending skipping (u ++ v) = pending (pending skipping u) v := by
  induction u generalizing skipping with
  | nil => cases skipping <;> rfl
  | cons t u ih => cases skipping <;> exact ih

/-! ### Bracket words -/

inductive Bracket where
  | opening | closing
deriving DecidableEq

def Bracket.ofSymbol? : Symbol → Option Bracket
  | .push => some opening
  | .pop => some closing
  | _ => none

/-- The brackets that are carried out. -/
def brackets (skipping : Bool) (word : List Token) : List Bracket :=
  (executed skipping word).filterMap fun t => Bracket.ofSymbol? t.symbol

theorem brackets_cons (t : Token) (word : List Token) :
    brackets false (t :: word) =
      (Bracket.ofSymbol? t.symbol).toList ++ brackets (decide (t.symbol = .skip)) word := by
  rw [brackets, executed, List.filterMap_cons]
  cases Bracket.ofSymbol? t.symbol <;> rfl

theorem brackets_append (u v : List Token) :
    brackets skipping (u ++ v) = brackets skipping u ++ brackets (pending skipping u) v := by
  rw [brackets, executed_append, List.filterMap_append]
  rfl

/-- How many brackets are left over when all neighbours have cancelled. -/
@[ext] structure Excess where
  /-- Brackets that close what was never opened. -/
  closed : Nat
  /-- Brackets that are never closed. -/
  opened : Nat
deriving DecidableEq

namespace Excess

/-- What is open on the left is closed by what closes on the right, as far as that goes. -/
instance : Mul Excess :=
  ⟨fun d e => ⟨d.closed + (e.closed - d.opened), e.opened + (d.opened - e.closed)⟩⟩

instance : One Excess := ⟨⟨0, 0⟩⟩

/-- Behind one another, open brackets of the first excess close with closing ones of the second. -/
theorem mul_def (d e : Excess) :
    d * e = ⟨d.closed + (e.closed - d.opened), e.opened + (d.opened - e.closed)⟩ := rfl

theorem one_def : (1 : Excess) = ⟨0, 0⟩ := rfl

instance : Monoid Excess where
  mul_assoc d e f := by
    ext <;> simp only [mul_def] <;> omega
  one_mul d := by
    ext <;> simp only [mul_def, one_def] <;> omega
  mul_one d := by
    ext <;> simp only [mul_def, one_def] <;> omega

/-- The cancelled word of this excess. -/
def word (e : Excess) : List Bracket :=
  List.replicate e.closed .closing ++ List.replicate e.opened .opening

end Excess

namespace Bracket

def excess : Bracket → Excess
  | opening => ⟨0, 1⟩
  | closing => ⟨1, 0⟩

/-- Two neighbours cancel. -/
inductive Cancel : List Bracket → List Bracket → Prop where
  | pair (u v : List Bracket) : Cancel (u ++ opening :: closing :: v) (u ++ v)

/-- So many neighbours cancel, one pair after the other. -/
abbrev Cancels : List Bracket → List Bracket → Prop := Relation.ReflTransGen Cancel

theorem opening_mul_closing : opening.excess * closing.excess = 1 := rfl

/-- In front of what is left over, a `]` stays. -/
theorem closing_mul (c o : Nat) : closing.excess * ⟨c, o⟩ = ⟨c + 1, o⟩ := by
  ext <;> simp only [Excess.mul_def, excess] <;> omega

/-- A `[` is closed by the first `]`. -/
theorem opening_mul_succ (c o : Nat) : opening.excess * ⟨c + 1, o⟩ = ⟨c, o⟩ := by
  ext <;> simp only [Excess.mul_def, excess] <;> omega

/-- It stays if there is none. -/
theorem opening_mul_zero (o : Nat) : opening.excess * ⟨0, o⟩ = ⟨0, o + 1⟩ := rfl

end Bracket

def excess (word : List Bracket) : Excess := (word.map Bracket.excess).prod

/-- The excess of words behind one another is the product of their excesses. -/
theorem excess_append (u v : List Bracket) : excess (u ++ v) = excess u * excess v := by
  simp only [excess, List.map_append, List.prod_append]

theorem excess_cons (b : Bracket) (u : List Bracket) : excess (b :: u) = b.excess * excess u :=
  List.prod_cons

theorem excess_replicate_closing (n : Nat) : excess (List.replicate n .closing) = ⟨n, 0⟩ := by
  induction n with
  | zero => rfl
  | succ n ih =>
    rw [List.replicate_succ, excess_cons, ih, Bracket.closing_mul]

theorem excess_replicate_opening (n : Nat) : excess (List.replicate n .opening) = ⟨0, n⟩ := by
  induction n with
  | zero => rfl
  | succ n ih =>
    rw [List.replicate_succ, excess_cons, ih, Bracket.opening_mul_zero]

theorem excess_word (e : Excess) : excess e.word = e := by
  rw [Excess.word, excess_append, excess_replicate_closing, excess_replicate_opening]
  ext
  · exact Nat.add_zero _
  · exact Nat.add_zero _

/-- To cancel pairs leaves the excess as it is. -/
theorem excess_of_cancels {u v : List Bracket} (h : Bracket.Cancels u v) : excess u = excess v := by
  induction h with
  | refl => rfl
  | tail _ hstep ih =>
    obtain ⟨u, v⟩ := hstep
    rw [ih, excess_append, excess_cons, excess_cons, ← mul_assoc Bracket.opening.excess,
      Bracket.opening_mul_closing, one_mul, excess_append]

theorem Bracket.Cancels.cons {u v : List Bracket} (b : Bracket) (h : Cancels u v) :
    Cancels (b :: u) (b :: v) :=
  h.lift (b :: ·) fun _ _ hstep => by
    obtain ⟨u, v⟩ := hstep
    exact .pair (b :: u) v

theorem cancels_cons_word (b : Bracket) (e : Excess) :
    Bracket.Cancels (b :: e.word) (b.excess * e).word := by
  obtain ⟨c, o⟩ := e
  cases b with
  | closing =>
    rw [Bracket.closing_mul]
    exact .refl
  | opening =>
    cases c with
    | zero => exact .refl
    | succ c =>
      rw [Bracket.opening_mul_succ]
      exact .single (.pair [] _)

/-- Every word of brackets cancels down to its excess. -/
theorem cancels_excess (u : List Bracket) : Bracket.Cancels u (excess u).word := by
  induction u with
  | nil => exact .refl
  | cons b u ih =>
    rw [excess_cons]
    exact (ih.cons b).trans (cancels_cons_word b (excess u))

/-- **A word cancels to the one that its excess spells**, and to no other of that form. -/
theorem cancels_iff {u : List Bracket} {e : Excess} : Bracket.Cancels u e.word ↔ excess u = e := by
  apply Iff.intro
  · intro h
    rw [excess_of_cancels h, excess_word]
  · intro h
    rw [← h]
    exact cancels_excess u

/-! ### Words that leave nothing over -/

/-- The token is no bracket, and swallows nothing. -/
def Token.plain (t : Token) : Bool :=
  match t.symbol with
  | .push | .pop | .skip => false
  | _ => true

/-- Nothing is left over, and the next token is carried out, if the first one was. -/
structure Balanced (u : List Token) : Prop where
  settled : pending false u = false
  even : excess (brackets false u) = 1

/-- Nothing is left over, and the next token is carried out, whether or not the first one was. -/
structure Neutral (u : List Token) : Prop where
  settled : ∀ skipping, pending skipping u = false
  even : ∀ skipping, excess (brackets skipping u) = 1

variable {t : Token} {u v : List Token}

/-- Balanced words behind one another are balanced. -/
theorem Balanced.append (hu : Balanced u) (hv : Balanced v) : Balanced (u ++ v) where
  settled := by rw [pending_append, hu.settled, hv.settled]
  even := by rw [brackets_append, excess_append, hu.settled, hu.even, hv.even, one_mul]

theorem Neutral.append (hu : Neutral u) (hv : Balanced v) : Neutral (u ++ v) where
  settled k := by rw [pending_append, hu.settled, hv.settled]
  even k := by rw [brackets_append, excess_append, hu.settled, hu.even, hv.even, one_mul]

/-- A plain token in front may as well be swallowed. -/
theorem Balanced.behind (hu : Balanced u) (ht : t.plain = true) : Neutral (t :: u) := by
  have hskip : decide (t.symbol = .skip) = false := by
    refine decide_eq_false fun h => ?_
    rw [Token.plain, h] at ht
    cases ht
  have hbracket : Bracket.ofSymbol? t.symbol = none := by
    obtain ⟨symbol, params⟩ := t
    cases symbol <;> first | rfl | cases ht
  refine ⟨fun k => ?_, fun k => ?_⟩
  · cases k with
    | true => exact hu.settled
    | false => rw [pending, hskip, hu.settled]
  · cases k with
    | true => exact hu.even
    | false =>
      have hrest : brackets false (t :: u) = brackets (decide (t.symbol = .skip)) u :=
        List.filterMap_cons_none hbracket
      rw [hrest, hskip, hu.even]

theorem Neutral.balanced (hu : Neutral u) : Balanced u := ⟨hu.settled false, hu.even false⟩

theorem balanced_nil : Balanced [] := ⟨rfl, rfl⟩

theorem balanced_of_plain (hu : ∀ t ∈ u, t.plain = true) : Balanced u := by
  induction u with
  | nil => exact balanced_nil
  | cons t u ih =>
    rw [List.forall_mem_cons] at hu
    exact ((ih hu.2).behind hu.1).balanced

theorem neutral_of_plain (hne : u ≠ []) (hu : ∀ t ∈ u, t.plain = true) : Neutral u := by
  cases u with
  | nil => exact absurd rfl hne
  | cons t u =>
    rw [List.forall_mem_cons] at hu
    exact (balanced_of_plain hu.2).behind hu.1

/-- Whatever a `%` swallows, the two together do nothing. -/
theorem balanced_skip (t : Token) : Balanced [.bare .skip, t] := ⟨rfl, rfl⟩

end Grapevine
