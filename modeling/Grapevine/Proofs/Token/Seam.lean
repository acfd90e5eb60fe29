import Grapevine.Proofs.Token.Spelling

/-! Words read one after the other.

Where a text starts has no part in what is read from it, but for the offsets of its faults
(`Token.readFrom_shift`). What spells a word is read to its end if no list of parameters follows, so
that the rest is read from there as a text of its own (`readWord_append`). -/
namespace Grapevine

open Number Text

/-- The same fault, in a text that some bytes were put in front of. -/
def TextFault.shift (n : Nat) : TextFault → TextFault
  | unknownTag offset tag => unknownTag (offset + n) tag
  | missingTag offset => missingTag (offset + n)
  | unknownSymbol offset symbol => unknownSymbol (offset + n) symbol
  | unclosed offset => unclosed (offset + n)
  | badNumber offset text => badNumber (offset + n) text

theorem Text.bytes_toList (text : String) : bytes text.toList = text.utf8ByteSize := by
  have hlist : ∀ l, bytes l = String.utf8Len l := by
    intro l
    induction l with
    | nil => rfl
    | cons c l ih => rw [bytes_cons, ih, String.utf8Len_cons, Nat.add_comm]
  rw [hlist, ← String.utf8ByteSize_ofList, String.ofList_toList]

namespace Token

variable {α : Type}

/-- A part that was read, and what follows it with its offset, if some bytes were put in front. -/
def later (n : Nat) (part : Except TextFault (α × Nat × List Char)) :
    Except TextFault (α × Nat × List Char) :=
  (part.map fun (a, next, rest) => (a, next + n, rest)).mapError (.shift n)

/-- The position that reading starts from moves the faults and nothing else. -/
theorem readSymbol_shift (offset n : Nat) (c : Char) (text : List Char) :
    readSymbol (offset + n) c text = (readSymbol offset c text).mapError (.shift n) := by
  unfold readSymbol
  split
  · split
    · rfl
    · split <;> rfl
  · split <;> rfl

theorem readParam_shift (offset n : Nat) (field : List Char) :
    readParam (offset + n) field = (readParam offset field).mapError (.shift n) := by
  unfold readParam
  split <;> rfl

theorem readParams_shift (offset n : Nat) (fields : List (List Char)) :
    readParams (offset + n) fields = (readParams offset fields).mapError (.shift n) := by
  induction fields generalizing offset with
  | nil => rfl
  | cons field fields ih =>
    have hnext : offset + n + bytes field + 1 = offset + bytes field + 1 + n := by omega
    rw [readParams, readParams, readParam_shift, hnext, ih]
    cases readParam offset field with
    | error fault => rfl
    | ok x => cases readParams (offset + bytes field + 1) fields <;> rfl

theorem readList_shift (offset n : Nat) (text : List Char) :
    readList (offset + n) text = later n (readList offset text) := by
  unfold readList
  split
  · rename_i body
    split
    · rfl
    · have hparams : ∀ fields, readParams (offset + n + 1) fields =
          (readParams (offset + 1) fields).mapError (.shift n) := by
        intro fields
        rw [Nat.add_right_comm, readParams_shift]
      have hnext : ∀ inside, offset + n + bytes inside + 2 = offset + bytes inside + 2 + n := by
        omega
      simp only [hparams, hnext]
      cases readParams (offset + 1) (fields (body.takeWhile (· != ')'))) <;> rfl
  · rfl

/-- Reading a token further on ends as much further on. -/
theorem readToken_shift (offset n : Nat) (c : Char) (text : List Char) :
    readToken (offset + n) c text = later n (readToken offset c text) := by
  simp only [readToken, readSymbol_shift]
  cases readSymbol offset c text with
  | error fault => rfl
  | ok part =>
    obtain ⟨symbol, rest⟩ := part
    have hlist : readList (offset + n + bytes symbol.write) rest =
        later n (readList (offset + bytes symbol.write) rest) := by
      rw [Nat.add_right_comm, readList_shift]
    simp only [Except.mapError, bind, Except.bind, hlist]
    cases readList (offset + bytes symbol.write) rest <;> rfl

/-- **Only the offsets of faults tell where a text starts.** -/
theorem readFrom_shift (offset n : Nat) (text : List Char) :
    readFrom (offset + n) text = (readFrom offset text).mapError (.shift n) := by
  fun_induction readFrom offset text with
  | case1 =>
    rw [readFrom]
    rfl
  | case2 offset c rest hblank ih => rw [readFrom, if_pos hblank, Nat.add_right_comm, ih]
  | case3 offset c rest hblank fault htoken =>
    rw [readFrom_eq_bind (Bool.eq_false_of_not_eq_true hblank), readToken_shift, htoken]
    rfl
  | case4 offset c text hblank t next rest htoken _ ih =>
    rw [readFrom_eq_bind (Bool.eq_false_of_not_eq_true hblank), readToken_shift, htoken]
    show (readFrom (next + n) rest).map _ = _
    rw [ih]
    cases readFrom next rest <;> rfl

end Token

/-- **Words are read one after the other.** Behind a text that is read, and unless it starts with a
parenthesis, a text is read as it is on its own; if that is refused, so are both together, for the
same fault as many bytes further on as the first one has. -/
theorem readWord_append {s t : String} {u : List Token} (hs : readWord s = .ok u)
    (ht : t.toList.head? ≠ some '(') :
    (∀ v, readWord t = .ok v → readWord (s ++ t) = .ok (u ++ v)) ∧
    ∀ fault, readWord t = .error fault →
      readWord (s ++ t) = .error (fault.shift s.utf8ByteSize) := by
  have hwhole : readWord (s ++ t) =
      ((readWord t).mapError (.shift s.utf8ByteSize)).map (u ++ ·) := by
    rw [readWord, String.toList_append,
      Token.readFrom_append (Token.spells_of_readFrom hs) ht, Token.readFrom_shift, bytes_toList]
    rfl
  refine ⟨fun v hv => ?_, fun fault hfault => ?_⟩
  · rw [hwhole, hv]
    rfl
  · rw [hwhole, hfault]
    rfl

/-- A bare symbol ends the first text; blanks of two and three bytes stand in both. -/
theorem readWord_append_bare :
    readWord ("F(2)\u3000+" ++ "\u2003S") = .ok [⟨.forward, [2]⟩, .bare .bendLeft, .bare .berry] ∧
    readWord ("F(2)\u3000+" ++ "\u00a0F(1,\u2003x)") = .error (.badNumber 14 "x") := by
  have hnumbers : List.Forall₂ SpellsNumber [['2']] [2] := .cons ⟨by decide, by decide⟩ .nil
  have hspells : Spells "F(2)\u3000+".toList [⟨.forward, [2]⟩, .bare .bendLeft] :=
    .token (t := ⟨.forward, [2]⟩) (.list (List.cons_ne_nil _ _) (by decide) hnumbers)
      (.blank (by decide) (.token (t := .bare .bendLeft) .none .nil))
  have hs : readWord "F(2)\u3000+" = .ok [⟨.forward, [2]⟩, .bare .bendLeft] :=
    Token.readFrom_of_spells hspells 0
  have ht : readWord "\u2003S" = .ok [.bare .berry] :=
    Token.readFrom_of_spells (.blank (by decide) (.token (t := .bare .berry) .none .nil)) 0
  have hfault : readWord "\u00a0F(1,\u2003x)" = .error (.badNumber 6 "x") := by
    have htoken : Token.readToken 2 'F' "(1,\u2003x)".toList = .error (.badNumber 6 "x") := by
      decide
    show Token.readFrom 0 ('\u00a0' :: 'F' :: "(1,\u2003x)".toList) = _
    rw [Token.readFrom, if_pos (by decide), Token.readFrom_eq_bind (by decide)]
    exact congrArg (· >>= _) htoken
  exact ⟨(readWord_append hs (by decide)).1 _ ht, (readWord_append hs (by decide)).2 _ hfault⟩

end Grapevine
