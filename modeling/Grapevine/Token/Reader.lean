import Grapevine.Fault
import Grapevine.Text.Blank

/-! Reading a word.

Tokens follow one another with any blanks between them. Inside a token nothing may stand between
`A` and its tag, nor between a symbol and its parenthesis; a list of parameters runs to the next
closing parenthesis and is divided at commas. The first fault is the answer. -/
namespace Grapevine.Token

open Number Text

/-- A symbol that starts with the character `c`, and what follows it. -/
def readSymbol (offset : Nat) (c : Char) (rest : List Char) :
    Except TextFault (Symbol × List Char) :=
  if c = 'A' then
    match rest with
    | [] => .error (.missingTag offset)
    | t :: rest =>
      match Tag.ofChar? t with
      | some tag => .ok (.bud tag, rest)
      | none => .error (.unknownTag offset t)
  else
    match Symbol.ofChar? c with
    | some symbol => .ok (symbol, rest)
    | none => .error (.unknownSymbol offset c)

/-- One parameter: a finite number, with blanks around it. -/
def readParam (offset : Nat) (field : List Char) : Except TextFault Float32 :=
  match (Single.read? (trim field)).filter Float32.isFinite with
  | some x => .ok x
  | none => .error (.badNumber offset (String.ofList (trim field)))

/-- The parameters of a list; each field starts one byte after the end of the one before. -/
def readParams (offset : Nat) : List (List Char) → Except TextFault (List Float32)
  | [] => .ok []
  | field :: more => do
    let x ← readParam offset field
    let xs ← readParams (offset + bytes field + 1) more
    .ok (x :: xs)

/-- A list of parameters if a parenthesis is next, and what follows it with its offset. -/
def readList (offset : Nat) : List Char → Except TextFault (List Float32 × Nat × List Char)
  | '(' :: body =>
    let inside := body.takeWhile (· != ')')
    match body.dropWhile (· != ')') with
    | [] => .error (.unclosed offset)
    | _ :: rest => do
      let params ← readParams (offset + 1) (fields inside)
      .ok (params, offset + bytes inside + 2, rest)
  | rest => .ok ([], offset, rest)

/-- A token that starts with the character `c`, and what follows it with its offset. -/
def readToken (offset : Nat) (c : Char) (rest : List Char) :
    Except TextFault (Token × Nat × List Char) := do
  let (symbol, rest) ← readSymbol offset c rest
  let (params, next, rest) ← readList (offset + bytes symbol.write) rest
  .ok (⟨symbol, params⟩, next, rest)

theorem readSymbol_length {offset : Nat} {c : Char} {text rest : List Char} {symbol : Symbol}
    (h : readSymbol offset c text = .ok (symbol, rest)) : rest.length ≤ text.length := by
  unfold readSymbol at h
  split at h
  · split at h
    · simp at h
    · split at h
      · simp only [Except.ok.injEq, Prod.mk.injEq] at h
        simp [← h.2]
      · simp at h
  · split at h
    · simp only [Except.ok.injEq, Prod.mk.injEq] at h
      simp [← h.2]
    · simp at h

theorem readList_length {offset next : Nat} {text rest : List Char} {params : List Float32}
    (h : readList offset text = .ok (params, next, rest)) : rest.length ≤ text.length := by
  unfold readList at h
  split at h
  · rename_i body
    have hd := (List.dropWhile_suffix (l := body) (· != ')')).length_le
    split at h
    · simp at h
    · rename_i tail hcut
      rw [hcut] at hd
      cases hp : readParams (offset + 1) (fields (body.takeWhile (· != ')'))) with
      | error f => simp only [hp, bind, Except.bind, reduceCtorEq] at h
      | ok ps =>
        simp only [hp, bind, Except.bind, Except.ok.injEq, Prod.mk.injEq] at h
        simp only [List.length_cons] at hd ⊢
        rw [← h.2.2]
        omega
  · simp only [Except.ok.injEq, Prod.mk.injEq] at h
    simp [← h.2.2]

theorem readToken_length {offset next : Nat} {c : Char} {text rest : List Char} {token : Token}
    (h : readToken offset c text = .ok (token, next, rest)) : rest.length ≤ text.length := by
  unfold readToken at h
  cases hs : readSymbol offset c text with
  | error f => simp [hs, bind, Except.bind] at h
  | ok s =>
    obtain ⟨symbol, middle⟩ := s
    cases hl : readList (offset + bytes symbol.write) middle with
    | error f => simp [hs, hl, bind, Except.bind] at h
    | ok l =>
      obtain ⟨params, n, r⟩ := l
      simp only [hs, hl, bind, Except.bind, Except.ok.injEq, Prod.mk.injEq] at h
      rw [← h.2.2]
      exact Nat.le_trans (readList_length hl) (readSymbol_length hs)

/-- Reads a word whose first character stands at the given offset. -/
def readFrom (offset : Nat) (text : List Char) : Except TextFault (List Token) :=
  match text with
  | [] => .ok []
  | c :: rest =>
    if isBlank c then readFrom (offset + c.utf8Size) rest
    else
      match h : readToken offset c rest with
      | .error fault => .error fault
      | .ok (token, next, rest) =>
        have := readToken_length h
        (readFrom next rest).map (token :: ·)
termination_by text.length
decreasing_by all_goals simp only [List.length_cons]; omega

end Grapevine.Token

namespace Grapevine

/-- Reads a word. -/
def readWord (text : String) : Except TextFault (List Token) :=
  Token.readFrom 0 text.toList

end Grapevine
