import Grapevine.Proofs.Number.Text
import Grapevine.Token.Reader

/-! Written words read back.

A written number has no blank, comma or parenthesis in it, so that a list of them is taken apart
where it was put together, and a token ends where the next one starts: no symbol is written with an
opening parenthesis in front. A word of finite numbers is therefore read as it was written, and as
what is read has finite numbers only, whatever was read once is read again from its written form
(`readWord_writeWord`). -/
namespace Grapevine

open Number

/-! ### Parts of text -/

namespace Text

variable {field rest text : List Char}

theorem fields_of_not_mem (h : ',' ∉ field) : fields field = [field] := by
  induction field with
  | nil => rfl
  | cons c field ih =>
    rw [List.mem_cons, not_or] at h
    rw [fields, ih h.2]
    exact fun heq => h.1 heq.symm

/-- A comma ends a field that has none inside. -/
theorem fields_append (h : ',' ∉ field) :
    fields (field ++ ',' :: rest) = field :: fields rest := by
  induction field with
  | nil => rfl
  | cons c field ih =>
    rw [List.mem_cons, not_or] at h
    rw [List.cons_append, fields, ih h.2]
    exact fun heq => h.1 heq.symm

theorem trim_of_forall (h : ∀ c ∈ text, isBlank c = false) : trim text = text := by
  have hdrop : ∀ {l : List Char}, (∀ c ∈ l, isBlank c = false) → l.dropWhile isBlank = l := by
    intro l hl
    cases l with
    | nil => rfl
    | cons c l => exact List.dropWhile_cons_of_neg (by rw [hl c (List.mem_cons_self ..)]; decide)
  rw [trim, hdrop h, hdrop fun c hc => h c (List.mem_reverse.mp hc), List.reverse_reverse]

/-- The character is neither blank, nor does it end or divide a list of parameters. -/
structure Inner (c : Char) : Prop where
  isBlank : isBlank c = false
  ne_comma : c ≠ ','
  ne_close : c ≠ ')'

theorem inner_of_isDigit {c : Char} (hc : c.isDigit = true) : Inner c := by
  have hrange : 48 ≤ c.toNat ∧ c.toNat ≤ 57 := by
    simp only [Char.isDigit, Bool.and_eq_true, decide_eq_true_eq] at hc
    exact hc
  refine ⟨?_, ?_, ?_⟩
  · simp only [isBlank]
    simp
    omega
  · intro heq
    subst heq
    cases hc
  · intro heq
    subst heq
    cases hc

end Text

namespace Token

open Text

variable {x : Float32} {params : List Float32} {offset : Nat} {rest : List Char} {t : Token}

theorem inner_of_mem_write {c : Char} (hx : x.isFinite = true) (hc : c ∈ Single.write x) :
    Inner c := by
  rcases Single.mem_write hx hc with hdigit | rfl | rfl
  · exact inner_of_isDigit hdigit
  · exact ⟨by decide, by decide, by decide⟩
  · exact ⟨by decide, by decide, by decide⟩

/-- All the numbers of the token are finite. -/
def IsFinite (t : Token) : Prop := ∀ x ∈ t.params, x.isFinite = true

/-! ### Lists of parameters -/

/-- A finite number is read back from its text. -/
theorem readParam_write (hx : x.isFinite = true) (offset : Nat) :
    readParam offset (Single.write x) = .ok x := by
  have htrim : trim (Single.write x) = Single.write x :=
    trim_of_forall fun c hc => (inner_of_mem_write hx hc).isBlank
  simp only [readParam, htrim, Single.read?_write hx, Option.filter_some, hx, if_true]

theorem readParams_write (h : ∀ x ∈ params, x.isFinite = true) (offset : Nat) :
    readParams offset (params.map Single.write) = .ok params := by
  induction params generalizing offset with
  | nil => rfl
  | cons x params ih =>
    rw [List.forall_mem_cons] at h
    rw [List.map_cons, readParams, readParam_write h.1, ih h.2]
    rfl

theorem writeParams_singleton (x : Float32) : writeParams [x] = Single.write x := by
  simp [writeParams]

theorem writeParams_cons_cons (x y : Float32) (params : List Float32) :
    writeParams (x :: y :: params) = Single.write x ++ ',' :: writeParams (y :: params) := by
  simp [writeParams]

theorem fields_writeParams (hne : params ≠ []) (h : ∀ x ∈ params, x.isFinite = true) :
    fields (writeParams params) = params.map Single.write := by
  induction params with
  | nil => exact absurd rfl hne
  | cons x params ih =>
    rw [List.forall_mem_cons] at h
    have hcomma : ',' ∉ Single.write x := fun hc => (inner_of_mem_write h.1 hc).ne_comma rfl
    cases params with
    | nil =>
      rw [writeParams_singleton, fields_of_not_mem hcomma]
      rfl
    | cons y params =>
      rw [writeParams_cons_cons, fields_append hcomma, ih (List.cons_ne_nil y params) h.2]
      rfl

theorem ne_close_of_mem_writeParams {c : Char} (h : ∀ x ∈ params, x.isFinite = true)
    (hc : c ∈ writeParams params) : c ≠ ')' := by
  induction params with
  | nil => cases hc
  | cons x params ih =>
    rw [List.forall_mem_cons] at h
    cases params with
    | nil =>
      rw [writeParams_singleton] at hc
      exact (inner_of_mem_write h.1 hc).ne_close
    | cons y params =>
      rw [writeParams_cons_cons, List.mem_append, List.mem_cons] at hc
      rcases hc with hnumber | rfl | hrest
      · exact (inner_of_mem_write h.1 hnumber).ne_close
      · decide
      · exact ih h.2 hrest

/-- A list runs to the first closing parenthesis. -/
theorem readList_of_close {inside : List Char} (h : ')' ∉ inside) (offset : Nat)
    (rest : List Char) :
    readList offset ('(' :: (inside ++ ')' :: rest)) =
      (readParams (offset + 1) (fields inside)).map fun params =>
        (params, offset + bytes inside + 2, rest) := by
  have hinside : ∀ c ∈ inside, (c != ')') = true :=
    fun c hc => bne_iff_ne.mpr fun heq => h (heq ▸ hc)
  have htake : (inside ++ ')' :: rest).takeWhile (· != ')') = inside := by
    rw [List.takeWhile_append_of_pos hinside]
    simp
  have hdrop : (inside ++ ')' :: rest).dropWhile (· != ')') = ')' :: rest := by
    rw [List.dropWhile_append_of_pos hinside]
    simp
  simp only [readList, htake, hdrop]
  cases readParams (offset + 1) (fields inside) <;> rfl

/-- A written parameter list is read back, and reading stops right behind it. -/
theorem readList_write (hne : params ≠ []) (h : ∀ x ∈ params, x.isFinite = true) (offset : Nat)
    (rest : List Char) :
    readList offset ('(' :: (writeParams params ++ ')' :: rest)) =
      .ok (params, offset + bytes (writeParams params) + 2, rest) := by
  have hclose : ')' ∉ writeParams params := fun hc => ne_close_of_mem_writeParams h hc rfl
  rw [readList_of_close hclose, fields_writeParams hne h, readParams_write h]
  rfl

/-! ### Tokens -/

/-- What a written symbol starts with, and what is read from there. -/
theorem readSymbol_write (offset : Nat) (symbol : Symbol) (rest : List Char) :
    ∃ c text, symbol.write ++ rest = c :: text ∧ isBlank c = false ∧ c ≠ '(' ∧
      readSymbol offset c text = .ok (symbol, rest) := by
  cases symbol with
  | bud tag =>
    refine ⟨'A', tag.char :: rest, rfl, by decide, by decide, ?_⟩
    simp only [readSymbol, if_true, Tag.ofChar?_char]
  | _ => exact ⟨_, _, rfl, by decide, by decide, rfl⟩

theorem readList_of_head?_ne (hrest : rest.head? ≠ some '(') (offset : Nat) :
    readList offset rest = .ok ([], offset, rest) := by
  unfold readList
  split
  · exact absurd rfl hrest
  · rfl

/-- A token is read as its symbol and then its parameters. -/
theorem readToken_of_parts {c : Char} {text middle : List Char} {symbol : Symbol} {next : Nat}
    (hsymbol : readSymbol offset c text = .ok (symbol, middle))
    (hlist : readList (offset + bytes symbol.write) middle = .ok (params, next, rest)) :
    readToken offset c text = .ok (⟨symbol, params⟩, next, rest) := by
  simp only [readToken, hsymbol, hlist, bind, Except.bind]

/-- A written token is read to its end, if what follows is not taken for its parameters. -/
theorem readToken_write (ht : t.IsFinite) (offset : Nat) (hrest : rest.head? ≠ some '(') :
    ∃ c text next, t.write ++ rest = c :: text ∧ isBlank c = false ∧
      readToken offset c text = .ok (t, next, rest) := by
  obtain ⟨symbol, params⟩ := t
  by_cases hne : params = []
  · subst hne
    obtain ⟨c, text, hcons, hblank, _, hsymbol⟩ := readSymbol_write offset symbol rest
    exact ⟨c, text, _, hcons, hblank, readToken_of_parts hsymbol (readList_of_head?_ne hrest _)⟩
  · obtain ⟨c, text, hcons, hblank, _, hsymbol⟩ :=
      readSymbol_write offset symbol ('(' :: (writeParams params ++ ')' :: rest))
    refine ⟨c, text, _, ?_, hblank, readToken_of_parts hsymbol (readList_write hne ht _ _)⟩
    simp only [write, List.isEmpty_iff, hne, if_false, List.append_assoc, List.cons_append,
      List.nil_append, ← hcons]

theorem readFrom_eq_bind {c : Char} {text : List Char} (hblank : isBlank c = false) :
    readFrom offset (c :: text) =
      readToken offset c text >>= fun (t, next, rest) => (readFrom next rest).map (t :: ·) := by
  rw [readFrom, hblank]
  simp only [Bool.false_eq_true, if_false]
  split
  · rename_i herror
    rw [herror]
    rfl
  · rename_i hok
    rw [hok]
    rfl

/-- A text is read token by token. -/
theorem readFrom_cons {c : Char} {text : List Char} {next : Nat} (hblank : isBlank c = false)
    (h : readToken offset c text = .ok (t, next, rest)) :
    readFrom offset (c :: text) = (readFrom next rest).map (t :: ·) := by
  rw [readFrom_eq_bind hblank, h]
  rfl

/-- A written word starts with a symbol, if with anything. -/
theorem head?_write_ne (word : List Token) : (word.flatMap Token.write).head? ≠ some '(' := by
  cases word with
  | nil => exact fun heq => by cases heq
  | cons t word =>
    obtain ⟨symbol, params⟩ := t
    have hwrite : ∃ rest, (⟨symbol, params⟩ : Token).write ++ word.flatMap Token.write =
        symbol.write ++ rest := by
      simp only [write]
      split
      · exact ⟨_, rfl⟩
      · exact ⟨_, by rw [List.append_assoc, List.append_assoc]⟩
    obtain ⟨rest, hrest⟩ := hwrite
    obtain ⟨c, text, hcons, _, hopen, _⟩ := readSymbol_write 0 symbol rest
    rw [List.flatMap_cons, hrest, hcons]
    exact fun heq => hopen (Option.some.inj heq)

/-- A written word is read back from any position. -/
theorem readFrom_write {word : List Token} (h : ∀ t ∈ word, t.IsFinite) (offset : Nat) :
    readFrom offset (word.flatMap Token.write) = .ok word := by
  -- The rest of the word starts further on, and is read the same from there.
  induction word generalizing offset with
  | nil =>
    rw [List.flatMap_nil, readFrom]
  | cons t word ih =>
    rw [List.forall_mem_cons] at h
    obtain ⟨c, text, next, hcons, hblank, htoken⟩ :=
      readToken_write h.1 offset (head?_write_ne word)
    rw [List.flatMap_cons, hcons, readFrom_cons hblank htoken, ih h.2]
    rfl

/-! ### Finite numbers -/

/-- No number is read that is not finite. -/
theorem isFinite_of_readParam {field : List Char} (h : readParam offset field = .ok x) :
    x.isFinite = true := by
  unfold readParam at h
  split at h
  · rename_i hread
    cases h
    exact (Option.filter_eq_some_iff.mp hread).2
  · cases h

theorem bind_eq_ok_iff {ε α β : Type} {result : Except ε α} {f : α → Except ε β} {b : β} :
    result >>= f = .ok b ↔ ∃ a, result = .ok a ∧ f a = .ok b := by
  cases result <;> simp [bind, Except.bind]

theorem isFinite_of_readParams {fields : List (List Char)}
    (h : readParams offset fields = .ok params) : ∀ x ∈ params, x.isFinite = true := by
  induction fields generalizing offset params with
  | nil =>
    cases h
    exact List.forall_mem_nil _
  | cons field fields ih =>
    obtain ⟨x, hx, h⟩ := bind_eq_ok_iff.mp h
    obtain ⟨xs, hxs, h⟩ := bind_eq_ok_iff.mp h
    cases h
    exact List.forall_mem_cons.mpr ⟨isFinite_of_readParam hx, ih hxs⟩

theorem isFinite_of_readList {text : List Char} {next : Nat}
    (h : readList offset text = .ok (params, next, rest)) : ∀ x ∈ params, x.isFinite = true := by
  unfold readList at h
  split at h
  · split at h
    · cases h
    · obtain ⟨xs, hxs, h⟩ := bind_eq_ok_iff.mp h
      cases h
      exact isFinite_of_readParams hxs
  · cases h
    exact List.forall_mem_nil _

/-- A token that was read has no parameter that is not finite. -/
theorem isFinite_of_readToken {c : Char} {text : List Char} {next : Nat}
    (h : readToken offset c text = .ok (t, next, rest)) : t.IsFinite := by
  obtain ⟨⟨symbol, middle⟩, _, h⟩ := bind_eq_ok_iff.mp h
  obtain ⟨⟨params, after, remaining⟩, hlist, h⟩ := bind_eq_ok_iff.mp h
  cases h
  exact isFinite_of_readList hlist

theorem isFinite_of_readFrom {text : List Char} {word : List Token}
    (h : readFrom offset text = .ok word) : ∀ t ∈ word, t.IsFinite := by
  fun_induction readFrom offset text generalizing word with
  | case1 =>
    cases h
    exact List.forall_mem_nil _
  | case2 _ _ _ _ ih => exact ih h
  | case3 => cases h
  | case4 offset c text hblank t next rest htoken _ ih =>
    cases hrest : readFrom next rest with
    | error fault =>
      rw [hrest] at h
      cases h
    | ok more =>
      rw [hrest] at h
      cases h
      exact List.forall_mem_cons.mpr ⟨isFinite_of_readToken htoken, ih hrest⟩

end Token

/-- **Words of finite numbers, and no others, are read as they were written.** What is read is such
a word, whatever the text, so that it is read again from its written form. -/
theorem readWord_writeWord :
    (∀ word, readWord (writeWord word) = .ok word ↔
      ∀ t ∈ word, ∀ x ∈ t.params, x.isFinite = true) ∧
    ∀ text word, readWord text = .ok word →
      (∀ t ∈ word, ∀ x ∈ t.params, x.isFinite = true) ∧ readWord (writeWord word) = .ok word := by
  have hwritten : ∀ word : List Token, (∀ t ∈ word, t.IsFinite) →
      readWord (writeWord word) = .ok word := by
    intro word h
    rw [readWord, toList_writeWord]
    exact Token.readFrom_write h 0
  refine ⟨fun word => ⟨Token.isFinite_of_readFrom, hwritten word⟩, fun text word h => ?_⟩
  have hfinite := Token.isFinite_of_readFrom h
  exact ⟨hfinite, hwritten word hfinite⟩

/-- The least and the greatest number and the negative zero are read again, and so is what a text
with an exponent and blanks was read as. -/
theorem readWord_writeWord_extremes :
    readWord (writeWord [.bare .skip, ⟨.forward, [.ofBits 1, .ofBits 0x80000000]⟩,
      .bud .faceC [.ofBits 0xff7fffff], .bare .push]) =
        .ok [.bare .skip, ⟨.forward, [.ofBits 1, .ofBits 0x80000000]⟩,
          .bud .faceC [.ofBits 0xff7fffff], .bare .push] ∧
    readWord "F( 1e-1 )\n" = .ok [⟨.forward, [0.1]⟩] ∧
      readWord (writeWord [⟨.forward, [0.1]⟩]) = .ok [⟨.forward, [0.1]⟩] := by
  have hread : readWord "F( 1e-1 )\n" = .ok [⟨.forward, [0.1]⟩] := by
    have htoken : Token.readToken 0 'F' "( 1e-1 )\n".toList =
        .ok (⟨.forward, [0.1]⟩, 9, ['\n']) := by decide
    have hblank : Token.readFrom 9 ['\n'] = .ok [] := by
      rw [Token.readFrom, if_pos (by decide), Token.readFrom]
    have hcons := Token.readFrom_cons (by decide) htoken
    rw [hblank] at hcons
    exact hcons
  refine ⟨(readWord_writeWord.1 _).mpr ?_, hread, (readWord_writeWord.2 _ _ hread).2⟩
  decide

end Grapevine
