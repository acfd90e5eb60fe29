import Grapevine.Proofs.Token.Written

/-! The spelling of words.

A token is spelled by its symbol and, right behind it, its numbers in parentheses, with commas
between them and blanks around each. A word is spelled token after token, with any blanks between
them and at both ends (`Spells`). What is read is what is spelled so, and nothing else is read
(`readWord_eq_ok_iff`): in particular no text with a blank in front of a parenthesis or behind an
`A`. -/
namespace Grapevine

open Number Text

variable {c : Char} {list part rest text : List Char} {word : List Token} {x : Float32}
  {params : List Float32} {symbol : Symbol} {offset next : Nat}

/-! ### Spelling -/

/-- A finite number, with blanks around it. -/
def SpellsNumber (field : List Char) (x : Float32) : Prop :=
  Single.read? (trim field) = some x ∧ x.isFinite = true

/-- The parameters of a token: nothing if there are none, and otherwise at least one number between
parentheses. -/
inductive SpellsParams : List Char → List Float32 → Prop where
  | none : SpellsParams [] []
  | list {fields : List (List Char)} {params : List Float32} (hne : fields ≠ [])
      (hfields : ∀ field ∈ fields, ',' ∉ field ∧ ')' ∉ field)
      (hnumbers : List.Forall₂ SpellsNumber fields params) :
      SpellsParams ('(' :: [','].intercalate fields ++ [')']) params

/-- A word, token after token, with blanks wherever no token is. -/
inductive Spells : List Char → List Token → Prop where
  | nil : Spells [] []
  | blank {c : Char} {text : List Char} {word : List Token} (hc : isBlank c = true)
      (h : Spells text word) : Spells (c :: text) word
  | token {list text : List Char} {t : Token} {word : List Token}
      (hlist : SpellsParams list t.params) (h : Spells text word) :
      Spells (t.symbol.write ++ list ++ text) (t :: word)

/-! ### Symbols -/

theorem Tag.char_of_ofChar? {tag : Tag} (h : Tag.ofChar? c = some tag) : tag.char = c := by
  unfold Tag.ofChar? at h
  split at h <;> cases h <;> rfl

theorem Symbol.write_of_ofChar? (h : Symbol.ofChar? c = some symbol) : symbol.write = [c] := by
  unfold Symbol.ofChar? at h
  split at h <;> cases h <;> rfl

/-- Blanks stand apart from parentheses and from what is written behind an `A`. -/
structure Apart (a b : Char) : Prop where
  open_of : b = '(' → isBlank a = false
  bud_of : a = 'A' → isBlank b = false

/-- How a symbol is written. -/
theorem Symbol.write_cases (symbol : Symbol) :
    (∃ c, symbol.write = [c] ∧ isBlank c = false ∧ c ≠ '(' ∧ c ≠ 'A') ∨
      ∃ tag : Tag, symbol.write = ['A', tag.char] ∧ isBlank tag.char = false ∧ tag.char ≠ '(' ∧
        tag.char ≠ 'A' := by
  cases symbol with
  | bud tag => cases tag <;> exact .inr ⟨_, rfl, by decide⟩
  | _ => exact .inl ⟨_, rfl, by decide⟩

namespace Token

/-- A symbol is read exactly where it is written. -/
theorem readSymbol_eq_ok_iff :
    readSymbol offset c text = .ok (symbol, rest) ↔ c :: text = symbol.write ++ rest := by
  apply Iff.intro
  · intro h
    unfold readSymbol at h
    split at h
    · rename_i hbud
      split at h
      · cases h
      · rename_i t after
        split at h
        · rename_i tag htag
          cases h
          rw [hbud, ← Tag.char_of_ofChar? htag]
          rfl
        · cases h
    · split at h
      · rename_i symbol hsymbol
        cases h
        rw [Symbol.write_of_ofChar? hsymbol]
        rfl
      · cases h
  · intro h
    obtain ⟨c', text', hcons, _, _, hread⟩ := readSymbol_write offset symbol rest
    rw [← h] at hcons
    cases hcons
    exact hread

/-! ### Lists of parameters -/

/-- A parameter is read exactly from the spellings of its number. -/
theorem readParam_eq_ok_iff {field : List Char} :
    readParam offset field = .ok x ↔ SpellsNumber field x := by
  rw [SpellsNumber, ← Option.filter_eq_some_iff (p := Float32.isFinite), readParam]
  cases (Single.read? (trim field)).filter Float32.isFinite <;> simp

theorem readParams_eq_ok_iff {fields : List (List Char)} :
    readParams offset fields = .ok params ↔ List.Forall₂ SpellsNumber fields params := by
  induction fields generalizing offset params with
  | nil =>
    rw [List.forall₂_nil_left_iff, readParams, Except.ok.injEq, eq_comm]
  | cons field fields ih =>
    rw [readParams, bind_eq_ok_iff, List.forall₂_cons_left_iff]
    simp only [bind_eq_ok_iff, readParam_eq_ok_iff, ih]
    apply Iff.intro
    · rintro ⟨x, hx, xs, hxs, heq⟩
      cases heq
      exact ⟨x, xs, hx, hxs, rfl⟩
    · rintro ⟨x, xs, hx, hxs, rfl⟩
      exact ⟨x, hx, xs, hxs, rfl⟩

end Token

namespace Text

theorem fields_intercalate {parts : List (List Char)} (hne : parts ≠ [])
    (h : ∀ part ∈ parts, ',' ∉ part) : fields ([','].intercalate parts) = parts := by
  induction parts with
  | nil => exact absurd rfl hne
  | cons part parts ih =>
    rw [List.forall_mem_cons] at h
    cases parts with
    | nil => rw [List.intercalate_singleton, fields_of_not_mem h.1]
    | cons next parts =>
      rw [List.intercalate_cons_cons, List.append_assoc, List.singleton_append, fields_append h.1,
        ih (List.cons_ne_nil next parts) h.2]

theorem intercalate_fields (text : List Char) : [','].intercalate (fields text) = text := by
  fun_induction fields text with
  | case1 => rfl
  | case2 rest ih =>
    obtain ⟨part, parts, hcons⟩ := List.exists_cons_of_ne_nil (fields_ne_nil rest)
    rw [hcons, List.intercalate_cons_cons, ← hcons, ih]
    rfl
  | case3 c rest _ hnil _ => exact absurd hnil (fields_ne_nil rest)
  | case4 c rest _ part parts hcons ih =>
    rw [hcons] at ih
    rw [← ih]
    cases parts with
    | nil => simp
    | cons => simp [List.intercalate_cons_cons]

/-- Fields have no comma in them, and nothing that the text does not have. -/
theorem mem_of_mem_fields (h : part ∈ fields text) (hc : c ∈ part) : c ≠ ',' ∧ c ∈ text := by
  fun_induction fields text generalizing part with
  | case1 =>
    cases List.mem_singleton.mp h
    cases hc
  | case2 rest ih =>
    rcases List.mem_cons.mp h with rfl | hrest
    · cases hc
    · exact (ih hrest hc).imp_right (List.mem_cons_of_mem _)
  | case3 _ rest _ hnil _ => exact absurd hnil (fields_ne_nil rest)
  | case4 c' rest hcomma field parts hcons ih =>
    rw [hcons] at ih
    rcases List.mem_cons.mp h with rfl | hrest
    · rcases List.mem_cons.mp hc with rfl | hfield
      · exact ⟨fun heq => hcomma (heq ▸ rfl), List.mem_cons_self ..⟩
      · exact (ih (List.mem_cons_self ..) hfield).imp_right (List.mem_cons_of_mem _)
    · exact (ih (List.mem_cons_of_mem _ hrest) hc).imp_right (List.mem_cons_of_mem _)

theorem mem_intercalate {parts : List (List Char)} (h : c ∈ [','].intercalate parts) :
    c = ',' ∨ ∃ part ∈ parts, c ∈ part := by
  induction parts with
  | nil => cases h
  | cons part parts ih =>
    cases parts with
    | nil =>
      rw [List.intercalate_singleton] at h
      exact .inr ⟨part, List.mem_cons_self .., h⟩
    | cons next parts =>
      rw [List.intercalate_cons_cons, List.append_assoc, List.mem_append, List.singleton_append,
        List.mem_cons] at h
      rcases h with hpart | hcomma | hrest
      · exact .inr ⟨part, List.mem_cons_self .., hpart⟩
      · exact .inl hcomma
      · refine (ih hrest).imp_right fun ⟨part', hpart', hc⟩ => ?_
        exact ⟨part', List.mem_cons_of_mem _ hpart', hc⟩

/-- Commas and closing parentheses are not part of a field, where the text is free of the latter. -/
theorem not_mem_of_mem_fields (htext : ')' ∉ text) :
    ∀ field ∈ fields text, ',' ∉ field ∧ ')' ∉ field :=
  fun _ hfield => ⟨fun hc => (mem_of_mem_fields hfield hc).1 rfl,
    fun hc => htext (mem_of_mem_fields hfield hc).2⟩

theorem mem_trim (h : c ∈ text) (hc : isBlank c = false) : c ∈ trim text := by
  have hdrop : ∀ {l : List Char}, c ∈ l → c ∈ l.dropWhile isBlank := by
    intro l hl
    rw [← List.takeWhile_append_dropWhile (p := isBlank) (l := l), List.mem_append] at hl
    refine hl.resolve_left fun htake => ?_
    rw [List.mem_takeWhile_imp htake] at hc
    cases hc
  rw [trim, List.mem_reverse]
  exact hdrop (List.mem_reverse.mpr (hdrop h))

end Text

namespace Token

theorem spellsParams_of_readList (h : readList offset text = .ok (params, next, rest)) :
    ∃ list, text = list ++ rest ∧ SpellsParams list params := by
  unfold readList at h
  split at h
  · rename_i body
    split at h
    · cases h
    · rename_i c after hdrop
      obtain ⟨xs, hxs, h⟩ := bind_eq_ok_iff.mp h
      cases h
      obtain rfl : c = ')' := by
        have hhead := List.head?_dropWhile_not (· != ')') body
        rw [hdrop] at hhead
        simpa using hhead
      refine ⟨'(' :: (body.takeWhile (· != ')') ++ [')']), ?_, ?_⟩
      · rw [List.cons_append, List.append_assoc, List.singleton_append, ← hdrop,
          List.takeWhile_append_dropWhile]
      · have hinside : ')' ∉ body.takeWhile (· != ')') := by
          intro hc
          have hbne := List.mem_takeWhile_imp hc
          exact absurd rfl (bne_iff_ne.mp hbne)
        rw [← intercalate_fields (body.takeWhile (· != ')'))]
        exact .list (fields_ne_nil _) (not_mem_of_mem_fields hinside) (readParams_eq_ok_iff.mp hxs)
  · cases h
    exact ⟨[], rfl, .none⟩

/-- A list that is closed is read field by field. -/
theorem readList_intercalate {parts : List (List Char)} (hne : parts ≠ [])
    (hfields : ∀ part ∈ parts, ',' ∉ part ∧ ')' ∉ part) (offset : Nat) (rest : List Char) :
    readList offset ('(' :: ([','].intercalate parts ++ ')' :: rest)) =
      (readParams (offset + 1) parts).map fun params =>
        (params, offset + bytes ([','].intercalate parts) + 2, rest) := by
  have hclose : ')' ∉ [','].intercalate parts := by
    intro hc
    rcases mem_intercalate hc with heq | ⟨part, hpart, hmem⟩
    · cases heq
    · exact (hfields part hpart).2 hmem
  rw [readList_of_close hclose, fields_intercalate hne fun part hpart => (hfields part hpart).1]

/-- What stands behind a list of parameters has no part in it; without a list, nothing may be taken
for one. -/
theorem readList_of_spellsParams (h : SpellsParams list params) (offset : Nat)
    (hrest : list = [] → rest.head? ≠ some '(') :
    readList offset (list ++ rest) = .ok (params, offset + bytes list, rest) := by
  cases h with
  | none => exact readList_of_head?_ne (hrest rfl) offset
  | @list parts _ hne hfields hnumbers =>
    have hopen : ('(' : Char).utf8Size = 1 := rfl
    have hbytes : offset + bytes ('(' :: [','].intercalate parts ++ [')']) =
        offset + bytes ([','].intercalate parts) + 2 := by
      rw [bytes_append, bytes_cons, hopen]
      show offset + (1 + bytes ([','].intercalate parts) + 1) = _
      omega
    rw [hbytes, List.append_assoc, List.cons_append, List.singleton_append,
      readList_intercalate hne hfields, readParams_eq_ok_iff.mpr hnumbers]
    rfl

end Token

/-! ### Words -/

theorem Spells.head?_ne (h : Spells text word) : text.head? ≠ some '(' := by
  cases h with
  | nil => exact fun heq => by cases heq
  | blank hc _ =>
    intro heq
    cases heq
    cases hc
  | @token list text t word _ _ =>
    rcases t.symbol.write_cases with ⟨c, hwrite, _, hopen, _⟩ | ⟨tag, hwrite, _⟩
    · rw [hwrite]
      exact fun heq => hopen (Option.some.inj heq)
    · rw [hwrite]
      exact fun heq => by cases heq

theorem Spells.append {v : List Token} (h : Spells text word) (hrest : Spells rest v) :
    Spells (text ++ rest) (word ++ v) := by
  induction h with
  | nil => exact hrest
  | blank hc _ ih => exact .blank hc ih
  | token hlist _ ih =>
    rw [List.append_assoc]
    exact .token hlist ih

/-- The last character is of a symbol, and not a blank or the end of a list of parameters. -/
def EndsInSymbol (text : List Char) : Prop :=
  ∃ c, text.getLast? = some c ∧ isBlank c = false ∧ c ≠ ')'

theorem endsInSymbol_append (hne : text ≠ []) :
    EndsInSymbol (part ++ text) ↔ EndsInSymbol text := by
  rw [EndsInSymbol, List.getLast?_append_of_ne_nil part hne]
  rfl

theorem EndsInSymbol.behind (h : EndsInSymbol text) (part : List Char) :
    EndsInSymbol (part ++ text) := by
  refine (endsInSymbol_append fun heq => ?_).mpr h
  obtain ⟨c, hlast, _⟩ := h
  rw [heq] at hlast
  cases hlast

theorem Symbol.endsInSymbol_write (symbol : Symbol) : EndsInSymbol symbol.write := by
  cases symbol with
  | bud tag => cases tag <;> exact ⟨_, rfl, by decide⟩
  | _ => exact ⟨_, rfl, by decide⟩

namespace Token

/-- What is read is spelled that way. -/
theorem spells_of_readFrom (h : readFrom offset text = .ok word) : Spells text word := by
  fun_induction readFrom offset text generalizing word with
  | case1 =>
    cases h
    exact .nil
  | case2 offset c rest hblank ih => exact .blank hblank (ih h)
  | case3 => cases h
  | case4 offset c text hblank t next rest htoken _ ih =>
    cases hmore : readFrom next rest with
    | error fault =>
      rw [hmore] at h
      cases h
    | ok more =>
      rw [hmore] at h
      cases h
      obtain ⟨⟨symbol, middle⟩, hsymbol, htoken⟩ := bind_eq_ok_iff.mp htoken
      obtain ⟨⟨params, after, remaining⟩, hlist, htoken⟩ := bind_eq_ok_iff.mp htoken
      cases htoken
      obtain ⟨list, hmiddle, hspells⟩ := spellsParams_of_readList hlist
      rw [readSymbol_eq_ok_iff.mp hsymbol, hmiddle, ← List.append_assoc]
      exact .token (t := ⟨symbol, params⟩) hspells (ih hmore)

/-- What spells a word is read to its end, and what follows is read from there, unless the word
could go on with a list of parameters and does. -/
theorem readFrom_behind (h : Spells text word) (hrest : EndsInSymbol text → rest.head? ≠ some '(')
    (offset : Nat) :
    readFrom offset (text ++ rest) = (readFrom (offset + bytes text) rest).map (word ++ ·) := by
  induction h generalizing offset with
  | nil =>
    show readFrom offset rest = (readFrom offset rest).map id
    cases readFrom offset rest <;> rfl
  | @blank c text word hc _ ih =>
    rw [List.cons_append, readFrom, if_pos hc, ih fun htext => hrest (htext.behind [c]), bytes_cons,
      Nat.add_assoc]
  | @token list text t word hlist h ih =>
    -- Behind the symbol comes its list, or the next token, or the rest: that is no list then.
    have hnext : list = [] → (text ++ rest).head? ≠ some '(' := by
      rintro rfl
      cases text with
      | nil =>
        refine hrest ?_
        rw [List.append_nil, List.append_nil]
        exact t.symbol.endsInSymbol_write
      | cons c text => exact h.head?_ne
    obtain ⟨c, after, hcons, hblank, _, hsymbol⟩ :=
      readSymbol_write offset t.symbol (list ++ (text ++ rest))
    have hread := readList_of_spellsParams hlist (offset + bytes t.symbol.write) hnext
    rw [List.append_assoc, List.append_assoc, hcons,
      readFrom_cons hblank (readToken_of_parts hsymbol hread),
      ih fun htext => hrest (htext.behind _), bytes_append, bytes_append]
    simp only [Nat.add_assoc]
    cases readFrom _ rest <;> rfl

theorem readFrom_append (h : Spells text word) (hrest : rest.head? ≠ some '(') (offset : Nat) :
    readFrom offset (text ++ rest) = (readFrom (offset + bytes text) rest).map (word ++ ·) :=
  readFrom_behind h (fun _ => hrest) offset

/-- What is spelled is read that way. -/
theorem readFrom_of_spells (h : Spells text word) (offset : Nat) :
    readFrom offset text = .ok word := by
  have hend : ([] : List Char).head? ≠ some '(' := fun heq => by cases heq
  rw [← List.append_nil text, readFrom_append h hend, readFrom]
  exact congrArg Except.ok (List.append_nil word)

end Token

/-! ### Neighbours -/

theorem apart_of_ne {a b : Char} (hb : b ≠ '(') (ha : a ≠ 'A') : Apart a b :=
  ⟨fun heq => absurd heq hb, fun heq => absurd heq ha⟩

/-- Anything may stand behind a symbol. -/
theorem Symbol.isChain_write (symbol : Symbol) (h : text.IsChain Apart) :
    (symbol.write ++ text).IsChain Apart := by
  have hbehind : ∀ {a : Char}, isBlank a = false → a ≠ 'A' → (a :: text).IsChain Apart :=
    fun ha hbud => List.isChain_cons.mpr ⟨fun b _ => ⟨fun _ => ha, fun heq => absurd heq hbud⟩, h⟩
  rcases symbol.write_cases with ⟨c, hwrite, hblank, _, hbud⟩ | ⟨tag, hwrite, hblank, hopen, hbud⟩
  · rw [hwrite]
    exact hbehind hblank hbud
  · rw [hwrite]
    exact List.isChain_cons_cons.mpr
      ⟨⟨fun heq => absurd heq hopen, fun _ => hblank⟩, hbehind hblank hbud⟩

theorem ne_of_spellsNumber {field : List Char} (h : SpellsNumber field x) (hc : c ∈ field) :
    c ≠ '(' ∧ c ≠ 'A' := by
  cases hblank : isBlank c with
  | true =>
    refine ⟨fun heq => ?_, fun heq => ?_⟩ <;> rw [heq] at hblank <;> cases hblank
  | false =>
    have hnumeral := Single.numeral_of_read? h.1 h.2 (mem_trim hc hblank)
    refine ⟨fun heq => ?_, fun heq => ?_⟩ <;> rw [heq] at hnumeral <;> revert hnumeral <;>
      simp [Decimal.Numeral]

/-- Anything may stand behind a list of parameters, too. -/
theorem SpellsParams.isChain (hlist : SpellsParams list params) (h : text.IsChain Apart) :
    (list ++ text).IsChain Apart := by
  cases hlist with
  | none => exact h
  | @list parts _ _ _ hnumbers =>
    have hparts : ∀ part ∈ parts, ∀ c ∈ part, c ≠ '(' ∧ c ≠ 'A' :=
      (List.forall₂_and_left parts params).mp
        (hnumbers.imp fun _ _ hx => ⟨fun _ => ne_of_spellsNumber hx, hx⟩) |>.1
    have hinside : ∀ c ∈ [','].intercalate parts ++ [')'], c ≠ '(' ∧ c ≠ 'A' := by
      intro c hc
      rcases List.mem_append.mp hc with hlist | hclose
      · rcases mem_intercalate hlist with rfl | ⟨part, hpart, hmem⟩
        · decide
        · exact hparts part hpart c hmem
      · rw [List.mem_singleton.mp hclose]
        decide
    have hclose : ∀ b, Apart ')' b := fun b => ⟨fun _ => by decide, fun heq => by cases heq⟩
    refine List.IsChain.append ?_ h fun a ha b _ => ?_
    · refine List.isChain_cons.mpr ⟨fun b hb => ?_, ?_⟩
      · exact apart_of_ne (hinside b (List.mem_of_mem_head? hb)).1 (by decide)
      · exact (List.pairwise_of_forall_mem_list fun a ha b hb =>
          apart_of_ne (hinside b hb).1 (hinside a ha).2).isChain
    · rw [List.getLast?_append] at ha
      cases ha
      exact hclose b

/-- No two characters stand together in a spelling that may not. -/
theorem Spells.isChain (h : Spells text word) : text.IsChain Apart := by
  induction h with
  | nil => exact List.isChain_nil
  | @blank c text word hc h ih =>
    refine List.isChain_cons.mpr ⟨fun b hb => ⟨fun heq => ?_, fun heq => ?_⟩, ih⟩
    · rw [heq] at hb
      exact absurd hb h.head?_ne
    · rw [heq] at hc
      cases hc
  | token hlist _ ih =>
    rw [List.append_assoc]
    exact Symbol.isChain_write _ (hlist.isChain ih)

/-- **A word is read from what spells it, and from nothing else.** Texts with a blank in front of a
parenthesis or behind an `A` spell none. -/
theorem readWord_eq_ok_iff :
    (∀ text word, readWord text = .ok word ↔ Spells text.toList word) ∧
    ∀ (u rest : List Char) (blank : Char), isBlank blank = true →
      (∃ fault, readWord (.ofList (u ++ blank :: '(' :: rest)) = .error fault) ∧
      ∃ fault, readWord (.ofList (u ++ 'A' :: blank :: rest)) = .error fault := by
  have hread : ∀ text word, readWord text = .ok word ↔ Spells text.toList word :=
    fun text word => ⟨Token.spells_of_readFrom, fun h => Token.readFrom_of_spells h 0⟩
  have hrefused : ∀ text : List Char, ¬ text.IsChain Apart →
      ∃ fault, readWord (.ofList text) = .error fault := by
    intro text htext
    cases hok : readWord (.ofList text) with
    | error fault => exact ⟨fault, rfl⟩
    | ok word =>
      have hspells := (hread _ _).mp hok
      rw [String.toList_ofList] at hspells
      exact absurd hspells.isChain htext
  refine ⟨hread, fun u rest blank hblank => ⟨hrefused _ fun hchain => ?_,
    hrefused _ fun hchain => ?_⟩⟩
  · have hapart := (List.isChain_append_cons_cons.mp hchain).2.1
    rw [hapart.open_of rfl] at hblank
    cases hblank
  · have hapart := (List.isChain_append_cons_cons.mp hchain).2.1
    rw [hapart.bud_of rfl] at hblank
    cases hblank

/-- Blanks of two and three bytes stand around numbers and tokens here, but not inside a token. -/
theorem readWord_eq_ok_blanks :
    readWord "F(1e1,\u3000-0\u00a0)\u2003Ar" = .ok [⟨.forward, [10, -0]⟩, .bare (.bud .root)] ∧
    isBlank '\u2003' = true ∧ (∃ fault, readWord "F\u2003(10)" = .error fault) ∧
      ∃ fault, readWord "FA\u2003r" = .error fault := by
  have hnumbers : List.Forall₂ SpellsNumber [['1', 'e', '1'], ['\u3000', '-', '0', '\u00a0']]
      [10, -0] := by
    refine .cons ⟨by decide, by decide⟩ (.cons ⟨by decide, by decide⟩ .nil)
  have hspells : Spells "F(1e1,\u3000-0\u00a0)\u2003Ar".toList
      [⟨.forward, [10, -0]⟩, .bare (.bud .root)] :=
    .token (t := ⟨.forward, [10, -0]⟩) (.list (List.cons_ne_nil _ _) (by decide) hnumbers)
      (.blank (by decide) (.token (t := .bare (.bud .root)) .none .nil))
  have hblank : isBlank '\u2003' = true := by decide
  exact ⟨(readWord_eq_ok_iff.1 _ _).mpr hspells, hblank,
    (readWord_eq_ok_iff.2 ['F'] ['1', '0', ')'] _ hblank).1,
    (readWord_eq_ok_iff.2 ['F'] ['r'] _ hblank).2⟩

end Grapevine
