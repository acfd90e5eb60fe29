import Grapevine.Proofs.Token.Seam

/-! Why a text is no word.

Whatever is wrong with a text, up to there it is a word: what a fault names is where the reading of a
text breaks off (`Breaks`), and in front of it stands a text that is read. For a parameter that is no
number, that is the text in front of its list. The faults of texts are those and no others
(`readWord_eq_error_iff`), and they are told by the bytes in front of them. -/
namespace Grapevine

open Number Text

/-- The byte that a fault names. -/
def TextFault.offset : TextFault → Nat
  | unknownTag offset _ | missingTag offset | unknownSymbol offset _ | unclosed offset
  | badNumber offset _ => offset

/-- What reading breaks off at behind a front that is read: a character that starts no symbol, an
`A` without a tag, a parenthesis that is never closed, or the first field of a list that is no finite
number. -/
inductive Breaks (front : List Char) : List Char → TextFault → Prop where
  | unknownTag {t : Char} {rest : List Char} (ht : Tag.ofChar? t = none) :
      Breaks front ('A' :: t :: rest) (.unknownTag (bytes front) t)
  | missingTag : Breaks front ['A'] (.missingTag (bytes front))
  | unknownSymbol {c : Char} {rest : List Char} (hblank : isBlank c = false) (hbud : c ≠ 'A')
      (hsymbol : Symbol.ofChar? c = none) (hopen : EndsInSymbol front → c ≠ '(') :
      Breaks front (c :: rest) (.unknownSymbol (bytes front) c)
  | unclosed {body : List Char} (hfront : EndsInSymbol front) (hbody : ')' ∉ body) :
      Breaks front ('(' :: body) (.unclosed (bytes front))
  | badNumber {before after : List (List Char)} {field rest : List Char}
      (hfront : EndsInSymbol front)
      (hfields : ∀ part ∈ before ++ field :: after, ',' ∉ part ∧ ')' ∉ part)
      (hbefore : ∀ part ∈ before, ∃ x, SpellsNumber part x) (hfield : ∀ x, ¬ SpellsNumber field x) :
      Breaks front ('(' :: ([','].intercalate (before ++ field :: after) ++ ')' :: rest))
        (.badNumber (bytes (front ++ '(' :: before.flatMap (· ++ [',']))) (.ofList (trim field)))

variable {c : Char} {front rest text : List Char} {word : List Token}
  {symbol : Symbol} {offset : Nat} {fault : TextFault}

theorem Text.bytes_append_open (front text : List Char) :
    bytes (front ++ '(' :: text) = bytes front + 1 + bytes text := by
  rw [bytes_append, bytes_cons, Nat.add_assoc]
  rfl

theorem SpellsParams.not_endsInSymbol {list : List Char} {params : List Float32}
    (h : SpellsParams list params) : ¬ EndsInSymbol list := by
  rintro ⟨c, hlast, _, hclose⟩
  cases h with
  | none => cases hlast
  | list =>
    rw [List.getLast?_concat] at hlast
    exact hclose (Option.some.inj hlast).symm

namespace Token

/-! ### Parts of a token -/

theorem readSymbol_eq_error_iff :
    readSymbol offset c text = .error fault ↔
      (c = 'A' ∧ text = [] ∧ fault = .missingTag offset) ∨
      (c = 'A' ∧ ∃ t rest, text = t :: rest ∧ Tag.ofChar? t = none ∧
        fault = .unknownTag offset t) ∨
      (c ≠ 'A' ∧ Symbol.ofChar? c = none ∧ fault = .unknownSymbol offset c) := by
  unfold readSymbol
  by_cases hbud : c = 'A'
  · cases text with
    | nil => simp [hbud, eq_comm]
    | cons t rest => cases ht : Tag.ofChar? t <;> simp [hbud, ht, eq_comm]
  · cases hsymbol : Symbol.ofChar? c <;> simp [hbud, eq_comm]

theorem readParam_of_not_spells {field : List Char} (h : ∀ x, ¬ SpellsNumber field x)
    (offset : Nat) : readParam offset field = .error (.badNumber offset (.ofList (trim field))) := by
  unfold readParam
  split
  · rename_i x hx
    exact absurd (Option.filter_eq_some_iff.mp hx) (h x)
  · rfl

/-- Behind a number, what is refused is one of the fields that follow. -/
theorem readParams_cons_eq_error_iff {field : List Char} {x : Float32} {fields : List (List Char)}
    (hx : SpellsNumber field x) :
    readParams offset (field :: fields) = .error fault ↔
      readParams (offset + bytes field + 1) fields = .error fault := by
  rw [readParams, readParam_eq_ok_iff.mpr hx]
  show Except.bind (readParams _ fields) _ = _ ↔ _
  cases readParams (offset + bytes field + 1) fields <;> simp [Except.bind]

theorem bytes_flatMap_comma (field : List Char) (before : List (List Char)) :
    offset + bytes ((field :: before).flatMap (· ++ [','])) =
      offset + bytes field + 1 + bytes (before.flatMap (· ++ [','])) := by
  rw [List.flatMap_cons, bytes_append, bytes_append]
  show offset + (bytes field + 1 + _) = _
  omega

/-- The first field that is no number is refused, where it begins. -/
theorem readParams_eq_error_iff {fields : List (List Char)} :
    readParams offset fields = .error fault ↔
      ∃ before field after, fields = before ++ field :: after ∧
        (∀ part ∈ before, ∃ x, SpellsNumber part x) ∧ (∀ x, ¬ SpellsNumber field x) ∧
        fault = .badNumber (offset + bytes (before.flatMap (· ++ [',']))) (.ofList (trim field)) := by
  induction fields generalizing offset with
  | nil =>
    apply Iff.intro
    · intro h
      cases h
    · rintro ⟨before, field, after, heq, _⟩
      cases before <;> cases heq
  | cons first fields ih =>
    by_cases hfirst : ∃ x, SpellsNumber first x
    · obtain ⟨x, hx⟩ := hfirst
      rw [readParams_cons_eq_error_iff hx, ih]
      apply Iff.intro
      · rintro ⟨before, field, after, rfl, hbefore, hfield, rfl⟩
        exact ⟨first :: before, field, after, rfl, List.forall_mem_cons.mpr ⟨⟨x, hx⟩, hbefore⟩,
          hfield, by rw [bytes_flatMap_comma]⟩
      · rintro ⟨before, field, after, heq, hbefore, hfield, rfl⟩
        cases before with
        | nil =>
          cases heq
          exact absurd hx (hfield x)
        | cons _ before =>
          cases heq
          exact ⟨before, field, after, rfl, (List.forall_mem_cons.mp hbefore).2, hfield,
            by rw [bytes_flatMap_comma]⟩
    · rw [not_exists] at hfirst
      rw [readParams, readParam_of_not_spells hfirst]
      apply Iff.intro
      · intro h
        cases h
        exact ⟨[], first, fields, rfl, List.forall_mem_nil _, hfirst, rfl⟩
      · rintro ⟨before, field, after, heq, hbefore, hfield, rfl⟩
        cases before with
        | nil =>
          cases heq
          rfl
        | cons _ before =>
          cases heq
          obtain ⟨x, hx⟩ := hbefore first (List.mem_cons_self ..)
          exact absurd hx (hfirst x)

/-- What can stand where a list of parameters may. -/
inductive ListCase : List Char → Prop where
  | none {text : List Char} (h : text.head? ≠ some '(') : ListCase text
  | unclosed {body : List Char} (h : ')' ∉ body) : ListCase ('(' :: body)
  | closed {inside rest : List Char} (h : ')' ∉ inside) :
      ListCase ('(' :: (inside ++ ')' :: rest))

theorem listCase (text : List Char) : ListCase text := by
  by_cases hopen : text.head? = some '('
  · obtain ⟨body, rfl⟩ := List.head?_eq_some_iff.mp hopen
    by_cases hclose : ')' ∈ body
    · obtain ⟨inside, rest, rfl, hinside⟩ := List.eq_append_cons_of_mem hclose
      exact .closed hinside
    · exact .unclosed hclose
  · exact .none hopen

theorem readList_of_unclosed {body : List Char} (h : ')' ∉ body) (offset : Nat) :
    readList offset ('(' :: body) = .error (.unclosed offset) := by
  have hdrop : body.dropWhile (· != ')') = [] :=
    List.dropWhile_eq_nil_iff.mpr fun c hc => bne_iff_ne.mpr fun heq => h (heq ▸ hc)
  simp only [readList, hdrop]

/-! ### Texts -/

theorem readFrom_of_readSymbol_error (hblank : isBlank c = false)
    (h : readSymbol offset c text = .error fault) : readFrom offset (c :: text) = .error fault := by
  rw [readFrom_eq_bind hblank, readToken, h]
  rfl

theorem readFrom_of_readList_error
    (h : readList (offset + bytes symbol.write) text = .error fault) :
    readFrom offset (symbol.write ++ text) = .error fault := by
  obtain ⟨c, after, hcons, hblank, _, hsymbol⟩ := readSymbol_write offset symbol text
  rw [hcons, readFrom_eq_bind hblank, readToken, hsymbol]
  show (Except.bind (readList (offset + bytes symbol.write) text) _ >>= _) = _
  rw [h]
  rfl

/-- The parts of a token that was read. -/
theorem parts_of_readToken {t : Token} {next : Nat}
    (h : readToken offset c text = .ok (t, next, rest)) :
    ∃ list, c :: text = t.symbol.write ++ list ++ rest ∧ SpellsParams list t.params ∧
      next = offset + bytes (t.symbol.write ++ list) ∧ (list = [] → rest.head? ≠ some '(') := by
  obtain ⟨⟨symbol, middle⟩, hsymbol, h⟩ := bind_eq_ok_iff.mp h
  obtain ⟨⟨params, after, remaining⟩, hlist, h⟩ := bind_eq_ok_iff.mp h
  cases h
  obtain ⟨list, hmiddle, hspells⟩ := spellsParams_of_readList hlist
  refine ⟨list, by rw [readSymbol_eq_ok_iff.mp hsymbol, hmiddle, List.append_assoc], hspells, ?_⟩
  cases listCase middle with
  | none hhead =>
    rw [readList_of_head?_ne hhead] at hlist
    cases hlist
    obtain rfl : list = [] := List.append_left_eq_self.mp hmiddle.symm
    rw [List.append_nil]
    exact ⟨rfl, fun _ => hhead⟩
  | unclosed hbody =>
    rw [readList_of_unclosed hbody] at hlist
    cases hlist
  | @closed inside rest' hinside =>
    rw [readList_of_close hinside] at hlist
    cases hparams : readParams (offset + bytes symbol.write + 1) (fields inside) with
    | error first =>
      rw [hparams] at hlist
      cases hlist
    | ok xs =>
      rw [hparams] at hlist
      cases hlist
      obtain rfl : '(' :: (inside ++ [')']) = list := by
        refine List.append_cancel_right (?_ : _ ++ rest = list ++ rest)
        rw [← hmiddle, List.cons_append, List.append_assoc]
        rfl
      refine ⟨?_, fun heq => absurd heq (List.cons_ne_nil _ _)⟩
      rw [bytes_append, bytes_cons, bytes_append]
      show offset + bytes symbol.write + bytes inside + 2 =
        offset + (bytes symbol.write + (1 + (bytes inside + 1)))
      omega

/-- Behind a symbol, a list that is refused breaks off there. -/
theorem breaks_of_readList (hend : EndsInSymbol front)
    (h : readList (bytes front) text = .error fault) : Breaks front text fault := by
  cases listCase text with
  | none hhead =>
    rw [readList_of_head?_ne hhead] at h
    cases h
  | unclosed hbody =>
    rw [readList_of_unclosed hbody] at h
    cases h
    exact .unclosed hend hbody
  | @closed inside rest hinside =>
    rw [readList_of_close hinside] at h
    cases hparams : readParams (bytes front + 1) (fields inside) with
    | ok params =>
      rw [hparams] at h
      cases h
    | error first =>
      rw [hparams] at h
      cases h
      obtain ⟨before, field, after, hfields, hbefore, hfield, rfl⟩ :=
        readParams_eq_error_iff.mp hparams
      have hparts := not_mem_of_mem_fields hinside
      rw [hfields] at hparts
      have hbroken := @Breaks.badNumber _ _ _ _ rest hend hparts hbefore hfield
      rw [← hfields, intercalate_fields, bytes_append_open] at hbroken
      exact hbroken

theorem breaks_of_readToken (hfront : Spells front word) (hblank : isBlank c = false)
    (hopen : EndsInSymbol front → c ≠ '(')
    (h : readToken (bytes front) c text = .error fault) :
    ∃ more rest word, c :: text = more ++ rest ∧ Spells (front ++ more) word ∧
      Breaks (front ++ more) rest fault := by
  cases hsymbol : readSymbol (bytes front) c text with
  | error first =>
    rw [readToken, hsymbol] at h
    cases h
    refine ⟨[], c :: text, word, rfl, by rwa [List.append_nil], ?_⟩
    rw [List.append_nil]
    rcases readSymbol_eq_error_iff.mp hsymbol with ⟨rfl, rfl, rfl⟩ | ⟨rfl, t, rest, rfl, ht, rfl⟩ |
      ⟨hbud, hnone, rfl⟩
    · exact .missingTag
    · exact .unknownTag ht
    · exact .unknownSymbol hblank hbud hnone hopen
  | ok part =>
    obtain ⟨symbol, middle⟩ := part
    have hword : Spells (front ++ symbol.write) (word ++ [⟨symbol, []⟩]) := by
      have htoken : Spells (symbol.write ++ [] ++ []) [⟨symbol, []⟩] :=
        .token (t := ⟨symbol, []⟩) .none .nil
      rw [List.append_nil, List.append_nil] at htoken
      exact hfront.append htoken
    have hend : EndsInSymbol (front ++ symbol.write) := symbol.endsInSymbol_write.behind front
    refine ⟨symbol.write, middle, _, readSymbol_eq_ok_iff.mp hsymbol, hword,
      breaks_of_readList hend ?_⟩
    rw [readToken, hsymbol] at h
    change Except.bind (readList (bytes front + bytes symbol.write) middle) _ = _ at h
    rw [← bytes_append] at h
    cases hlist : readList (bytes (front ++ symbol.write)) middle with
    | ok part =>
      rw [hlist] at h
      cases h
    | error first =>
      rw [hlist] at h
      cases h
      rfl

/-- What a text breaks off at stands behind a text that is read. -/
theorem breaks_of_readFrom (hfront : Spells front word)
    (hopen : EndsInSymbol front → text.head? ≠ some '(')
    (h : readFrom (bytes front) text = .error fault) :
    ∃ more rest word, text = more ++ rest ∧ Spells (front ++ more) word ∧
      Breaks (front ++ more) rest fault := by
  generalize hoffset : bytes front = offset at h
  fun_induction readFrom offset text generalizing front word with
  | case1 => cases h
  | case2 offset c rest hblank ih =>
    subst hoffset
    have hend : ¬ EndsInSymbol (front ++ [c]) := by
      rw [endsInSymbol_append (List.cons_ne_nil c [])]
      rintro ⟨_, hlast, hlast', _⟩
      cases hlast
      change isBlank c = false at hlast'
      rw [hblank] at hlast'
      cases hlast'
    obtain ⟨more, after, word', rfl, hword', hbreaks⟩ :=
      ih (hfront.append (.blank hblank .nil)) (fun hsymbol => absurd hsymbol hend)
        (by rw [bytes_append]; rfl) h
    rw [List.append_assoc] at hword' hbreaks
    exact ⟨c :: more, after, word', rfl, hword', hbreaks⟩
  | case3 offset c rest hblank first htoken =>
    subst hoffset
    cases h
    exact breaks_of_readToken hfront (Bool.eq_false_of_not_eq_true hblank)
      (fun hend heq => hopen hend (congrArg some heq)) htoken
  | case4 offset c text hblank t next rest htoken _ ih =>
    subst hoffset
    cases hmore : readFrom next rest with
    | ok more =>
      rw [hmore] at h
      cases h
    | error first =>
      rw [hmore] at h
      cases h
      obtain ⟨list, hcons, hlist, rfl, hbare⟩ := parts_of_readToken htoken
      have htoken : Spells (t.symbol.write ++ list) [t] := by
        rw [← List.append_nil (_ ++ list)]
        exact .token hlist .nil
      have hopen' : EndsInSymbol (front ++ (t.symbol.write ++ list)) → rest.head? ≠ some '(' := by
        intro hend
        refine hbare ?_
        by_contra hne
        rw [← List.append_assoc, endsInSymbol_append hne] at hend
        exact hlist.not_endsInSymbol hend
      obtain ⟨more, after, word', rfl, hword', hbreaks⟩ :=
        ih (hfront.append htoken) hopen' (bytes_append ..) hmore
      rw [List.append_assoc] at hword' hbreaks
      exact ⟨t.symbol.write ++ list ++ more, after, word', by rw [hcons, List.append_assoc _ more],
        hword', hbreaks⟩

/-- A text that ends in a symbol could be read up to that symbol. -/
theorem exists_symbol_of_endsInSymbol (h : Spells front word) (hend : EndsInSymbol front) :
    ∃ (u : List Char) (v : List Token) (symbol : Symbol),
      front = u ++ symbol.write ∧ Spells u v := by
  induction h with
  | nil =>
    obtain ⟨_, hlast, _⟩ := hend
    cases hlast
  | @blank c text word hc h ih =>
    by_cases hne : text = []
    · subst hne
      obtain ⟨_, hlast, hblank, _⟩ := hend
      cases hlast
      change isBlank c = false at hblank
      rw [hc] at hblank
      cases hblank
    · obtain ⟨u, v, symbol, rfl, hu⟩ := ih ((@endsInSymbol_append [c] _ hne).mp hend)
      exact ⟨c :: u, v, symbol, rfl, .blank hc hu⟩
  | @token list text t word hlist h ih =>
    obtain ⟨symbol, params⟩ := t
    by_cases hne : text = []
    · subst hne
      rw [List.append_nil] at hend ⊢
      by_cases hbare : list = []
      · subst hbare
        exact ⟨[], [], symbol, List.append_nil _, .nil⟩
      · exact absurd ((endsInSymbol_append hbare).mp hend) hlist.not_endsInSymbol
    · obtain ⟨u, v, last, rfl, hu⟩ := ih ((endsInSymbol_append hne).mp hend)
      exact ⟨symbol.write ++ list ++ u, _, last, (List.append_assoc ..).symm, .token hlist hu⟩

/-- Behind a text that is read, a symbol is refused as it is at the beginning, -/
theorem readFrom_of_symbol_behind (hfront : Spells front word)
    (hopen : EndsInSymbol front → c ≠ '(') (hblank : isBlank c = false)
    (h : readSymbol (bytes front) c text = .error fault) :
    readFrom 0 (front ++ c :: text) = .error fault := by
  have hhead : EndsInSymbol front → (c :: text).head? ≠ some '(' :=
    fun hend heq => hopen hend (Option.some.inj heq)
  rw [readFrom_behind hfront hhead, Nat.zero_add, readFrom_of_readSymbol_error hblank h]
  rfl

/-- and behind a symbol, so is its list. -/
theorem readFrom_of_list_behind (hfront : Spells front word) (hend : EndsInSymbol front)
    (h : readList (bytes front) ('(' :: text) = .error fault) :
    readFrom 0 (front ++ '(' :: text) = .error fault := by
  obtain ⟨u, v, symbol, rfl, hu⟩ := exists_symbol_of_endsInSymbol hfront hend
  obtain ⟨c, after, hcons, _, hopen, _⟩ := readSymbol_write 0 symbol ('(' :: text)
  have hhead : (symbol.write ++ '(' :: text).head? ≠ some '(' := by
    rw [hcons]
    exact fun heq => hopen (Option.some.inj heq)
  rw [bytes_append] at h
  rw [List.append_assoc, readFrom_append hu hhead, Nat.zero_add, readFrom_of_readList_error h]
  rfl

theorem readFrom_of_breaks (h : Breaks front rest fault) (hfront : Spells front word) :
    readFrom 0 (front ++ rest) = .error fault := by
  cases h with
  | unknownTag ht =>
    refine readFrom_of_symbol_behind hfront (fun _ => by decide) (by decide) ?_
    exact readSymbol_eq_error_iff.mpr (.inr (.inl ⟨rfl, _, _, rfl, ht, rfl⟩))
  | missingTag =>
    refine readFrom_of_symbol_behind hfront (fun _ => by decide) (by decide) ?_
    exact readSymbol_eq_error_iff.mpr (.inl ⟨rfl, rfl, rfl⟩)
  | unknownSymbol hblank hbud hsymbol hopen =>
    refine readFrom_of_symbol_behind hfront hopen hblank ?_
    exact readSymbol_eq_error_iff.mpr (.inr (.inr ⟨hbud, hsymbol, rfl⟩))
  | unclosed hend hbody =>
    exact readFrom_of_list_behind hfront hend (readList_of_unclosed hbody _)
  | @badNumber before after field rest hend hfields hbefore hfield =>
    refine readFrom_of_list_behind hfront hend ?_
    have hne : before ++ field :: after ≠ [] :=
      List.append_ne_nil_of_right_ne_nil _ (List.cons_ne_nil _ _)
    rw [readList_intercalate hne hfields,
      readParams_eq_error_iff.mpr ⟨before, field, after, rfl, hbefore, hfield, rfl⟩,
      bytes_append_open]
    rfl

end Token

theorem Text.intercalate_append (before after : List (List Char)) (field : List Char) :
    [','].intercalate (before ++ field :: after) =
      before.flatMap (· ++ [',']) ++ [','].intercalate (field :: after) := by
  induction before with
  | nil => rfl
  | cons part before ih =>
    obtain ⟨next, parts, hnext⟩ :=
      List.exists_cons_of_ne_nil (List.append_ne_nil_of_right_ne_nil before
        (List.cons_ne_nil field after))
    rw [List.cons_append, hnext, List.intercalate_cons_cons, ← hnext, ih, List.flatMap_cons,
      List.append_assoc _ _ ([','].intercalate _)]

/-- A fault names a byte at which a character of the text begins. -/
theorem Breaks.exists_offset (h : Breaks front rest fault) :
    ∃ more c after, rest = more ++ c :: after ∧ fault.offset = bytes (front ++ more) := by
  have hhere : ∀ {c : Char} {text : List Char}, fault.offset = bytes front →
      ∃ more c' after, c :: text = more ++ c' :: after ∧ fault.offset = bytes (front ++ more) :=
    fun hoffset => ⟨[], _, _, rfl, by rw [List.append_nil, hoffset]⟩
  cases h with
  | unknownTag | missingTag | unknownSymbol | unclosed => exact hhere rfl
  | @badNumber before after field rest =>
    obtain ⟨c, behind, hbehind⟩ := List.exists_cons_of_ne_nil
      (List.append_ne_nil_of_right_ne_nil ([','].intercalate (field :: after))
        (List.cons_ne_nil ')' rest))
    refine ⟨'(' :: before.flatMap (· ++ [',']), c, behind, ?_, rfl⟩
    rw [intercalate_append, List.append_assoc, hbehind]
    rfl

/-- **A text is refused where it breaks off, and for that reason**: in front of it stands a text that
is read. The byte that is named lies inside the text, and a character begins there. -/
theorem readWord_eq_error_iff {text : String} {fault : TextFault} :
    (readWord text = .error fault ↔
      ∃ front rest, text.toList = front ++ rest ∧ (∃ word, readWord (.ofList front) = .ok word) ∧
        Breaks front rest fault) ∧
    (readWord text = .error fault →
      ∃ front c rest, text.toList = front ++ c :: rest ∧ fault.offset = bytes front ∧
        fault.offset < text.utf8ByteSize) := by
  have hfronts : ∀ front, (∃ word, readWord (.ofList front) = .ok word) ↔
      ∃ word, Spells front word := by
    intro front
    simp only [readWord_eq_ok_iff.1, String.toList_ofList]
  have hbreaks : readWord text = .error fault →
      ∃ front rest, text.toList = front ++ rest ∧ (∃ word, readWord (.ofList front) = .ok word) ∧
        Breaks front rest fault := by
    intro h
    have hempty : EndsInSymbol [] → text.toList.head? ≠ some '(' := by
      rintro ⟨_, hlast, _⟩
      cases hlast
    obtain ⟨front, rest, word, hsplit, hword, hbreaks⟩ :=
      Token.breaks_of_readFrom .nil hempty h
    exact ⟨front, rest, hsplit, (hfronts front).mpr ⟨word, hword⟩, hbreaks⟩
  refine ⟨⟨hbreaks, ?_⟩, fun h => ?_⟩
  · rintro ⟨front, rest, hsplit, hread, hbroken⟩
    obtain ⟨word, hword⟩ := (hfronts front).mp hread
    rw [readWord, hsplit]
    exact Token.readFrom_of_breaks hbroken hword
  · obtain ⟨front, rest, hsplit, _, hbroken⟩ := hbreaks h
    obtain ⟨more, c, after, rfl, hoffset⟩ := hbroken.exists_offset
    refine ⟨front ++ more, c, after, by rw [hsplit, List.append_assoc], hoffset, ?_⟩
    have hpos := c.utf8Size_pos
    rw [hoffset, ← bytes_toList, hsplit, ← List.append_assoc, bytes_append _ (c :: after),
      bytes_cons]
    omega

/-- Of several faults the first one is named, behind blanks of two and three bytes. -/
theorem readWord_eq_error_field :
    readWord "\u3000F(1,\u2003x,y)A" = .error (.badNumber 7 "x") ∧
    ∃ front c rest, "\u3000F(1,\u2003x,y)A".toList = front ++ c :: rest ∧ 7 = bytes front ∧
      7 < "\u3000F(1,\u2003x,y)A".utf8ByteSize := by
  have hread : readWord "\u3000F" = .ok [.bare .forward] :=
    Token.readFrom_of_spells
      (.blank (by decide) (.token (t := .bare .forward) .none .nil)) 0
  have hnone : Single.read? (trim ['\u2003', 'x']) = none := by decide
  have hbreaks : Breaks "\u3000F".toList "(1,\u2003x,y)A".toList (.badNumber 7 "x") :=
    @Breaks.badNumber _ [['1']] [['y']] ['\u2003', 'x'] ['A']
      ⟨'F', rfl, by decide, by decide⟩ (by decide)
      (List.forall_mem_singleton.mpr ⟨1, by decide, by decide⟩)
      fun x hx => by cases hnone.symm.trans hx.1
  have herror := (@readWord_eq_error_iff "\u3000F(1,\u2003x,y)A" _).1.mpr
    ⟨_, _, by decide, ⟨_, hread⟩, hbreaks⟩
  exact ⟨herror, readWord_eq_error_iff.2 herror⟩

end Grapevine
