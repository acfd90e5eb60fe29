import Mathlib.Logic.Relation
import Mathlib.Data.List.Nodup
import Grapevine.Codec
import Grapevine.Proofs.Number.Passage

/-! Stored values, and what may be done to them.

A `Layout` tells which objects of a stored value stand for structures. Their members may be put in
another order and others put between them (`Rearranged`), but none that is required may be taken
away (`Stripped`), and that at any depth (`Edited`). A codec is `Faithful` if it takes its own
values back, gives the same for what was rearranged, and nothing for what was stripped. Codecs of
lists and structures are faithful if those of items and fields are. -/
namespace Grapevine

/-- A field of a structure, and what is stored in it. -/
structure Field (σ : Type) where
  name : String
  /-- Whether the structure is not taken without it. -/
  required : Bool
  layout : σ

/-- Where in a stored value the structures are. -/
inductive Layout where
  /-- Nowhere. -/
  | plain
  /-- In the items of a list. -/
  | items (each : Layout)
  /-- The value is a structure, with others perhaps in its fields. -/
  | record (fields : List (Field Layout))
  /-- In the data of a case, whose name is the one member of an object. -/
  | cases (all : List (String × Layout))

abbrev Members := List (String × Json)

/-- No object is in the value. -/
inductive Json.Bare : Json → Prop where
  | null : Bare .null
  | bool (b : Bool) : Bare (.bool b)
  | int (n : Int) : Bare (.int n)
  | real (x : Float) : Bare (.real x)
  | str (s : String) : Bare (.str s)
  | arr {items : List Json} (h : ∀ j ∈ items, Bare j) : Bare (.arr items)

namespace Layout

/-- The objects of a value are those of the layout. -/
inductive Fits : Layout → Json → Prop where
  | plain {j : Json} (h : j.Bare) : Fits .plain j
  | items {each : Layout} {items : List Json} (h : ∀ j ∈ items, Fits each j) :
      Fits (.items each) (.arr items)
  | record : Fits (.record []) (.obj [])
  | field {f : Field Layout} {fields : List (Field Layout)} {m : Members} {j : Json}
      (h : Fits f.layout j) (hrest : Fits (.record fields) (.obj m)) :
      Fits (.record (f :: fields)) (.obj ((f.name, j) :: m))
  | case {all : List (String × Layout)} {name : String} {layout : Layout} {j : Json}
      (hname : (name, layout) ∈ all) (h : Fits layout j) : Fits (.cases all) (.obj [(name, j)])
  | name {all : List (String × Layout)} (s : String) : Fits (.cases all) (.str s)

/-- One structure in a value, at any depth, has its members edited. Before the member that holds it
there is none of the same name. -/
inductive Edited (edit : List (Field Layout) → Members → Members → Prop) :
    Layout → Json → Json → Prop where
  | here {fields : List (Field Layout)} {m m' : Members} (h : edit fields m m') :
      Edited edit (.record fields) (.obj m) (.obj m')
  | field {fields : List (Field Layout)} {f : Field Layout} {before after : Members} {j j' : Json}
      (hf : f ∈ fields) (hbefore : ∀ p ∈ before, p.1 ≠ f.name) (h : Edited edit f.layout j j') :
      Edited edit (.record fields) (.obj (before ++ (f.name, j) :: after))
        (.obj (before ++ (f.name, j') :: after))
  | item {each : Layout} {before after : List Json} {j j' : Json} (h : Edited edit each j j') :
      Edited edit (.items each) (.arr (before ++ j :: after)) (.arr (before ++ j' :: after))
  | case {all : List (String × Layout)} {name : String} {layout : Layout} {j j' : Json}
      (hname : (name, layout) ∈ all) (h : Edited edit layout j j') :
      Edited edit (.cases all) (.obj [(name, j)]) (.obj [(name, j')])

/-- The members of a structure in another order, with members that are none of its fields. -/
def Rearranged (fields : List (Field Layout)) (m m' : Members) : Prop :=
  (m.map Prod.fst).Nodup ∧
    ∃ more : Members, m'.Perm (m ++ more) ∧ ∀ p ∈ more, ∀ f ∈ fields, p.1 ≠ f.name

/-- The members of a structure without a field that has to be there. -/
def Stripped (fields : List (Field Layout)) (m m' : Members) : Prop :=
  ∃ f ∈ fields, f.required = true ∧ m' = m.filter fun p => p.1 ≠ f.name

end Layout

open Layout

variable {α β : Type} {c : Codec α} {storable : α → Prop} {layout : Layout}
  {fields : List (Field Layout)} {m m' : Members} {name : String} {j j' : Json}

/-- A codec takes back what it stored, rearranged or not, but not what was stripped. -/
structure Codec.Faithful (c : Codec α) (storable : α → Prop) (layout : Layout) : Prop where
  fits : ∀ a, storable a → layout.Fits (c.encode a)
  decode_encode : ∀ a, storable a → c.decode (c.encode a) = some a
  rearranged : ∀ {j j'}, Edited Rearranged layout j j' → c.decode j' = c.decode j
  stripped : ∀ {j j'}, Edited Stripped layout j j' → c.decode j' = none

/-- What was stored has the objects of the layout. However often it is rearranged, it is taken back
as what it was, and it is not taken at all once it is stripped. -/
def Codec.Survives (c : Codec α) (storable : α → Prop) (layout : Layout) : Prop :=
  ∀ a, storable a → layout.Fits (c.encode a) ∧
    ∀ j, Relation.ReflTransGen (Edited Rearranged layout) (c.encode a) j →
      c.decode j = some a ∧ ∀ j', Edited Stripped layout j j' → c.decode j' = none

/-- What a faithful codec writes survives the edits that its layout allows, and no others. -/
theorem Codec.Faithful.survives (h : c.Faithful storable layout) : c.Survives storable layout := by
  intro a ha
  refine ⟨h.fits a ha, fun j hj => ⟨?_, fun j' => h.stripped⟩⟩
  induction hj with
  | refl => exact h.decode_encode a ha
  | tail _ hstep ih => rw [h.rearranged hstep, ih]

/-! ### Members -/

/-- The first member of a name is the one that is found. -/
theorem lookup_of_first {before after : Members} (h : ∀ p ∈ before, p.1 ≠ name) :
    (before ++ (name, j) :: after).lookup name = some j := by
  induction before with
  | nil => simp
  | cons p before ih =>
    obtain ⟨hp, hrest⟩ := List.forall_mem_cons.mp h
    rw [List.cons_append, List.lookup_cons, beq_eq_false_iff_ne.mpr hp.symm]
    exact ih hrest

theorem lookup_of_ne {before after : Members} {other : String} (h : other ≠ name) :
    (before ++ (name, j) :: after).lookup other = (before ++ after).lookup other := by
  induction before with
  | nil => rw [List.nil_append, List.lookup_cons, beq_eq_false_iff_ne.mpr h]; rfl
  | cons p before ih =>
    rw [List.cons_append, List.cons_append, List.lookup_cons, List.lookup_cons, ih]

theorem lookup_filter_ne (m : Members) (name : String) :
    (m.filter fun p => p.1 ≠ name).lookup name = none := by
  induction m with
  | nil => rfl
  | cons p m ih =>
    by_cases h : p.1 = name
    · rw [List.filter_cons_of_neg (by simpa using h), ih]
    · rw [List.filter_cons_of_pos (by simpa using h), List.lookup_cons,
        beq_eq_false_iff_ne.mpr (Ne.symm h)]
      exact ih

/-- Where each name stands once, look-up does not depend on the order. -/
theorem lookup_eq_some_iff_mem
    (hunique : ∀ j j', (name, j) ∈ m → (name, j') ∈ m → j = j') :
    m.lookup name = some j ↔ (name, j) ∈ m := by
  have hmem : ∀ {j}, m.lookup name = some j → (name, j) ∈ m := by
    intro j h
    obtain ⟨before, after, rfl, _⟩ := List.lookup_eq_some_iff.mp h
    exact List.mem_append_right _ (List.mem_cons_self ..)
  refine ⟨hmem, fun h => ?_⟩
  cases hlookup : m.lookup name with
  | none =>
    have hne := List.lookup_eq_none_iff.mp hlookup (name, j) h
    simp at hne
  | some j' => rw [hunique j j' h (hmem hlookup)]

/-- Names are looked up in any order, if they are different. -/
theorem Layout.Rearranged.lookup_eq (h : Rearranged fields m m') {f : Field Layout}
    (hf : f ∈ fields) : m'.lookup f.name = m.lookup f.name := by
  obtain ⟨hnodup, more, hperm, hmore⟩ := h
  have hmem : ∀ j, (f.name, j) ∈ m' ↔ (f.name, j) ∈ m := by
    intro j
    rw [hperm.mem_iff, List.mem_append, or_iff_left fun h => hmore _ h f hf rfl]
  have hunique : ∀ j j', (f.name, j) ∈ m → (f.name, j') ∈ m → j = j' := by
    intro j j' hj hj'
    exact congrArg Prod.snd (List.inj_on_of_nodup_map hnodup hj hj' rfl)
  apply Option.ext
  intro j
  rw [lookup_eq_some_iff_mem hunique, lookup_eq_some_iff_mem, hmem]
  intro j j' hj hj'
  exact hunique j j' ((hmem j).mp hj) ((hmem j').mp hj')

theorem optionalField_of_ne (c : Codec α) (h : m.lookup name = some j) (hj : j ≠ .null) :
    Codec.optionalField m name c = (c.decode j).map some := by
  rw [Codec.optionalField, h]
  cases j <;> first | rfl | exact absurd rfl hj

/-! ### Structures -/

/-- A field is as it was, up to the order of what is inside. -/
def Kept (f : Field Layout) (m m' : Members) : Prop :=
  m'.lookup f.name = m.lookup f.name ∨
    ∃ j j', m.lookup f.name = some j ∧ m'.lookup f.name = some j' ∧ Edited Rearranged f.layout j j'

/-- A field that has to be there is missing, or something inside of a field. -/
def Broken (f : Field Layout) (m : Members) : Prop :=
  (f.required = true ∧ m.lookup f.name = none) ∨
    ∃ j j', m.lookup f.name = some j' ∧ Edited Stripped f.layout j j'

theorem obj_of_edited {edit : List (Field Layout) → Members → Members → Prop}
    (h : Edited edit (.record fields) j j') : ∃ m, j = .obj m := by
  cases h <;> exact ⟨_, rfl⟩

/-- A rearranged record still has every field of its layout. -/
theorem kept_of_edited (hnames : (fields.map Field.name).Nodup)
    (h : Edited Rearranged (.record fields) (.obj m) j') :
    ∃ m', j' = .obj m' ∧ ∀ f ∈ fields, Kept f m m' := by
  cases h with
  | here h => exact ⟨_, rfl, fun f hf => .inl (h.lookup_eq hf)⟩
  | @field _ g before after x x' hg hbefore h =>
    refine ⟨_, rfl, fun f hf => ?_⟩
    by_cases hname : f.name = g.name
    · obtain rfl := List.inj_on_of_nodup_map hnames hf hg hname
      exact .inr ⟨x, x', lookup_of_first hbefore, lookup_of_first hbefore, h⟩
    · exact .inl (by rw [lookup_of_ne hname, lookup_of_ne hname])

/-- A stripped record lacks a field that it needs, or has a broken one. -/
theorem broken_of_edited (h : Edited Stripped (.record fields) j j') :
    ∃ m', j' = .obj m' ∧ ∃ f ∈ fields, Broken f m' := by
  cases h with
  | here h =>
    obtain ⟨f, hf, hrequired, rfl⟩ := h
    exact ⟨_, rfl, f, hf, .inl ⟨hrequired, lookup_filter_ne _ _⟩⟩
  | field hf hbefore h =>
    exact ⟨_, rfl, _, hf, .inr ⟨_, _, lookup_of_first hbefore, h⟩⟩

/-- What is read of members is read of these fields. -/
structure Reads (fields : List (Field Layout)) (read : Members → Option α) : Prop where
  kept : ∀ {m m'}, (∀ f ∈ fields, Kept f m m') → read m' = read m
  broken : ∀ {m}, (∃ f ∈ fields, Broken f m) → read m = none

namespace Reads

variable {rest : List (Field Layout)} {b : Codec β} {usable : β → Prop}

theorem nil (a : α) : Reads [] fun _ => pure a := ⟨fun _ => rfl, fun h => by simp at h⟩

/-- One field after the other is read, and each of them is needed. -/
theorem bind {f : Field Layout} {get : Members → Option β} {k : β → Members → Option α}
    (hkept : ∀ {m m'}, Kept f m m' → get m' = get m) (hbroken : ∀ {m}, Broken f m → get m = none)
    (hk : ∀ b, Reads rest (k b)) : Reads (f :: rest) fun m => get m >>= fun b => k b m where
  kept h := by
    obtain ⟨hfirst, hrest⟩ := List.forall_mem_cons.mp h
    simp only [hkept hfirst, (hk _).kept hrest]
  broken h := by
    simp only [List.mem_cons, exists_eq_or_imp] at h
    rcases h with hfirst | hrest
    · simp only [hbroken hfirst, Option.bind_eq_bind, Option.bind_none]
    · simp only [(hk _).broken hrest, Option.bind_eq_bind, Option.bind_fun_none]

/-- To read a required field, and then the rest, reads a record of one field more. -/
theorem field {k : β → Members → Option α} (name : String) (hb : b.Faithful usable layout)
    (hk : ∀ b, Reads rest (k b)) :
    Reads (⟨name, true, layout⟩ :: rest)
      fun m => Codec.field m name b >>= fun b => k b m := by
  have hfield : ∀ m, Codec.field m name b = (m.lookup name).bind b.decode := fun m => rfl
  refine bind (fun h => ?_) (fun h => ?_) hk
  · rw [hfield, hfield]
    rcases h with heq | ⟨j, j', hj, hj', h⟩
    · rw [heq]
    · rw [hj, hj']
      exact hb.rearranged h
  · rw [hfield]
    rcases h with ⟨_, hnone⟩ | ⟨j, j', hj', h⟩
    · rw [hnone]
      rfl
    · rw [hj']
      exact hb.stripped h

/-- A field that may be missing, with no structure in it. -/
theorem optionalField {k : Option β → Members → Option α} (name : String) (b : Codec β)
    (hk : ∀ b, Reads rest (k b)) :
    Reads (⟨name, false, .plain⟩ :: rest)
      fun m => Codec.optionalField m name b >>= fun b => k b m := by
  refine bind (fun h => ?_) (fun h => ?_) hk
  · rcases h with heq | ⟨_, _, _, _, h⟩
    · rw [Codec.optionalField, Codec.optionalField, heq]
    · cases h
  · rcases h with ⟨hrequired, _⟩ | ⟨_, _, _, h⟩
    · cases hrequired
    · cases h

end Reads

/-- The members stand for the value: they have the names of the fields, and it is read of them. -/
structure Writes (fields : List (Field Layout)) (m : Members) (read : Members → Option α) (a : α) :
    Prop where
  names : m.map Prod.fst = fields.map Field.name
  fits : (Layout.record fields).Fits (.obj m)
  reads : ∀ {all : Members}, (∀ p ∈ m, all.lookup p.1 = some p.2) → read all = some a

namespace Writes

variable {rest : List (Field Layout)} {b : Codec β} {usable : β → Prop} {x : β} {a : α}

theorem nil (a : α) : Writes [] [] (fun _ => pure a) a := ⟨rfl, .record, fun _ => rfl⟩

/-- What is written for a required field is read back. -/
theorem field {k : β → Members → Option α} (hb : b.Faithful usable layout) (hx : usable x)
    (hk : Writes rest m (k x) a) :
    Writes (⟨name, true, layout⟩ :: rest) ((name, b.encode x) :: m)
      (fun m => Codec.field m name b >>= fun b => k b m) a where
  names := congrArg (name :: ·) hk.names
  fits := .field (hb.fits x hx) hk.fits
  reads {all} h := by
    obtain ⟨hfirst, hrest⟩ := List.forall_mem_cons.mp h
    have hfield : Codec.field all name b = some x := by
      show (all.lookup name).bind b.decode = some x
      rw [hfirst]
      exact hb.decode_encode x hx
    simp only [hfield, Option.bind_eq_bind, Option.bind_some]
    exact hk.reads hrest

theorem optionalField {k : Option β → Members → Option α} {x : Option β}
    (hb : b.Faithful usable .plain) (hnull : ∀ y, b.encode y ≠ .null) (hx : ∀ y ∈ x, usable y)
    (hk : Writes rest m (k x) a) :
    Writes (⟨name, false, .plain⟩ :: rest) ((name, b.encodeOption x) :: m)
      (fun m => Codec.optionalField m name b >>= fun b => k b m) a where
  names := congrArg (name :: ·) hk.names
  fits := by
    refine .field ?_ hk.fits
    cases x with
    | none => exact .plain .null
    | some y => exact hb.fits y (hx y rfl)
  reads {all} h := by
    obtain ⟨hfirst, hrest⟩ := List.forall_mem_cons.mp h
    have hfield : Codec.optionalField all name b = some x := by
      cases x with
      | none =>
        rw [Codec.optionalField, hfirst]
        rfl
      | some y =>
        rw [optionalField_of_ne b hfirst (hnull y)]
        exact congrArg (Option.map some) (hb.decode_encode y (hx y rfl))
    simp only [hfield, Option.bind_eq_bind, Option.bind_some]
    exact hk.reads hrest

/-- What was written is read again, if no two fields share a name. -/
theorem read_eq {read : Members → Option α} (h : Writes fields m read a)
    (hnames : (fields.map Field.name).Nodup) : read m = some a := by
  have hnodup : (m.map Prod.fst).Nodup := h.names ▸ hnames
  refine h.reads fun p hp => (lookup_eq_some_iff_mem ?_).mpr hp
  intro j j' hj hj'
  exact congrArg Prod.snd (List.inj_on_of_nodup_map hnodup hj hj' rfl)

end Writes

/-! ### Faithful codecs -/

namespace Codec.Faithful

/-- What no structure is in can be neither rearranged nor stripped. -/
theorem plain (hfits : ∀ a, (c.encode a).Bare)
    (hround : ∀ a, storable a → c.decode (c.encode a) = some a) : c.Faithful storable .plain where
  fits a _ := .plain (hfits a)
  decode_encode := hround
  rearranged h := by cases h
  stripped h := by cases h

theorem natural (bits : Nat) : (Codec.natural bits).Faithful (· < 2 ^ bits) .plain := by
  refine plain (fun n => .int n) fun n hn => ?_
  have hrange : 0 ≤ (n : Int) ∧ (n : Int) < Nat.pow 2 bits :=
    ⟨Int.natCast_nonneg n, Int.ofNat_lt.mpr hn⟩
  exact if_pos hrange

theorem word64 : Codec.word64.Faithful (fun _ => True) .plain := by
  refine plain (fun n => .int _) fun n _ => ?_
  have hn := (natural 64).decode_encode n.toNat n.toNat_lt
  simp only [Codec.word64]
  rw [hn, Option.map_some, UInt64.ofNat_toNat]

theorem bare_single (x : Float32) : (Codec.single.encode x).Bare := by
  show Json.Bare (if x.isFinite then .real _ else .null)
  split
  · exact .real _
  · exact .null

theorem single : Codec.single.Faithful (·.isFinite = true) .plain := by
  refine plain bare_single fun x hx => ?_
  show Codec.single.decode (if x.isFinite then .real _ else .null) = some x
  rw [if_pos hx]
  exact congrArg some (Number.Double.toSingle_ofSingle hx)

theorem enumeration {all : List α} {name : α → String}
    (h : ∀ a, all.find? (fun b => name b = name a) = some a) :
    (Codec.enumeration all name).Faithful (fun _ => True) .plain :=
  plain (fun a => .str (name a)) fun a _ => h a

theorem list (hc : c.Faithful storable layout) :
    c.list.Faithful (fun xs => ∀ x ∈ xs, storable x) (.items layout) where
  fits xs hxs := .items (List.forall_mem_map.mpr fun x hx => hc.fits x (hxs x hx))
  decode_encode xs hxs := by
    show (xs.map c.encode).mapM c.decode = some xs
    induction xs with
    | nil => rfl
    | cons x xs ih =>
      obtain ⟨hx, hrest⟩ := List.forall_mem_cons.mp hxs
      rw [List.map_cons, List.mapM_cons, hc.decode_encode x hx, ih hrest]
      rfl
  rearranged h := by
    cases h with
    | item h =>
      show (_ ++ _ :: _).mapM c.decode = (_ ++ _ :: _).mapM c.decode
      rw [List.mapM_append, List.mapM_append, List.mapM_cons, List.mapM_cons, hc.rearranged h]
  stripped h := by
    cases h with
    | @item _ before _ _ _ h =>
      show (_ ++ _ :: _).mapM c.decode = none
      rw [List.mapM_append, List.mapM_cons, hc.stripped h]
      cases before.mapM c.decode <;> rfl

theorem array (hc : c.Faithful storable layout) :
    c.array.Faithful (fun xs => ∀ x ∈ xs, storable x) (.items layout) where
  fits xs hxs := hc.list.fits xs.toList fun x hx => hxs x (Array.mem_toList_iff.mp hx)
  decode_encode xs hxs := by
    show (c.list.decode (c.list.encode xs.toList)).map List.toArray = some xs
    rw [hc.list.decode_encode _ fun x hx => hxs x (Array.mem_toList_iff.mp hx)]
    rfl
  rearranged h := congrArg (Option.map List.toArray) (hc.list.rearranged h)
  stripped h := congrArg (Option.map List.toArray) (hc.list.stripped h)

/-- A fixed number of numbers. -/
theorem components {parts : α → List Float32} {ofParts? : List Float32 → Option α}
    (h : ∀ a, ofParts? (parts a) = some a) :
    (Codec.components parts ofParts?).Faithful (fun a => ∀ x ∈ parts a, x.isFinite = true)
      .plain := by
  refine plain (fun a => ?_) fun a ha => ?_
  · exact .arr (List.forall_mem_map.mpr fun x _ => bare_single x)
  · show (Codec.single.list.decode (Codec.single.list.encode (parts a))).bind ofParts? = some a
    rw [single.list.decode_encode _ ha]
    exact h a

/-- A structure is stored faithfully if it reads and writes the fields of its layout. -/
theorem record {names : List String} {read : Members → Option α}
    (hnames : (fields.map Field.name).Nodup)
    (hdecode : ∀ j, c.decode j = Codec.members? names j >>= read) (hreads : Reads fields read)
    (hwrites : ∀ a, storable a → ∃ m, c.encode a = .obj m ∧ Writes fields m read a) :
    c.Faithful storable (.record fields) where
  fits a ha := by
    obtain ⟨m, hm, hwrites⟩ := hwrites a ha
    exact hm ▸ hwrites.fits
  decode_encode a ha := by
    obtain ⟨m, hm, hwrites⟩ := hwrites a ha
    rw [hm, hdecode]
    exact hwrites.read_eq hnames
  rearranged h := by
    obtain ⟨m, rfl⟩ := obj_of_edited h
    obtain ⟨m', rfl, hkept⟩ := kept_of_edited hnames h
    rw [hdecode, hdecode]
    exact hreads.kept hkept
  stripped h := by
    obtain ⟨m', rfl, hbroken⟩ := broken_of_edited h
    rw [hdecode]
    exact hreads.broken hbroken

/-- Cases that are structures, each with fields of its own. -/
theorem cases {all : List (String × Layout)}
    (hcases : ∀ p ∈ all, ∃ fields, p.2 = .record fields ∧ (fields.map Field.name).Nodup ∧
      Reads fields fun m => c.decode (.obj [(p.1, .obj m)]))
    (hwrites : ∀ a, storable a → ∃ name fields m, (name, .record fields) ∈ all ∧
      c.encode a = .obj [(name, .obj m)] ∧
      Writes fields m (fun m => c.decode (.obj [(name, .obj m)])) a) :
    c.Faithful storable (.cases all) where
  fits a ha := by
    obtain ⟨name, fields, m, hname, hm, hwrites⟩ := hwrites a ha
    rw [hm]
    exact .case hname hwrites.fits
  decode_encode a ha := by
    obtain ⟨name, fields, m, hname, hm, hwrites⟩ := hwrites a ha
    obtain ⟨_, hlayout, hnames, _⟩ := hcases _ hname
    cases hlayout
    rw [hm]
    exact hwrites.read_eq hnames
  rearranged h := by
    cases h with
    | case hname h =>
      obtain ⟨fields, hlayout, hnames, hreads⟩ := hcases _ hname
      cases hlayout
      obtain ⟨m, rfl⟩ := obj_of_edited h
      obtain ⟨m', rfl, hkept⟩ := kept_of_edited hnames h
      exact hreads.kept hkept
  stripped h := by
    cases h with
    | case hname h =>
      obtain ⟨fields, hlayout, _, hreads⟩ := hcases _ hname
      cases hlayout
      obtain ⟨m', rfl, hbroken⟩ := broken_of_edited h
      exact hreads.broken hbroken

end Codec.Faithful

end Grapevine
