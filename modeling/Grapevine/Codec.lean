import Grapevine.Json

/-! Codecs: how the values of a type are stored as JSON.

A structure is stored as an object with a member for each field. It is taken from any object that
has those members, in any order and among others, or from an array of exactly its fields in order.
A case without data is stored as its name, and is also taken from an object that holds the name
with `null`. -/
namespace Grapevine

open Number

structure Codec (α : Type) where
  encode : α → Json
  decode : Json → Option α

namespace Codec

variable {α : Type}

/-- A natural number of at most so many bits. -/
def natural (bits : Nat) : Codec Nat where
  encode n := .int n
  decode
    | .int n => if 0 ≤ n ∧ n < Nat.pow 2 bits then some n.toNat else none
    | _ => none

def word64 : Codec UInt64 where
  encode n := (natural 64).encode n.toNat
  decode j := ((natural 64).decode j).map UInt64.ofNat

/-- A number in single precision, stored in double precision; what is not finite is stored as
`null`, and not taken from it. A whole number is rounded once, a real from double precision. -/
def single : Codec Float32 where
  encode x := if x.isFinite then .real (Double.ofSingle x) else .null
  decode
    | .int n => some (Single.ofInt n)
    | .real x => some (Double.toSingle x)
    | _ => none

def list (c : Codec α) : Codec (List α) where
  encode xs := .arr (xs.map c.encode)
  decode
    | .arr items => items.mapM c.decode
    | _ => none

def array (c : Codec α) : Codec (Array α) where
  encode xs := c.list.encode xs.toList
  decode j := (c.list.decode j).map List.toArray

/-- A fixed number of numbers, stored as a list without names. -/
def components (parts : α → List Float32) (ofParts? : List Float32 → Option α) : Codec α where
  encode a := single.list.encode (parts a)
  decode j := do ofParts? (← single.list.decode j)

/-- The name of a case without data: a string, or an object that holds the name with `null`. -/
def caseName? : Json → Option String
  | .str name => some name
  | .obj [(name, .null)] => some name
  | _ => none

/-- One of finitely many values, by name. -/
def enumeration (all : List α) (name : α → String) : Codec α where
  encode a := .str (name a)
  decode j := do
    let n ← caseName? j
    all.find? fun a => name a = n

/-! ### Structures -/

/-- The members that a structure is taken from: those of an object, or the items of an array with
the names they stand for. -/
def members? (names : List String) : Json → Option (List (String × Json))
  | .obj members => some members
  | .arr items => if items.length = names.length then some (names.zip items) else none
  | _ => none

/-- A field that has to be there. -/
def field (members : List (String × Json)) (name : String) (c : Codec α) : Option α := do
  c.decode (← members.lookup name)

/-- A field that may be missing or `null`. -/
def optionalField (members : List (String × Json)) (name : String) (c : Codec α) :
    Option (Option α) :=
  match members.lookup name with
  | none | some .null => some none
  | some j => (c.decode j).map some

def encodeOption (c : Codec α) : Option α → Json
  | some a => c.encode a
  | none => .null

end Codec

end Grapevine
