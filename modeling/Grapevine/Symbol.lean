/-! The alphabet of the plant's words.

A word is drawn by terminal symbols and grows at two kinds of non-terminal: *buds*, written `A` and
a tag that says which part of the cluster they become, and *segments*, written `E`. -/
namespace Grapevine

/-- What a bud grows into. -/
inductive Tag where
  /-- The internode that the cluster hangs from. -/
  | root
  /-- A lateral axis. -/
  | secondary
  /-- The end of an axis, which fans out into pedicels. -/
  | tip
  /-- A stalk with a berry. -/
  | pedicel
  /-- The four azimuths that a main axis turns through, in the order c, v, b, n. -/
  | faceC | faceV | faceB | faceN
deriving DecidableEq, Repr, Inhabited

namespace Tag

/-- Every tag, in table order. -/
def all : List Tag := [root, secondary, tip, pedicel, faceC, faceV, faceB, faceN]

def char : Tag → Char
  | root => 'r'
  | secondary => 'f'
  | tip => 'e'
  | pedicel => 'p'
  | faceC => 'c'
  | faceV => 'v'
  | faceB => 'b'
  | faceN => 'n'

def ofChar? : Char → Option Tag
  | 'r' => some root
  | 'f' => some secondary
  | 'e' => some tip
  | 'p' => some pedicel
  | 'c' => some faceC
  | 'v' => some faceV
  | 'b' => some faceB
  | 'n' => some faceN
  | _ => none

/-- The position in `all`. -/
def index : Tag → Nat
  | root => 0
  | secondary => 1
  | tip => 2
  | pedicel => 3
  | faceC => 4
  | faceV => 5
  | faceB => 6
  | faceN => 7

theorem ofChar?_char (t : Tag) : ofChar? t.char = some t := by cases t <;> rfl

theorem all_getElem?_index (t : Tag) : all[t.index]? = some t := by cases t <;> rfl

theorem index_inj {s t : Tag} (h : s.index = t.index) : s = t := by
  have := all_getElem?_index s
  rw [h, all_getElem?_index t] at this
  exact (Option.some.inj this).symm

end Tag

inductive Symbol where
  /-- `F`: grow a segment along the heading. -/
  | forward
  /-- `S`: hang a berry on the current node. -/
  | berry
  /-- `E`: an oriented, tapering segment, still to be replaced. -/
  | segment
  /-- `A` and a tag: a place where the plant still grows. -/
  | bud (tag : Tag)
  /-- `+` and `-`: turn about the bend axis. -/
  | bendLeft | bendRight
  /-- `/` and `_`: turn about the roll axis. -/
  | rollLeft | rollRight
  /-- `&` and `^`: turn about the pitch axis. -/
  | pitchDown | pitchUp
  /-- `[`: save the cursor. -/
  | push
  /-- `]`: go back to the cursor saved last. -/
  | pop
  /-- `%`: swallow the next token. -/
  | skip
  /-- `!`: set the width. -/
  | width
deriving DecidableEq, Repr, Inhabited

namespace Symbol

/-- Non-terminals have to be replaced before a word can be drawn. -/
def isNonterminal : Symbol → Bool
  | bud _ | segment => true
  | _ => false

def write : Symbol → List Char
  | forward => ['F']
  | berry => ['S']
  | segment => ['E']
  | bud tag => ['A', tag.char]
  | bendLeft => ['+']
  | bendRight => ['-']
  | rollLeft => ['/']
  | rollRight => ['_']
  | pitchDown => ['&']
  | pitchUp => ['^']
  | push => ['[']
  | pop => [']']
  | skip => ['%']
  | width => ['!']

/-- The symbols of one character; a bud takes two. -/
def ofChar? : Char → Option Symbol
  | 'F' => some forward
  | 'S' => some berry
  | 'E' => some segment
  | '+' => some bendLeft
  | '-' => some bendRight
  | '/' => some rollLeft
  | '_' => some rollRight
  | '&' => some pitchDown
  | '^' => some pitchUp
  | '[' => some push
  | ']' => some pop
  | '%' => some skip
  | '!' => some width
  | _ => none

end Symbol

end Grapevine
