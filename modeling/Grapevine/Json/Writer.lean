import Grapevine.Json

/-! Writing JSON text, without spaces. -/
namespace Grapevine.Json

open Number

/-- The characters for which a string needs an escape: the quote, the backslash, and those below
the space. -/
def escape (c : Char) : List Char :=
  if c = '"' then ['\\', '"']
  else if c = '\\' then ['\\', '\\']
  else if c.toNat < 0x20 then
    ['\\', 'u', '0', '0', Nat.digitChar (c.toNat / 16), Nat.digitChar (c.toNat % 16)]
  else [c]

def writeString (s : String) : String :=
  "\"" ++ String.ofList (s.toList.flatMap escape) ++ "\""

/-- A real has a point, which tells it from a whole number; what is not finite is written `null`. -/
def writeReal (x : Float) : String :=
  if Binary.infinity Double.format ≤ Double.pattern x then "null"
  else
    let text := Double.write x
    String.ofList (if text.contains '.' then text else text ++ ['.', '0'])

mutual

def write : Json → String
  | null => "null"
  | bool true => "true"
  | bool false => "false"
  | int n => n.repr
  | real x => writeReal x
  | str s => writeString s
  | arr items => "[" ++ String.intercalate "," (writeItems items) ++ "]"
  | obj members => "\x7b" ++ String.intercalate "," (writeMembers members) ++ "\x7d"

def writeItems : List Json → List String
  | [] => []
  | item :: more => write item :: writeItems more

def writeMembers : List (String × Json) → List String
  | [] => []
  | (name, value) :: more => (writeString name ++ ":" ++ write value) :: writeMembers more

end

end Grapevine.Json
