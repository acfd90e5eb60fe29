import Grapevine.Number.Text

/-! JSON values. Whole numbers and reals are told apart: `1` is whole, `1.0` and `1e0` are reals. -/
namespace Grapevine

inductive Json where
  | null
  | bool (b : Bool)
  | int (n : Int)
  | real (x : Float)
  | str (s : String)
  | arr (items : List Json)
  /-- Members in the order of the text. -/
  | obj (members : List (String × Json))
deriving Inhabited

namespace Json

/-- The member of an object with a given name. -/
def member? (name : String) : Json → Option Json
  | obj members => members.lookup name
  | _ => none

end Json

end Grapevine
