import Grapevine.Number.Text
import Grapevine.Symbol

/-! Tokens: symbols with their numbers, and how a word of them is written. -/
namespace Grapevine

open Number

structure Token where
  symbol : Symbol
  params : List Float32
deriving DecidableEq, Inhabited

namespace Token

/-- A token without parameters. -/
def bare (symbol : Symbol) : Token := ⟨symbol, []⟩

/-- A bud with its parameters. -/
def bud (tag : Tag) (params : List Float32) : Token := ⟨.bud tag, params⟩

def isNonterminal (t : Token) : Bool := t.symbol.isNonterminal

/-- The parameter at a position, or the given number if there is none. -/
def paramD (t : Token) (i : Nat) (default : Float32) : Float32 := t.params.getD i default

/-- The parameters between commas. -/
def writeParams (params : List Float32) : List Char :=
  (params.map Single.write).intersperse [','] |>.flatten

/-- The symbol, and its parameters in parentheses if there are any. -/
def write (t : Token) : List Char :=
  if t.params.isEmpty then t.symbol.write
  else t.symbol.write ++ '(' :: writeParams t.params ++ [')']

end Token

/-- A word is written token after token, with nothing in between. -/
def writeWord (word : List Token) : String :=
  String.ofList (word.flatMap Token.write)

theorem toList_writeWord (word : List Token) :
    (writeWord word).toList = word.flatMap Token.write := String.toList_ofList

end Grapevine
