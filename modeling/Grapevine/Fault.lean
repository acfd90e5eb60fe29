import Grapevine.Token

/-! What can go wrong between a text and a grown cluster, by cause, and the wording of each. -/
namespace Grapevine

open Number

/-- Why a text is no word. Offsets count bytes from the start of the text. -/
inductive TextFault where
  /-- `A` followed by a character that is no tag. -/
  | unknownTag (offset : Nat) (tag : Char)
  /-- `A` at the end of the text. -/
  | missingTag (offset : Nat)
  | unknownSymbol (offset : Nat) (symbol : Char)
  /-- A parenthesis that is not closed. -/
  | unclosed (offset : Nat)
  /-- A parameter that is not a finite number. -/
  | badNumber (offset : Nat) (text : String)
deriving DecidableEq, Repr

/-- Why the constants of a grammar do not fit together, or do not fit a token. -/
inductive ConfigFault where
  | depthZero
  /-- The main axis is deeper than the table of its laterals. -/
  | tableShort (entries depth needed : Nat)
  /-- A size range that is not finite or that ends before it starts. -/
  | sizeRange (low high : Float32)
  | baseNotFinite
  /-- A bud looked up a lateral that the table does not have. -/
  | noLateralDepth (entries : Nat) (depth : Int) (index : Nat)
  | segmentKind (kind : Int)
deriving DecidableEq

inductive Fault where
  | text (fault : TextFault)
  | config (fault : ConfigFault)
  /-- A production was given the wrong number of parameters. -/
  | arity (symbol : Symbol) (expected found : Nat)
  /-- A non-terminal for which the grammar has no production. -/
  | noProduction (symbol : Symbol)
  /-- A berry was to be drawn from a range whose length is not finite. -/
  | rangeTooWide (low high : Float32)
  /-- A non-terminal where only terminals can stand. -/
  | unreduced (index : Nat) (token : Token)
  /-- A branch that would nest deeper than the limit. -/
  | tooDeep (index limit : Nat)
deriving DecidableEq

/-- A number inside a message. -/
private def numeral (x : Float32) : String := String.ofList (Single.write x)

def TextFault.message : TextFault → String
  | unknownTag offset tag =>
    s!"Parse error at byte {offset}: unknown rule tag '{String.singleton tag}' after 'A'"
  | missingTag offset => s!"Parse error at byte {offset}: dangling 'A' without tag"
  | unknownSymbol offset symbol =>
    s!"Parse error at byte {offset}: unknown symbol '{String.singleton symbol}'"
  | unclosed offset => s!"Parse error at byte {offset}: unterminated parameter list"
  | badNumber offset text => s!"Invalid number '{text}' at byte {offset}"

def ConfigFault.message : ConfigFault → String
  | depthZero => "depth must be at least 1"
  | tableShort entries depth needed =>
    s!"child-count table has {entries} entries but depth {depth} needs {needed}"
  | sizeRange low high => s!"invalid berry size range ({numeral low}, {numeral high})"
  | baseNotFinite => "base length and width must be finite"
  | noLateralDepth entries depth index =>
    s!"child-count table has {entries} entries, depth {depth} needs index {index}"
  | segmentKind kind => s!"segment type must be 0 or 1, got {kind}"

def Fault.message : Fault → String
  | text fault => fault.message
  | config fault => s!"Grammar configuration error: {fault.message}"
  | arity symbol expected found =>
    s!"Rule '{String.ofList symbol.write}' expects {expected} parameter(s), got {found}"
  | noProduction symbol => s!"No production registered for '{String.ofList symbol.write}'"
  | rangeTooWide low high =>
    s!"No berry size can be drawn between {numeral low} and {numeral high}: the range is too wide"
  | unreduced index token =>
    s!"Unreduced non-terminal '{String.ofList token.write}' at token {index}"
  | tooDeep index limit => s!"Branch stack overflow at token {index}: depth limit {limit}"

end Grapevine
