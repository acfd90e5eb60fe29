import Grapevine.Number.Double
import Grapevine.Number.Shortest

/-! Numbers as text.

A decimal is written positionally, without an exponent and without a point where it is whole. It
is read with at most one point, digits on at least one side of it, and an exponent after `e` or
`E`. Floating point adds a sign, `inf` and `NaN`. -/
namespace Grapevine.Number

namespace Decimal

/-- Positional text: at least one digit before the point, no point in a whole number. -/
def write (d : Decimal) : List Char :=
  let digits := Nat.toDigits 10 d.digits
  if 0 ≤ d.exponent then digits ++ List.replicate d.exponent.toNat '0'
  else
    let places := (-d.exponent).toNat
    let padded := List.replicate (places + 1 - digits.length) '0' ++ digits
    padded.take (padded.length - places) ++ '.' :: padded.drop (padded.length - places)

/-- The natural number that a run of digits denotes. -/
def ofDigits (digits : List Char) : Nat :=
  digits.foldl (fun n c => 10 * n + (c.toNat - '0'.toNat)) 0

/-- A sign, if there is one, and what follows it. -/
def splitSign : List Char → Bool × List Char
  | '-' :: rest => (true, rest)
  | '+' :: rest => (false, rest)
  | rest => (false, rest)

/-- An exponent: a sign, if there is one, and at least one digit. -/
def readExponent? (text : List Char) : Option Int :=
  let (negative, digits) := splitSign text
  if digits.isEmpty || !digits.all Char.isDigit then none
  else if negative then some (-(ofDigits digits : Int)) else some (ofDigits digits)

/-- The digits after a point, if a point is next, and what follows them. -/
def splitFraction : List Char → List Char × List Char
  | '.' :: rest => (rest.takeWhile Char.isDigit, rest.dropWhile Char.isDigit)
  | rest => ([], rest)

/-- An unsigned decimal. -/
def read? (text : List Char) : Option Decimal :=
  let whole := text.takeWhile Char.isDigit
  let (fraction, rest) := splitFraction (text.dropWhile Char.isDigit)
  if whole.isEmpty && fraction.isEmpty then none
  else
    let digits := ofDigits (whole ++ fraction)
    match rest with
    | [] => some ⟨digits, -fraction.length⟩
    | c :: rest =>
      if c = 'e' || c = 'E' then
        (readExponent? rest).map fun e => ⟨digits, e - fraction.length⟩
      else none

end Decimal

/-- The shortest positional text that reads back, from a sign and a pattern, with `-` also before
zero. -/
def Binary.write (f : Float.Model.Format) (negative : Bool) (p : Nat) : List Char :=
  if infinity f < p then ['N', 'a', 'N']
  else
    (if negative then ['-'] else []) ++
      if p = infinity f then ['i', 'n', 'f'] else (Decimal.shortest f p).write

namespace Single

def write (x : Float32) : List Char := Binary.write format (negative x) (pattern x)

/-- Reads a decimal with an optional sign, or `inf`, `infinity` or `nan` in letters of either case,
and rounds it once. -/
def read? (text : List Char) : Option Float32 :=
  let (negative, body) := Decimal.splitSign text
  let word := String.ofList (body.map Char.toLower)
  if word = "inf" || word = "infinity" then some (ofPattern negative (Binary.infinity format))
  else if word = "nan" then some notANumber
  else (Decimal.read? body).map fun d => ofPattern negative (d.nearest format)

end Single

namespace Double

def write (x : Float) : List Char := Binary.write format (negative x) (pattern x)

/-- The number nearest to a signed decimal. -/
def ofDecimal (negative : Bool) (d : Decimal) : Float :=
  ofPattern negative (d.nearest format)

end Double

end Grapevine.Number
