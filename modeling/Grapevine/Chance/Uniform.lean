import Grapevine.Chance.Keystream

/-! Numbers drawn evenly from a range. -/
namespace Grapevine.Chance

/-- A number of at least 0 and less than 1, from the upper 23 bits of a word: they become the
fraction of a number between 1 and 2. -/
def fraction (word : UInt32) : Float32 := .ofBits ((0x3f800000 : UInt32) ||| (word >>> 9)) - 1

/-- How often a draw is repeated. Of all words at least an eighth hit, however narrow the range is,
so that there is hardly a stream on which 256 words in a row do not. -/
def attempts : Nat := 256

/-- A number of at least `low` and less than `high`. Rounding can turn a draw into `high` itself,
and then the next word is tried; should the attempts be used up, the answer is `low`. -/
def drawWithin (low high : Float32) : Nat → Keystream → Float32 × Keystream
  | 0, s => (low, s)
  | n + 1, s =>
    let x := fraction s.word * (high - low) + low
    if x < high then (x, s.next) else drawWithin low high n s.next

/-- A draw from a range. -/
def draw (low high : Float32) (s : Keystream) : Float32 × Keystream :=
  drawWithin low high attempts s

end Grapevine.Chance
