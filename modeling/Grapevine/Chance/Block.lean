/-! Blocks of pseudo-random words: the ChaCha permutation with twelve rounds, keyed by eight words
and numbered by a 64-bit counter. -/
namespace Grapevine.Chance

abbrev Key := Vector UInt32 8

abbrev Block := Vector UInt32 16

def rotateLeft (x k : UInt32) : UInt32 := (x <<< k) ||| (x >>> (32 - k))

def rotateRight (x k : UInt32) : UInt32 := (x >>> k) ||| (x <<< (32 - k))

namespace Block

/-- Adds word `b` to word `a`, and the sum into word `d`, which is then rotated. -/
def stir (a b d : Fin 16) (k : UInt32) (s : Block) : Block :=
  let s := s.set a (s[a] + s[b])
  s.set d (rotateLeft (s[d] ^^^ s[a]) k)

def quarterRound (a b c d : Fin 16) (s : Block) : Block :=
  s |> stir a b d 16 |> stir c d b 12 |> stir a b d 8 |> stir c d b 7

/-- A round on the columns of the four by four square, and one on its diagonals. -/
def doubleRound (s : Block) : Block :=
  s |> quarterRound 0 4 8 12 |> quarterRound 1 5 9 13 |> quarterRound 2 6 10 14
    |> quarterRound 3 7 11 15 |> quarterRound 0 5 10 15 |> quarterRound 1 6 11 12
    |> quarterRound 2 7 8 13 |> quarterRound 3 4 9 14

/-- The constants, the key, the counter with its low half first, and a nonce of zero. -/
def initial (key : Key) (counter : UInt64) : Block :=
  #v[0x61707865, 0x3320646e, 0x79622d32, 0x6b206574,
    key[0], key[1], key[2], key[3], key[4], key[5], key[6], key[7],
    counter.toUInt32, (counter >>> 32).toUInt32, 0, 0]

/-- The block of a counter: the initial words, mixed, and added to themselves unmixed. -/
def ofCounter (key : Key) (counter : UInt64) : Block :=
  let start := initial key counter
  (Nat.repeat doubleRound 6 start).zipWith (· + ·) start

end Block

end Grapevine.Chance
