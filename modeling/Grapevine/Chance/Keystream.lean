import Grapevine.Chance.Block

/-! A stream of pseudo-random words, as the key and a position in it: what a stream yields is a
function of the two, and reading moves the position alone. -/
namespace Grapevine.Chance

structure Keystream where
  key : Key
  position : Nat

namespace Keystream

/-- One step of the generator that spreads a seed over the words of a key. -/
def spread (s : UInt64) : UInt64 := s * 6364136223846793005 + 11634580027462260723

/-- The word that a state of that generator shows: folded to 32 bits, and rotated right by the five
bits on top. -/
def fold (s : UInt64) : UInt32 :=
  let x := (((s >>> 18) ^^^ s) >>> 27).toUInt32
  rotateRight x (s >>> 59).toUInt32

/-- The stream of a seed, from its start. -/
def ofSeed (seed : UInt64) : Keystream where
  key := .ofFn fun i => fold (Nat.repeat spread (i + 1) seed)
  position := 0

/-- The word at the current position. -/
def word (s : Keystream) : UInt32 :=
  (Block.ofCounter s.key (UInt64.ofNat (s.position / 16)))[s.position % 16]

/-- The stream behind the current word. -/
def next (s : Keystream) : Keystream := { s with position := s.position + 1 }

end Keystream

end Grapevine.Chance
