import Grapevine.Grammar.Derivation
import Grapevine.Token.Reader

/-! L-systems: a grammar together with constants that fit together, and the words it derives. -/
namespace Grapevine

open Grammar Chance

structure LSystem where
  config : Config
  grammar : Grammar
  valid : config.validate = .ok ()

namespace LSystem

/-- The system of a grammar, if the constants are usable. -/
def make (cfg : Config) (g : Grammar) : Except Fault LSystem :=
  match h : cfg.validate with
  | .ok () => .ok ⟨cfg, g, h⟩
  | .error fault => .error (.config fault)

/-- The system of the standard grammar that the constants name. -/
def standard (cfg : Config) : Except Fault LSystem := make cfg (.standard cfg.variant)

/-- What a word becomes in a number of generations. Every expansion starts the stream of random
words anew from the seed. -/
def expand (s : LSystem) (word : List Token) (generations : Nat) : Except Fault (List Token) :=
  (passes s.grammar s.config generations word).run' (.ofSeed s.config.seed)

/-- Reads a word, expands it, and writes the result. -/
def expandText (s : LSystem) (text : String) (generations : Nat) : Except Fault String := do
  let word ← (readWord text).mapError .text
  writeWord <$> s.expand word generations

/-- Expands the start of the grammar, and accepts only a word that is fully reduced. -/
def derive (s : LSystem) (generations : Nat) : Except Fault (List Token) := do
  let word ← s.expand [s.config.start] generations
  checkReduced word
  return word

end LSystem

end Grapevine
