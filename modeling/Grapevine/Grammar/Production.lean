import Grapevine.Grammar.Config
import Grapevine.Chance.Uniform

/-! Productions: how one non-terminal is replaced. -/
namespace Grapevine.Grammar

open Chance

/-- What may fail, and may draw from the stream of random words. -/
abbrev Draw := StateT Keystream (Except Fault)

/-- The replacement of a non-terminal under the constants of a grammar. -/
abbrev Production := Config → Token → Draw (List Token)

/-- A replacement that draws nothing. -/
abbrev Rule := Config → Token → Except Fault (List Token)

/-- A rule as a production leaves the stream as it is. -/
def Rule.production (rule : Rule) : Production := fun cfg token s =>
  (rule cfg token).map fun word => (word, s)

/-- A berry size: the one size of an empty range, without a draw, and a draw from any other. -/
def berrySize (cfg : Config) : Draw Float32 := fun s =>
  let ⟨low, high⟩ := cfg.berrySizes
  if ¬ low < high then .ok (low, s)
  else if (high - low).isFinite then .ok (draw low high s)
  else .error (.rangeTooWide low high)

/-- A side branch: what it holds, between a saved and a restored cursor. -/
def branch (word : List Token) : List Token :=
  .bare .push :: word ++ [.bare .pop]

end Grapevine.Grammar
