import Grapevine.Grammar.Table

/-! Parallel derivation.

A pass replaces every non-terminal of a word at once: what it writes it does not read. Passes are
repeated for a number of generations, and stop early when no non-terminal is left. -/
namespace Grapevine

namespace Grammar

/-- What a token becomes in one pass: terminals stay as they are. -/
def replace (g : Grammar) (cfg : Config) (token : Token) : Draw (List Token) :=
  if token.isNonterminal then
    match g.get? token.symbol with
    | some production => production cfg token
    | none => throw (.noProduction token.symbol)
  else pure [token]

theorem replace_terminal (g : Grammar) (cfg : Config) {t : Token} (h : t.isNonterminal = false) :
    g.replace cfg t = pure [t] := by
  simp [replace, h]

/-- One pass, from left to right through the stream of random words. -/
def pass (g : Grammar) (cfg : Config) (word : List Token) : Draw (List Token) := do
  let parts ← word.mapM (replace g cfg)
  return parts.flatten

/-- As many passes as there are generations, fewer if the word is fully reduced before. -/
def passes (g : Grammar) (cfg : Config) : Nat → List Token → Draw (List Token)
  | 0, word => pure word
  | n + 1, word =>
    if word.any Token.isNonterminal then do
      let next ← pass g cfg word
      passes g cfg n next
    else pure word

end Grammar

/-- Accepts a word without non-terminals, and names the first one otherwise. -/
def checkReduced (word : List Token) : Except Fault Unit :=
  match word.zipIdx.find? (·.1.isNonterminal) with
  | some (token, index) => .error (.unreduced index token)
  | none => .ok ()

end Grapevine
