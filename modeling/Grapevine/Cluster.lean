import Grapevine.LSystem
import Grapevine.Skeleton.Wireframe
import Grapevine.Turtle.Walk

/-! Growing a cluster: the start of a grammar is expanded until it is reduced, and the turtle walks
the result. -/
namespace Grapevine

namespace Cluster

/-- All that one cluster is grown from. -/
structure Config where
  grammar : Grammar.Config
  turtle : Turtle.Config
  /-- How many passes the start is expanded by. -/
  generations : Nat
deriving DecidableEq

namespace Config

/-- The flat cluster, whose rolls are quarter turns. -/
def planar : Config := ⟨.planar, { rollStep := 90 }, 10⟩

/-- The cluster in space, whose rolls are sixths of a turn. -/
def phyllotactic : Config := ⟨.phyllotactic, { rollStep := 60 }, 15⟩

instance : Inhabited Config := ⟨planar⟩

end Config

end Cluster

/-- A grown cluster: the word that was walked, and what the walk left behind. -/
structure Growth where
  word : List Token
  trail : Turtle.Trail
deriving DecidableEq, Inhabited

/-- The skeleton of a grown cluster as lines and spheres. -/
def Growth.wireframe (g : Growth) : Wireframe :=
  .ofSkeleton g.trail.skeleton Wireframe.defaultScale

/-- Grows a cluster. -/
def grow (cfg : Cluster.Config) : Except Fault Growth := do
  let system ← LSystem.standard cfg.grammar
  let word ← system.derive cfg.generations
  let trail ← Turtle.walk cfg.turtle word
  return ⟨word, trail⟩

end Grapevine
