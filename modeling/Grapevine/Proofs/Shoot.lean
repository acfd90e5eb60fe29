import Mathlib
import Grapevine.Grammar.Production

/-! Shoots: what the buds of a cluster grow into, and the words that draw it.

A reduced word is a list of symbols; a `Shoot` is the part of the plant that it draws. Shoots say
where the tips of a cluster are and how deep its branches nest, and a walk along the word of a shoot
can be followed branch by branch. -/
namespace Grapevine

open Grammar

/-- A token that turns the turtle or sets its width, where it stands. -/
def Token.adjusts (t : Token) : Bool :=
  match t.symbol with
  | .bendLeft | .bendRight | .rollLeft | .rollRight | .pitchDown | .pitchUp | .width => true
  | _ => false

/-- One drawn segment, and the turns before it. -/
structure Stalk where
  lead : List Token
  length : Float32
  adjusts : ∀ t ∈ lead, t.adjusts = true

namespace Stalk

def word (s : Stalk) : List Token := s.lead ++ [⟨.forward, [s.length]⟩]

/-- The stalk with more turns before it. -/
def turned (turns : List Token) (h : ∀ t ∈ turns, t.adjusts = true) (s : Stalk) : Stalk :=
  ⟨turns ++ s.lead, s.length, List.forall_mem_append.mpr ⟨h, s.adjusts⟩⟩

theorem word_turned (turns : List Token) (h : ∀ t ∈ turns, t.adjusts = true) (s : Stalk) :
    (s.turned turns h).word = turns ++ s.word := List.append_assoc ..

end Stalk

/-- A stalk with a berry at its end. -/
structure Pedicel where
  stalk : Stalk
  /-- A `%` swallows the berry. -/
  swallowed : Bool
  size : Float32

namespace Pedicel

def word (p : Pedicel) : List Token :=
  p.stalk.word ++ (if p.swallowed then [.bare .skip] else []) ++ [⟨.berry, [p.size]⟩]

def turned (turns : List Token) (h : ∀ t ∈ turns, t.adjusts = true) (p : Pedicel) : Pedicel :=
  { p with stalk := p.stalk.turned turns h }

theorem word_turned (turns : List Token) (h : ∀ t ∈ turns, t.adjusts = true) (p : Pedicel) :
    (p.turned turns h).word = turns ++ p.word := by
  show (p.stalk.turned turns h).word ++ _ ++ _ = _
  rw [Stalk.word_turned, List.append_assoc, List.append_assoc, word, List.append_assoc]
  rfl

end Pedicel

inductive Shoot where
  /-- A last internode, which fans out into three pedicels. -/
  | tip (stalk : Stalk) (first second third : Pedicel)
  /-- An internode that two shoots leave. -/
  | fork (stalk : Stalk) (first second : Shoot)

namespace Shoot

def word : Shoot → List Token
  | tip stalk first second third =>
    stalk.word ++ branch first.word ++ branch second.word ++ branch third.word
  | fork stalk first second => stalk.word ++ branch first.word ++ branch second.word

def turned (turns : List Token) (h : ∀ t ∈ turns, t.adjusts = true) : Shoot → Shoot
  | tip stalk first second third => tip (stalk.turned turns h) first second third
  | fork stalk first second => fork (stalk.turned turns h) first second

theorem word_turned (turns : List Token) (h : ∀ t ∈ turns, t.adjusts = true) (s : Shoot) :
    (s.turned turns h).word = turns ++ s.word := by
  cases s <;> simp only [word, turned, Stalk.word_turned, List.append_assoc]

/-- How many ends of axes there are. -/
def tips : Shoot → Nat
  | tip .. => 1
  | fork _ first second => first.tips + second.tips

/-- A shoot ends in at least one tip. -/
theorem tips_pos (s : Shoot) : 0 < s.tips := by
  induction s with
  | tip => exact Nat.one_pos
  | fork _ _ _ ih _ => exact Nat.add_pos_left ih _

@[simp] theorem tips_turned (turns : List Token) (h : ∀ t ∈ turns, t.adjusts = true) (s : Shoot) :
    (s.turned turns h).tips = s.tips := by
  cases s <;> rfl

/-- How many brackets are open where most are. -/
def nesting : Shoot → Nat
  | tip .. => 1
  | fork _ first second => max first.nesting second.nesting + 1

@[simp] theorem nesting_turned (turns : List Token) (h : ∀ t ∈ turns, t.adjusts = true)
    (s : Shoot) : (s.turned turns h).nesting = s.nesting := by
  cases s <;> rfl

/-- The end of a drawn segment, by what leaves it. -/
inductive Joint where
  /-- Two shoots. -/
  | internode
  /-- Three pedicels. -/
  | tip
  /-- Nothing but a berry, which may have been swallowed. -/
  | pedicel (swallowed : Bool)
deriving DecidableEq

/-- The ends of all segments, in the order in which they are drawn. -/
def joints : Shoot → List Joint
  | tip _ first second third =>
    [.tip, .pedicel first.swallowed, .pedicel second.swallowed, .pedicel third.swallowed]
  | fork _ first second => .internode :: first.joints ++ second.joints

@[simp] theorem joints_turned (turns : List Token) (h : ∀ t ∈ turns, t.adjusts = true)
    (s : Shoot) : (s.turned turns h).joints = s.joints := by
  cases s <;> rfl

end Shoot

end Grapevine
