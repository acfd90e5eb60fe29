import Grapevine.Proofs.Grammar.Lockstep

/-! Tables as maps.

A table has slots at the positions of the tags, as many as were needed so far; what can be looked up
in it is a map from symbols to productions. One registration changes this map at one symbol
(`Grammar.get?_register`), so that after any number of them a symbol has the production that was
registered last for it, or else the one it had (`Grammar.get?_registerAll`). Derivations only look
up, and do not see the slots (`LSystem.expand_eq_of_get?`).

Tables are values, so it is all one whether a production is registered in place or on a copy. -/
namespace Grapevine

open Chance Grammar

namespace Grammar

/-- One entry in a table. -/
inductive Registration where
  | bud (tag : Tag) (production : Production)
  | segment (production : Production)

namespace Registration

/-- The symbol that gets the production. -/
def symbol : Registration → Symbol
  | bud tag _ => .bud tag
  | segment _ => .segment

def production : Registration → Production
  | bud _ production => production
  | segment production => production

end Registration

variable {g g' : Grammar} {t : Tag} {s : Symbol}

def register (g : Grammar) : Registration → Grammar
  | .bud tag production => g.insert tag production
  | .segment production => g.insertSegment production

/-- One registration after the other. -/
def registerAll (g : Grammar) (rs : List Registration) : Grammar := rs.foldl register g

/-- The production that was registered last for a symbol, if any was. -/
def lastFor (rs : List Registration) (s : Symbol) : Option Production :=
  (rs.filter fun r => r.symbol = s).getLast?.map Registration.production

/-! ### Registrations -/

/-- A registration sets the production of its symbol and leaves those of all others. -/
theorem get?_register (g : Grammar) (r : Registration) (s : Symbol) :
    (g.register r).get? s = if r.symbol = s then some r.production else g.get? s := by
  cases r with
  | bud tag production =>
    by_cases h : Symbol.bud tag = s
    · subst h
      exact (get?_insert_self g tag production).trans (if_pos rfl).symm
    · refine Eq.trans ?_ (if_neg h).symm
      cases s with
      | bud other => exact get?_insert_of_ne g production fun e => h (congrArg Symbol.bud e.symm)
      | _ => rfl
  | segment production => cases s <;> rfl

theorem registerAll_concat (g : Grammar) (rs : List Registration) (r : Registration) :
    g.registerAll (rs ++ [r]) = (g.registerAll rs).register r := List.foldl_concat ..

theorem lastFor_concat (rs : List Registration) (r : Registration) (s : Symbol) :
    lastFor (rs ++ [r]) s = if r.symbol = s then some r.production else lastFor rs s := by
  by_cases h : r.symbol = s <;> simp [lastFor, List.filter_append, h]

/-- **The last registration of a symbol holds**, and without one its production is that which it had
before. The slots that there were make no difference. -/
theorem get?_registerAll (g : Grammar) (rs : List Registration) (s : Symbol) :
    (g.registerAll rs).get? s = (lastFor rs s).or (g.get? s) := by
  induction rs using List.reverseRecOn with
  | nil => rfl
  | append_singleton rs r ih =>
    rw [registerAll_concat, get?_register, lastFor_concat, ih]
    split <;> rfl

/-! ### Look-ups -/

theorem get?_of_terminal (h : s.isNonterminal = false) : g.get? s = none := by
  cases s with
  | bud | segment => cases h
  | _ => rfl

theorem get?_empty (s : Symbol) : empty.get? s = none := by
  cases s with
  | bud tag => cases tag <;> rfl
  | _ => rfl

theorem get?_default (s : Symbol) : (default : Grammar).get? s = none := by
  cases s <;> rfl

theorem mem_tags_iff : t ∈ g.tags ↔ ∃ production, g.get? (.bud t) = some production := by
  rw [tags, List.mem_filter, ← Option.isSome_iff_exists]
  exact and_iff_right (List.mem_of_getElem? (Tag.all_getElem?_index t))

/-- The tags stand in table order, in whatever order their productions were registered. -/
example : (standard .phyllotactic).tags = Tag.all := rfl

theorem nodup_tags (g : Grammar) : g.tags.Nodup := List.Nodup.filter _ (by decide)

theorem replace_of_get? (h : ∀ s, g.get? s = g'.get? s) (cfg : Config) :
    g.replace cfg = g'.replace cfg := by
  funext token
  simp only [replace, h]

end Grammar

namespace LSystem

variable {cfg : Config} {g g' : Grammar}

/-- Under the same constants, tables that are the same map expand every word alike. -/
theorem expand_eq_of_get? (hg : ∀ s, g.get? s = g'.get? s) (h : cfg.validate = .ok ())
    (word : List Token) (n : Nat) :
    expand ⟨cfg, g, h⟩ word n = expand ⟨cfg, g', h⟩ word n := by
  refine @expand_eq_of_lockstep ⟨cfg, g, h⟩ ⟨cfg, g', h⟩ Eq (fun t => ?_) rfl word n
  rw [replace_of_get? hg]
  exact .refl _

/-- **A table is a finite map, however it was made.** After any registrations, on any table, a
symbol has the production that was registered last for it, or else the one it had; terminals have
none. One registration more changes no other symbol. The tags listed are those with a production,
each once and in table order. So a table that makes its slots when they are needed serves as one
that had them all: systems of either expand every word alike. -/
theorem last_registration_holds (rs : List Registration) :
    (∀ g : Grammar,
      (∀ s, (g.registerAll rs).get? s = (lastFor rs s).or (g.get? s)) ∧
      (∀ s, s.isNonterminal = false → (g.registerAll rs).get? s = none) ∧
      (∀ r s, s ≠ r.symbol → (g.registerAll (rs ++ [r])).get? s = (g.registerAll rs).get? s) ∧
      (g.registerAll rs).tags.Sublist Tag.all ∧ (g.registerAll rs).tags.Nodup ∧
      ∀ t, t ∈ (g.registerAll rs).tags ↔ ∃ p, (g.registerAll rs).get? (.bud t) = some p) ∧
    ∀ cfg, cfg.validate = .ok () → ∃ sys sys',
      make cfg (Grammar.empty.registerAll rs) = .ok sys ∧
      make cfg ((default : Grammar).registerAll rs) = .ok sys' ∧
      ∀ word n, sys.expand word n = sys'.expand word n := by
  refine ⟨fun g => ⟨get?_registerAll g rs, fun s => get?_of_terminal, fun r s hs => ?_,
    List.filter_sublist, nodup_tags _, fun t => mem_tags_iff⟩, fun cfg h => ?_⟩
  · rw [registerAll_concat, get?_register, if_neg hs.symm]
  · refine ⟨_, _, make_of_valid h, make_of_valid h, expand_eq_of_get? (fun s => ?_) h⟩
    rw [get?_registerAll, get?_registerAll, get?_empty, get?_default]

/-- On a table without slots, four registrations of which the last takes the place of the first. -/
theorem last_registration_holds_grown : ∃ rs : List Registration,
    rs.map Registration.symbol = [.bud .tip, .bud .faceN, .segment, .bud .tip] ∧
    ((default : Grammar).registerAll rs).get? (.bud .tip) = some Tapered.tip.production ∧
    ((default : Grammar).registerAll rs).get? .skip = none ∧
    ((default : Grammar).registerAll (rs ++ [.bud .root Planar.root.production])).get? .segment =
      some Tapered.segment ∧
    ((default : Grammar).registerAll rs).tags = [.tip, .faceN] ∧
    ∃ sys sys', make .phyllotactic (Grammar.empty.registerAll rs) = .ok sys ∧
      make .phyllotactic ((default : Grammar).registerAll rs) = .ok sys' ∧
      ∀ word n, sys.expand word n = sys'.expand word n := by
  obtain ⟨hmap, hexpand⟩ := last_registration_holds [.bud .tip Planar.tip.production,
    .bud .faceN Tapered.axis.production, .segment Tapered.segment,
    .bud .tip Tapered.tip.production]
  obtain ⟨hlast, hterminal, hother, -⟩ := hmap default
  refine ⟨_, ?_, hlast (.bud .tip), hterminal .skip rfl,
    (hother (.bud .root Planar.root.production) .segment (by decide)).trans (hlast .segment), ?_,
    hexpand .phyllotactic (by decide)⟩
  · rfl
  · rfl

end LSystem

end Grapevine
