import Grapevine.Grammar.Planar
import Grapevine.Grammar.Tapered

/-! Grammars: tables of productions. Buds have one slot for each tag, in the order of the tags, and
slots that were never needed need not be there. -/
namespace Grapevine

open Grammar

structure Grammar where
  slots : List (Option Production) := []
  segment : Option Production := none
deriving Inhabited

namespace Grammar

/-- No production at all, with a slot for every tag. -/
def empty : Grammar := { slots := List.replicate Tag.all.length none }

/-- Sets the slot at a position, and makes the slots up to it if they are missing. -/
def setSlot (slots : List (Option Production)) (i : Nat) (production : Production) :
    List (Option Production) :=
  (slots ++ List.replicate (i + 1 - slots.length) none).set i (some production)

/-- Registers the production of a bud, in place of the one it had. -/
def insert (g : Grammar) (tag : Tag) (production : Production) : Grammar :=
  { g with slots := setSlot g.slots tag.index production }

/-- Registers the production of the segment, in place of the one it had. -/
def insertSegment (g : Grammar) (production : Production) : Grammar :=
  { g with segment := some production }

/-- The production of a symbol. Terminals have none. -/
def get? (g : Grammar) : Symbol → Option Production
  | .bud tag => g.slots[tag.index]?.join
  | .segment => g.segment
  | _ => none

theorem getElem?_setSlot_self (slots : List (Option Production)) (i : Nat) (p : Production) :
    (setSlot slots i p)[i]? = some (some p) := by
  rw [setSlot, List.getElem?_set_self]
  simp only [List.length_append, List.length_replicate]
  omega

/-- A slot that had to be made on the way is as empty as one that was missing. -/
theorem join_getElem?_setSlot_of_ne (slots : List (Option Production)) {i j : Nat} (p : Production)
    (h : j ≠ i) : (setSlot slots i p)[j]?.join = slots[j]?.join := by
  rw [setSlot, List.getElem?_set_ne h.symm, List.getElem?_append]
  split
  · rfl
  · rename_i hj
    rw [List.getElem?_eq_none (Nat.le_of_not_lt hj), List.getElem?_replicate]
    split <;> rfl

theorem get?_insert_self (g : Grammar) (t : Tag) (p : Production) :
    (g.insert t p).get? (.bud t) = some p := by
  simp only [get?, insert, getElem?_setSlot_self, Option.join_some]

theorem get?_insert_of_ne (g : Grammar) {s t : Tag} (p : Production) (h : s ≠ t) :
    (g.insert t p).get? (.bud s) = g.get? (.bud s) :=
  join_getElem?_setSlot_of_ne g.slots p fun e => h (Tag.index_inj e)

/-- The tags that have a production, in table order. -/
def tags (g : Grammar) : List Tag :=
  Tag.all.filter fun tag => (g.get? (.bud tag)).isSome

/-- The rules of a variant. -/
def standard : Variant → Grammar
  | .planar =>
    empty.insert .root Planar.root.production
      |>.insert .secondary Planar.secondary.production
      |>.insert .tip Planar.tip.production
      |>.insert .pedicel Planar.pedicel.production
  | .phyllotactic =>
    empty.insert .root Tapered.axis.production
      |>.insert .faceC Tapered.axis.production
      |>.insert .faceV Tapered.axis.production
      |>.insert .faceB Tapered.axis.production
      |>.insert .faceN Tapered.axis.production
      |>.insert .secondary Tapered.secondary.production
      |>.insert .tip Tapered.tip.production
      |>.insert .pedicel Tapered.pedicel.production
      |>.insertSegment Tapered.segment

end Grammar

end Grapevine
