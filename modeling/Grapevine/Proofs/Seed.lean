import Grapevine.Proofs.Grammar.Constants
import Grapevine.Proofs.Growth
import Grapevine.Proofs.Walk.Sizes

/-! What the seed bears on.

No rule looks at a size that was drawn, and a berry is drawn or not for reasons that have nothing to
do with the stream. So words of two seeds are derived in step, and differ in the sizes of berries
alone; the turtle goes the same way along both (`seed_bears_on_sizes`). -/
namespace Grapevine

open Number Chance Grammar

namespace Grammar

variable {cfg : Config} {t t' : Token}

theorem forall₂_sameButSize_refl (word : List Token) : List.Forall₂ Token.SameButSize word word :=
  List.forall₂_same.mpr fun t _ => .same t

/-- Whether a berry can be drawn depends on the range alone. -/
theorem lockstep_berrySize (cfg : Config) :
    Lockstep AnyStreams (fun _ _ => True) (berrySize cfg) (berrySize cfg) := by
  intro s s' _
  simp only [berrySize]
  split
  · exact .result ⟨trivial, trivial⟩
  · split
    · exact .result ⟨trivial, trivial⟩
    · exact .fault _

/-- Segments of the same pedicel. -/
theorem Pedicel.sameButSize (stalk : Stalk) (swallowed : Bool) (x y : Float32) :
    List.Forall₂ Token.SameButSize (⟨stalk, swallowed, x⟩ : Pedicel).word
      (⟨stalk, swallowed, y⟩ : Pedicel).word :=
  List.rel_append (forall₂_sameButSize_refl _) (.cons (.berry x y) .nil)

/-- From any two streams, a token becomes the same but for the size of a berry. -/
theorem lockstep_replace (v : Variant) (cfg : Config) (t : Token) :
    Lockstep AnyStreams (List.Forall₂ Token.SameButSize) ((standard v).replace cfg t)
      ((standard v).replace cfg t) := by
  cases v with
  | planar => exact (Planar.drawless t).lockstep forall₂_sameButSize_refl
  | phyllotactic =>
    rcases Tapered.still_or_berry cfg t with hstill | ⟨_, bend, pitch, length, width, hkind, rfl⟩
    · exact hstill.lockstep forall₂_sameButSize_refl
    · intro s s' hs
      rw [Tapered.replace_berry bend pitch length width hkind,
        Tapered.replace_berry bend pitch length width hkind]
      exact (lockstep_berrySize cfg s s' hs).map fun _ _ _ => ⟨Pedicel.sameButSize .., trivial⟩

/-- **What differs in sizes alone goes on to do so**, berries being terminals. -/
theorem lockstep_replace_of_sameButSize (v : Variant) (cfg : Config) (ht : t.SameButSize t') :
    Lockstep AnyStreams (List.Forall₂ Token.SameButSize) ((standard v).replace cfg t)
      ((standard v).replace cfg t') := by
  cases ht with
  | same => exact lockstep_replace v cfg t
  | berry x y =>
    rw [replace_terminal _ _ rfl, replace_terminal _ _ rfl]
    exact fun _ _ _ => .result ⟨.cons (.berry x y) .nil, trivial⟩

/-- No rule reads the seed. -/
theorem replace_reseed (v : Variant) (cfg : Config) (seed : UInt64) :
    (standard v).replace { cfg with seed } = (standard v).replace cfg := by
  cases v with
  | planar => exact Planar.Agree.replace ⟨rfl, rfl, rfl, rfl, rfl⟩
  | phyllotactic =>
    exact Tapered.Agree.replace ⟨rfl, rfl, rfl, rfl, rfl, rfl, rfl, rfl, rfl, rfl, rfl, rfl⟩

end Grammar

/-- The same cluster, but for the sizes of its berries. -/
structure Growth.SameButSizes (a b : Growth) : Prop where
  word : List.Forall₂ Token.SameButSize a.word b.word
  trail : a.trail.SameButSizes b.trail

variable {cfg : Config} {seed : UInt64} {sys sys' : LSystem}

theorem LSystem.expand_concur_reseed (hsys : standard cfg = .ok sys)
    (hsys' : standard { cfg with seed } = .ok sys') (word : List Token) (n : Nat) :
    Concur (List.Forall₂ Token.SameButSize) (sys.expand word n) (sys'.expand word n) := by
  obtain ⟨_, rfl⟩ := standard_eq_ok_iff.mp hsys
  obtain ⟨_, rfl⟩ := standard_eq_ok_iff.mp hsys'
  refine @expand_concur _ _ AnyStreams _ _ _ n (fun t t' ht => ?_) trivial
    (forall₂_sameButSize_refl word)
  show Lockstep AnyStreams _ ((Grammar.standard cfg.variant).replace cfg t)
    ((Grammar.standard cfg.variant).replace { cfg with seed } t')
  rw [replace_reseed cfg.variant cfg seed]
  exact lockstep_replace_of_sameButSize cfg.variant cfg ht

theorem grow_concur_reseed (cfg : Config) (seed : UInt64) (turtle : Turtle.Config)
    (generations : Nat) : Concur Growth.SameButSizes (grow ⟨cfg, turtle, generations⟩)
      (grow ⟨{ cfg with seed }, turtle, generations⟩) := by
  have hvalidate : { cfg with seed }.validate = cfg.validate := rfl
  cases h : cfg.validate with
  | error fault =>
    rw [@grow_of_invalid ⟨cfg, turtle, generations⟩ _ h,
      @grow_of_invalid ⟨{ cfg with seed }, turtle, generations⟩ _ (hvalidate.trans h)]
    exact .fault _
  | ok =>
    have h' := hvalidate.trans h
    rw [@grow_of_valid ⟨cfg, turtle, generations⟩ h,
      @grow_of_valid ⟨{ cfg with seed }, turtle, generations⟩ h']
    have hexpand := LSystem.expand_concur_reseed (LSystem.standard_of_valid h)
      (LSystem.standard_of_valid h') [cfg.start] generations
    have hderive := LSystem.derive_concur Token.keepsBuds_sameButSize hexpand
    refine hderive.bind fun word word' hword => ?_
    exact (Turtle.walk_concur hword).map fun trail trail' htrail => ⟨hword, htrail⟩

/-- **The seed bears on the sizes of berries and on nothing else**: words of two seeds are the same
but for these, words of the flat cluster altogether, and a cluster that grows from one seed grows
from every other, with the same nodes and edges and its berries at the same places. -/
theorem seed_bears_on_sizes (hsys : LSystem.standard cfg = .ok sys)
    (hsys' : LSystem.standard { cfg with seed } = .ok sys') :
    (∀ word n, Concur (List.Forall₂ Token.SameButSize) (sys.expand word n) (sys'.expand word n)) ∧
    (cfg.variant = .planar → ∀ word n, sys.expand word n = sys'.expand word n) ∧
    ∀ turtle generations, Concur Growth.SameButSizes (grow ⟨cfg, turtle, generations⟩)
      (grow ⟨{ cfg with seed }, turtle, generations⟩) :=
  ⟨LSystem.expand_concur_reseed hsys hsys',
    fun hplanar => LSystem.expand_eq_of_agrees hsys hsys'
      (.planar hplanar hplanar rfl ⟨rfl, rfl, rfl, rfl, rfl⟩),
    grow_concur_reseed cfg seed⟩

/-- From the seed 42, the preset in space grows as from its own seed 0, with other berries. -/
theorem seed_bears_on_sizes_phyllotactic : ∃ sys sys',
    LSystem.standard .phyllotactic = .ok sys ∧
    LSystem.standard { Config.phyllotactic with seed := 42 } = .ok sys' ∧
    Concur (List.Forall₂ Token.SameButSize) (sys.expand [⟨.segment, [1, 0, 0, 1, 1]⟩] 1)
      (sys'.expand [⟨.segment, [1, 0, 0, 1, 1]⟩] 1) ∧
    Concur Growth.SameButSizes (grow .phyllotactic)
      (grow { Cluster.Config.phyllotactic with grammar.seed := 42 }) := by
  have hsys := @LSystem.standard_of_valid .phyllotactic (by decide)
  have hsys' := @LSystem.standard_of_valid { Config.phyllotactic with seed := 42 } (by decide)
  have hseed := seed_bears_on_sizes hsys hsys'
  exact ⟨_, _, hsys, hsys', hseed.1 _ _, hseed.2.2 _ _⟩

end Grapevine
