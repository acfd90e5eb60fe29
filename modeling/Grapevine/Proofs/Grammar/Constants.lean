import Grapevine.Proofs.Grammar.DepthFirst
import Grapevine.Proofs.Grammar.Lockstep

/-! Which constants a variant reads.

`Planar.Agree` and `Tapered.Agree` list all that the rules of a variant read: where they agree,
every token is replaced alike. The start reads the depth and the base lengths, and only the cluster
in space reads the seed; so constants of one variant that differ in those of the other derive the
same (`LSystem.expand_of_agrees`). -/
namespace Grapevine

open Number Chance Grammar

namespace Grammar

variable {g : Grammar} {a b cfg : Config} {t : Token}

/-- Where each production does the same, so does the grammar. -/
theorem replace_congr
    (h : ∀ symbol production, g.get? symbol = some production → production a = production b) :
    g.replace a = g.replace b := by
  funext t
  cases hget : g.get? t.symbol with
  | none => simp only [replace, hget]
  | some production => simp only [replace, hget, h _ _ hget]

theorem Rule.production_congr {rule : Rule} (h : rule a = rule b) :
    rule.production a = rule.production b := by
  funext t s
  rw [Rule.production, Rule.production, h]

namespace Planar

/-- Agreement in what the rules of the flat cluster read. -/
structure Agree (a b : Config) : Prop where
  lateralDepths : a.lateralDepths = b.lateralDepths
  baseLength : a.baseLength = b.baseLength
  lengthRatio : a.lengthRatio = b.lengthRatio
  berryRatio : a.berryRatio = b.berryRatio
  branchAngle : a.branchAngle = b.branchAngle

theorem get?_cases {symbol : Symbol} {production : Production}
    (h : (standard .planar).get? symbol = some production) :
    production = root.production ∨ production = secondary.production ∨
      production = tip.production ∨ production = pedicel.production := by
  cases symbol with
  | bud tag =>
    cases tag with
    | root => exact .inl (Option.some.inj h).symm
    | secondary => exact .inr (.inl (Option.some.inj h).symm)
    | tip => exact .inr (.inr (.inl (Option.some.inj h).symm))
    | pedicel => exact .inr (.inr (.inr (Option.some.inj h).symm))
    | faceC | faceV | faceB | faceN => cases h
  | _ => cases h

/-- Constants that the flat cluster does not read do not bear on its rules. -/
theorem Agree.replace (h : Agree a b) :
    (standard .planar).replace a = (standard .planar).replace b := by
  apply replace_congr
  intro symbol production hget
  rcases get?_cases hget with rfl | rfl | rfl | rfl
  · refine Rule.production_congr (funext fun t => ?_)
    simp only [root, Config.lateralDepth, h.lateralDepths, h.lengthRatio, h.branchAngle]
  · refine Rule.production_congr (funext fun t => ?_)
    simp only [secondary, h.lengthRatio, h.branchAngle]
  · refine Rule.production_congr (funext fun t => ?_)
    simp only [tip, h.lengthRatio, h.branchAngle]
  · refine Rule.production_congr (funext fun t => ?_)
    simp only [pedicel, h.baseLength, h.berryRatio]

end Planar

namespace Tapered

/-- Agreement in what the rules of the cluster in space read. -/
structure Agree (a b : Config) : Prop where
  secondaryDepth : a.secondaryDepth = b.secondaryDepth
  lateralAngle : a.lateralAngle = b.lateralAngle
  pedicelRoll : a.pedicelRoll = b.pedicelRoll
  tipRatio : a.tipRatio = b.tipRatio
  axisRatio : a.axisRatio = b.axisRatio
  lateralRatio : a.lateralRatio = b.lateralRatio
  secondaryRatio : a.secondaryRatio = b.secondaryRatio
  secondaryTipRatio : a.secondaryTipRatio = b.secondaryTipRatio
  pedicelRatio : a.pedicelRatio = b.pedicelRatio
  widthRatio : a.widthRatio = b.widthRatio
  suppressLength : a.suppressLength = b.suppressLength
  berrySizes : a.berrySizes = b.berrySizes

theorem get?_cases {symbol : Symbol} {production : Production}
    (h : (standard .phyllotactic).get? symbol = some production) :
    production = axis.production ∨ production = secondary.production ∨
      production = tip.production ∨ production = pedicel.production ∨
      symbol = .segment ∧ production = segment := by
  cases symbol with
  | bud tag =>
    cases tag with
    | root | faceC | faceV | faceB | faceN => exact .inl (Option.some.inj h).symm
    | secondary => exact .inr (.inl (Option.some.inj h).symm)
    | tip => exact .inr (.inr (.inl (Option.some.inj h).symm))
    | pedicel => exact .inr (.inr (.inr (.inl (Option.some.inj h).symm)))
  | segment => exact .inr (.inr (.inr (.inr ⟨rfl, (Option.some.inj h).symm⟩)))
  | _ => cases h

theorem Agree.berrySize (h : Agree a b) : berrySize a = berrySize b := by
  funext s
  simp only [Grammar.berrySize, h.berrySizes]

theorem Agree.suppressed (h : Agree a b) : suppressed a = suppressed b := by
  funext length
  rw [Tapered.suppressed, Tapered.suppressed, tolerance, tolerance, h.suppressLength]

/-- Constants that the cluster in space does not read do not bear on its rules. -/
theorem Agree.replace (h : Agree a b) :
    (standard .phyllotactic).replace a = (standard .phyllotactic).replace b := by
  apply replace_congr
  intro symbol production hget
  rcases get?_cases hget with rfl | rfl | rfl | rfl | ⟨rfl, rfl⟩
  · refine Rule.production_congr (funext fun t => ?_)
    simp only [axis, h.secondaryDepth, h.lateralAngle, h.tipRatio, h.axisRatio, h.lateralRatio]
  · refine Rule.production_congr (funext fun t => ?_)
    simp only [secondary, h.lateralAngle, h.tipRatio, h.secondaryRatio, h.secondaryTipRatio]
  · refine Rule.production_congr (funext fun t => ?_)
    simp only [tip, h.lateralAngle, h.pedicelRoll, h.pedicelRatio]
  · exact Rule.production_congr rfl
  · funext t
    simp only [segment, h.berrySize, h.widthRatio, h.suppressed]

end Tapered

/-- What draws nothing goes alike on any two streams. -/
theorem Still.lockstep {α : Type} {x : Draw α} {R : α → α → Prop} (h : Still x)
    (hR : ∀ u, R u u) : Lockstep AnyStreams R x x := by
  obtain ⟨result, hresult⟩ := h
  intro s s' _
  rw [hresult, hresult]
  cases result with
  | error fault => exact .fault fault
  | ok u => exact .result ⟨hR u, trivial⟩

/-- Constants of one variant, the same in all that this variant reads. -/
inductive Config.Agrees (a b : Config) : Prop where
  | planar (ha : a.variant = .planar) (hb : b.variant = .planar) (depth : a.depth = b.depth)
      (rules : Planar.Agree a b)
  | phyllotactic (ha : a.variant = .phyllotactic) (hb : b.variant = .phyllotactic)
      (depth : a.depth = b.depth) (baseLength : a.baseLength = b.baseLength)
      (baseWidth : a.baseWidth = b.baseWidth) (rules : Tapered.Agree a b) (seed : a.seed = b.seed)

theorem Config.Agrees.start (h : a.Agrees b) : a.start = b.start := by
  cases h with
  | planar ha hb depth rules => simp only [Config.start, ha, hb, depth, rules.baseLength]
  | phyllotactic ha hb depth baseLength baseWidth =>
    simp only [Config.start, ha, hb, depth, baseLength, baseWidth]

/-- The flat cluster goes on alike from any two seeds, for it draws nothing. -/
theorem Config.Agrees.lockstep (h : a.Agrees b) :
    ∃ S : Keystream → Keystream → Prop, S (.ofSeed a.seed) (.ofSeed b.seed) ∧
      ∀ t, Lockstep S Eq ((standard a.variant).replace a t) ((standard b.variant).replace b t) := by
  cases h with
  | planar ha hb _ rules =>
    refine ⟨AnyStreams, trivial, fun t => ?_⟩
    rw [ha, hb, rules.replace]
    exact (Planar.drawless t).lockstep fun _ => rfl
  | phyllotactic ha hb _ _ _ rules seed =>
    refine ⟨Eq, congrArg Keystream.ofSeed seed, fun t => ?_⟩
    rw [ha, hb, rules.replace]
    exact .refl _

end Grammar

namespace LSystem

variable {a b : Config} {sys sys' : LSystem}

theorem expand_eq_of_agrees (hsys : standard a = .ok sys) (hsys' : standard b = .ok sys')
    (h : a.Agrees b) (word : List Token) (n : Nat) : sys.expand word n = sys'.expand word n := by
  obtain ⟨ha, rfl⟩ := standard_eq_ok_iff.mp hsys
  obtain ⟨hb, rfl⟩ := standard_eq_ok_iff.mp hsys'
  obtain ⟨S, hseed, hreplace⟩ := h.lockstep
  exact @expand_eq_of_lockstep ⟨a, .standard a.variant, ha⟩ ⟨b, .standard b.variant, hb⟩ S hreplace
    hseed word n

/-- **Constants that the variant does not read make no difference**, neither to what a word becomes
nor to what is wrong with it. -/
theorem expand_of_agrees (hsys : standard a = .ok sys) (hsys' : standard b = .ok sys')
    (h : a.Agrees b) :
    (∀ word n, sys.expand word n = sys'.expand word n) ∧ ∀ n, sys.derive n = sys'.derive n := by
  have hexpand := expand_eq_of_agrees hsys hsys' h
  obtain ⟨_, rfl⟩ := standard_eq_ok_iff.mp hsys
  obtain ⟨_, rfl⟩ := standard_eq_ok_iff.mp hsys'
  refine ⟨hexpand, fun n => ?_⟩
  simp only [derive, hexpand, h.start]

/-- The flat preset with other widths, sizes and seed, and the preset in space with a table of
laterals and other ratios of the flat cluster. -/
theorem expand_of_agrees_presets :
    (∃ sys sys', standard .planar = .ok sys ∧
      standard { Config.planar with
        baseWidth := 2, tipRatio := 0.1, suppressLength := 40, berrySizes := ⟨5, 6⟩, seed := 7 } =
          .ok sys' ∧
      ∀ n, sys.derive n = sys'.derive n) ∧
    ∃ sys sys', standard .phyllotactic = .ok sys ∧
      standard { Config.phyllotactic with
        lateralDepths := [4], lengthRatio := 2, berryRatio := 0, branchAngle := 90 } = .ok sys' ∧
      ∀ n, sys.derive n = sys'.derive n := by
  apply And.intro
  · have hsys := @standard_of_valid .planar (by decide)
    have hsys' := @standard_of_valid { Config.planar with
      baseWidth := 2, tipRatio := 0.1, suppressLength := 40, berrySizes := ⟨5, 6⟩, seed := 7 }
      (by decide)
    exact ⟨_, _, hsys, hsys', (expand_of_agrees hsys hsys'
      (.planar rfl rfl rfl ⟨rfl, rfl, rfl, rfl, rfl⟩)).2⟩
  · have hsys := @standard_of_valid .phyllotactic (by decide)
    have hsys' := @standard_of_valid { Config.phyllotactic with
      lateralDepths := [4], lengthRatio := 2, berryRatio := 0, branchAngle := 90 } (by decide)
    exact ⟨_, _, hsys, hsys', (expand_of_agrees hsys hsys' (.phyllotactic rfl rfl rfl rfl rfl
      ⟨rfl, rfl, rfl, rfl, rfl, rfl, rfl, rfl, rfl, rfl, rfl, rfl⟩ rfl)).2⟩

end LSystem

end Grapevine
