import Grapevine.Proofs.Grammar.Constants
import Grapevine.Proofs.Grammar.Draws
import Grapevine.Proofs.Walk.Guards

/-! What the suppressed length bears on.

A suppressed berry is drawn like any other, and then a guard is put before it. So under another
suppressed length every pass draws the same numbers for the same berries, and the words that are
left differ in guards alone (`LSystem.expand_suppress`). -/
namespace Grapevine

open Number Chance Grammar

namespace Grammar

variable {g g' : Grammar} {cfg cfg' : Config} {u word word' : List Token}

theorem lockstep_of_eq {α : Type} {R : α → α → Prop} {x y : Draw α} (h : x = y)
    (hR : ∀ a, R a a) : Lockstep Eq R x y := by
  subst h
  rintro s _ rfl
  cases x s with
  | error fault => exact .fault fault
  | ok a => exact .result ⟨hR a.1, rfl⟩

/-! ### One token -/

theorem Pedicel.sameButGuards (stalk : Stalk) (swallowed swallowed' : Bool) (size : Float32) :
    SameButGuards (⟨stalk, swallowed, size⟩ : Pedicel).word
      (⟨stalk, swallowed', size⟩ : Pedicel).word := by
  have hberry := SameButGuards.berry stalk.length size swallowed swallowed' .nil
  have hword := (SameButGuards.refl stalk.lead).append hberry
  simpa [Pedicel.word, Stalk.word, hanging] using hword

namespace Tapered

/-- Only segments read the suppressed length. -/
theorem replace_suppress {t : Token} (ht : t.symbol ≠ .segment) (cfg : Config)
    (suppressLength : Float32) :
    (standard .phyllotactic).replace { cfg with suppressLength } t =
      (standard .phyllotactic).replace cfg t := by
  cases hget : (standard .phyllotactic).get? t.symbol with
  | none => simp only [replace, hget]
  | some production =>
    have hsame : production { cfg with suppressLength } = production cfg := by
      rcases get?_cases hget with rfl | rfl | rfl | rfl | ⟨hsegment, _⟩
      · rfl
      · rfl
      · rfl
      · rfl
      · exact absurd hsegment ht
    simp only [replace, hget, hsame]

/-- A segment draws for its berry, if it has one, before it looks at the suppressed length. -/
theorem lockstep_segment (cfg : Config) (suppressLength : Float32) (params : List Float32) :
    Lockstep Eq SameButGuards (segment cfg ⟨.segment, params⟩)
      (segment { cfg with suppressLength } ⟨.segment, params⟩) := by
  match params with
  | [kind, bend, pitch, length, width] =>
    by_cases h₁ : Single.truncate kind = 1
    · rintro s _ rfl
      rw [segment_berry bend pitch length width h₁, segment_berry bend pitch length width h₁]
      refine (Lockstep.refl (berrySize cfg) s s rfl).map ?_
      rintro ⟨size, s'⟩ _ ⟨rfl, rfl⟩
      exact ⟨Pedicel.sameButGuards .., rfl⟩
    · refine lockstep_of_eq (funext fun s => ?_) .refl
      by_cases h₀ : Single.truncate kind = 0
      · rw [segment_plain bend pitch length width h₀, segment_plain bend pitch length width h₀]
        rfl
      · rw [segment_of_other bend pitch length width h₀ h₁,
          segment_of_other bend pitch length width h₀ h₁]
  | [] | [_] | [_, _] | [_, _, _] | [_, _, _, _] | _ :: _ :: _ :: _ :: _ :: _ :: _ =>
    exact lockstep_of_eq rfl .refl

end Tapered

/-- **A token becomes the same under any suppressed length, but for a guard.** -/
theorem lockstep_replace_suppress (v : Variant) (cfg : Config) (suppressLength : Float32)
    (t : Token) :
    Lockstep Eq SameButGuards ((standard v).replace cfg t)
      ((standard v).replace { cfg with suppressLength } t) := by
  cases v with
  | planar =>
    have hagree : Planar.Agree cfg { cfg with suppressLength } := ⟨rfl, rfl, rfl, rfl, rfl⟩
    exact lockstep_of_eq (congrFun hagree.replace t) .refl
  | phyllotactic =>
    by_cases ht : t.symbol = .segment
    · obtain ⟨_, params⟩ := t
      subst ht
      rw [Tapered.replace_segment, Tapered.replace_segment]
      exact Tapered.lockstep_segment cfg suppressLength params
    · exact lockstep_of_eq (Tapered.replace_suppress ht cfg suppressLength).symm .refl

/-! ### Passes -/

theorem pass_reduced_append (hu : Reduced u) (word : List Token) (s : Keystream) :
    pass g cfg (u ++ word) s = (pass g cfg word s).map fun (v, s) => (u ++ v, s) := by
  induction u with
  | nil =>
    rw [List.nil_append]
    cases pass g cfg word s <;> rfl
  | cons t u ih =>
    obtain ⟨ht, hrest⟩ := List.forall_mem_cons.mp hu
    rw [List.cons_append, pass_cons, replace_terminal g cfg ht]
    show (pass g cfg (u ++ word) s).map (fun (v, s) => ([t] ++ v, s)) = _
    rw [ih hrest]
    cases pass g cfg word s <;> rfl

theorem reduced_berry (length size : Float32) (swallowed : Bool) :
    Reduced (⟨.forward, [length]⟩ :: hanging swallowed size) := by
  have hword := reduced_pedicel ⟨⟨[], length, List.forall_mem_nil _⟩, swallowed, size⟩
  simpa [Pedicel.word, Stalk.word, hanging] using hword

theorem lockstep_pass_of_guards
    (hreplace : ∀ t, Lockstep Eq SameButGuards (g.replace cfg t) (g'.replace cfg' t))
    (h : SameButGuards word word') :
    Lockstep Eq SameButGuards (pass g cfg word) (pass g' cfg' word') := by
  induction h with
  | nil => exact fun s s' hs => .result ⟨.nil, hs⟩
  | cons t _ ih =>
    intro s s' hs
    rw [pass_cons, pass_cons]
    refine (hreplace t s s' hs).bind fun a b hab => ?_
    exact (ih a.2 b.2 hab.2).map fun c d hcd => ⟨hab.1.append hcd.1, hcd.2⟩
  | berry length size swallowed swallowed' _ ih =>
    intro s s' hs
    rw [← List.cons_append, ← List.cons_append,
      pass_reduced_append (reduced_berry length size swallowed),
      pass_reduced_append (reduced_berry length size swallowed')]
    refine (ih s s' hs).map fun c d hcd => ⟨?_, hcd.2⟩
    exact .berry length size swallowed swallowed' hcd.1

end Grammar

namespace LSystem

variable {cfg : Config} {suppressLength : Float32} {sys sys' : LSystem}

theorem expand_concur_suppress (hsys : standard cfg = .ok sys)
    (hsys' : standard { cfg with suppressLength } = .ok sys') (word : List Token) (n : Nat) :
    Concur SameButGuards (sys.expand word n) (sys'.expand word n) := by
  obtain ⟨_, rfl⟩ := standard_eq_ok_iff.mp hsys
  obtain ⟨_, rfl⟩ := standard_eq_ok_iff.mp hsys'
  have hpass := fun word word' => @lockstep_pass_of_guards _ _ _ _ word word'
    (lockstep_replace_suppress cfg.variant cfg suppressLength)
  exact (lockstep_passes hpass (.refl word) n _ _ rfl).map fun _ _ => And.left

/-- **The suppressed length bears on guards and on nothing else**: words of two lengths are refused
for the same fault, or are the same without their `%`, down to the sizes of the berries; and where
the turtle walks the one, it walks the other and makes the same nodes and edges. -/
theorem expand_suppress (hsys : standard cfg = .ok sys)
    (hsys' : standard { cfg with suppressLength } = .ok sys') :
    (∀ word n, (sys.expand word n).map unguarded = (sys'.expand word n).map unguarded) ∧
    ∀ word n out out', sys.expand word n = .ok out → sys'.expand word n = .ok out' →
      ∀ turtle trail, Turtle.walk turtle out = .ok trail →
        ∃ trail', Turtle.walk turtle out' = .ok trail' ∧
          trail'.skeleton.nodes = trail.skeleton.nodes ∧
          trail'.skeleton.edges = trail.skeleton.edges := by
  have hconcur := expand_concur_suppress hsys hsys'
  refine ⟨fun word n => ?_, fun word n out out' hout hout' turtle trail hwalk => ?_⟩
  · exact ((hconcur word n).map fun _ _ => SameButGuards.unguarded_eq).eq
  · have hsame := hconcur word n
    rw [hout, hout'] at hsame
    cases hsame with
    | result hguards => exact Turtle.walk_of_sameButGuards hguards hwalk

/-- The preset in space swallows the berry of a segment of length 3. Under another suppressed length
the same berry is hung, on the same skeleton. -/
theorem expand_suppress_three : ∃ sys sys' trail trail', ∃ p : Pedicel,
    standard .phyllotactic = .ok sys ∧
    standard { Config.phyllotactic with suppressLength := 1 } = .ok sys' ∧
    sys.expand [⟨.segment, [1, 0, 0, 3, 1]⟩] 1 = .ok { p with swallowed := true }.word ∧
    sys'.expand [⟨.segment, [1, 0, 0, 3, 1]⟩] 1 = .ok { p with swallowed := false }.word ∧
    (sys.expand [⟨.segment, [1, 0, 0, 3, 1]⟩] 1).map unguarded =
      (sys'.expand [⟨.segment, [1, 0, 0, 3, 1]⟩] 1).map unguarded ∧
    Turtle.walk {} { p with swallowed := true }.word = .ok trail ∧
    Turtle.walk {} { p with swallowed := false }.word = .ok trail' ∧
    trail'.skeleton.nodes = trail.skeleton.nodes := by
  have hsys := @standard_of_valid .phyllotactic (by decide)
  have hsys' := @standard_of_valid { Config.phyllotactic with suppressLength := 1 } (by decide)
  have hkind : Single.truncate 1 = 1 := by decide
  have hfinite : ((3 : Float32) - 2).isFinite = true := by decide
  have hsuppressed : Tapered.suppressed .phyllotactic 3 = true := by decide
  have hkept : Tapered.suppressed { Config.phyllotactic with suppressLength := 1 } 3 = false := by
    decide
  obtain ⟨hwords, hwalks⟩ := expand_suppress hsys hsys'
  have hout := (expand_eq_ok_iff_generations hsys rfl (by decide)).mpr
    ⟨1, .succ (@Tapered.Bears.berry _ _ 0 1 1 0 0 3 1 [] [] hkind hfinite (.nil 1)) (.zero 1 _)⟩
  have hout' := (expand_eq_ok_iff_generations hsys' rfl (by decide)).mpr
    ⟨1, .succ (@Tapered.Bears.berry _ _ 0 1 1 0 0 3 1 [] [] hkind hfinite (.nil 1)) (.zero 1 _)⟩
  rw [hsuppressed, List.append_nil] at hout
  rw [hkept, List.append_nil] at hout'
  obtain ⟨trail', hwalk', hnodes, _⟩ := hwalks _ 1 _ _ hout hout' {} _ rfl
  exact ⟨_, _, _, trail', ⟨Tapered.stalk .phyllotactic 0 0 3 1, true, Tapered.sizes .phyllotactic 0⟩,
    hsys, hsys', hout, hout', hwords _ 1, rfl, hwalk', hnodes⟩

end LSystem

end Grapevine
