import Grapevine.Proofs.Grammar.Constants

/-! Ranges too wide to draw from.

Constants are usable if the range of berry sizes has finite ends in the right order. Its length can
then still be beyond all numbers, and the first berry drawn from it aborts the run. From any other
range a draw soon hits (`Chance.drawWithin_hits`), and nothing else aborts: tables, conversions and
depths fail with an error, or not at all (`LSystem.returns_iff`). -/
namespace Grapevine

open Number Chance Grammar

/-- A fault that is not handed back as an error. It ends the run there and then. -/
def Fault.aborts : Fault → Bool
  | .rangeTooWide .. => true
  | _ => false

/-- There is a result, or an error to hand back. -/
def Returns {α : Type} (x : Except Fault α) : Prop :=
  ∀ fault, x = .error fault → fault.aborts = false

namespace Returns

variable {α β : Type} {x : Except Fault α} {fault : Fault}

theorem ok (a : α) : Returns (.ok a) := fun _ h => by cases h

theorem error (h : fault.aborts = false) : Returns (.error fault : Except Fault α) := by
  intro _ heq
  cases heq
  exact h

theorem bind {f : α → Except Fault β} (h : Returns x) (hf : ∀ a, Returns (f a)) :
    Returns (x.bind f) := by
  cases x with
  | error fault => exact .error (h fault rfl)
  | ok a => exact hf a

theorem map {f : α → β} (h : Returns x) : Returns (x.map f) := by
  cases x with
  | error fault => exact .error (h fault rfl)
  | ok a => exact .ok (f a)

end Returns

namespace Grammar

variable {g : Grammar} {cfg : Config} {t : Token}

/-! ### Passes return if tokens do -/

theorem returns_pass (h : ∀ t s, Returns (g.replace cfg t s)) (word : List Token) (s : Keystream) :
    Returns (pass g cfg word s) := by
  induction word generalizing s with
  | nil => exact .ok _
  | cons t word ih =>
    rw [pass_cons]
    exact (h t s).bind fun a => (ih a.2).map

theorem returns_passes (h : ∀ t s, Returns (g.replace cfg t s)) (n : Nat) (word : List Token)
    (s : Keystream) : Returns (passes g cfg n word s) := by
  rw [passes_eq_rounds]
  induction n generalizing word s with
  | zero => exact .ok _
  | succ n ih =>
    rw [rounds_succ]
    exact (returns_pass h word s).bind fun a => ih a.1 a.2

/-! ### Rules return -/

/-- A lookup outside the table is an error. -/
theorem returns_lateralDepth (cfg : Config) (depth : Int) : Returns (cfg.lateralDepth depth) := by
  simp only [Config.lateralDepth]
  split
  · exact .ok _
  · exact .error rfl

theorem returns_production {rule : Rule} (h : Returns (rule cfg t)) (s : Keystream) :
    Returns (rule.production cfg t s) := h.map

theorem returns_replace
    (h : ∀ production, g.get? t.symbol = some production → ∀ s, Returns (production cfg t s))
    (s : Keystream) : Returns (g.replace cfg t s) := by
  cases ht : t.isNonterminal with
  | false =>
    rw [replace_terminal g cfg ht]
    exact .ok _
  | true =>
    cases hget : g.get? t.symbol with
    | none =>
      rw [replace_of_get?_eq_none ht hget]
      exact .error rfl
    | some production =>
      rw [replace_nonterminal ht hget]
      exact h production hget s

namespace Planar

theorem returns_root : Returns (root cfg t) := by
  rw [root]
  split
  · dsimp only
    split
    · exact .ok _
    · exact (returns_lateralDepth cfg _).bind fun _ => .ok _
  · exact .error rfl

theorem returns_secondary : Returns (secondary cfg t) := by
  rw [secondary]
  split
  · dsimp only
    split <;> exact .ok _
  · exact .error rfl

theorem returns_tip : Returns (tip cfg t) := by
  rw [tip]
  split
  · exact .ok _
  · exact .error rfl

theorem returns_pedicel : Returns (pedicel cfg t) := by
  rw [pedicel]
  split
  · exact .ok _
  · exact .error rfl

theorem returns_standard (t : Token) (s : Keystream) :
    Returns ((standard .planar).replace cfg t s) := by
  refine returns_replace (fun production hget => ?_) s
  rcases get?_cases hget with rfl | rfl | rfl | rfl
  · exact returns_production returns_root
  · exact returns_production returns_secondary
  · exact returns_production returns_tip
  · exact returns_production returns_pedicel

end Planar

/-- Finite ends, it may be, but not a finite length. -/
def SizeRange.TooWide (r : SizeRange) : Prop :=
  r.low < r.high ∧ (r.high - r.low).isFinite = false

instance (r : SizeRange) : Decidable r.TooWide := inferInstanceAs (Decidable (_ ∧ _))

theorem berrySize_of_tooWide (h : cfg.berrySizes.TooWide) (s : Keystream) :
    berrySize cfg s = .error (.rangeTooWide cfg.berrySizes.low cfg.berrySizes.high) := by
  obtain ⟨hlt, hfinite⟩ := h
  simp only [berrySize, hlt, hfinite, not_true_eq_false, if_false, Bool.false_eq_true]

/-- **Every other range has a berry for every stream**, also one of equal ends. -/
theorem berrySize_of_not_tooWide (h : ¬ cfg.berrySizes.TooWide) (s : Keystream) :
    ∃ size s', berrySize cfg s = .ok (size, s') := by
  by_cases hlt : cfg.berrySizes.low < cfg.berrySizes.high
  · have hfinite : (cfg.berrySizes.high - cfg.berrySizes.low).isFinite = true := by
      simpa [SizeRange.TooWide, hlt] using h
    exact berrySize_of_isFinite hfinite s
  · exact ⟨cfg.berrySizes.low, s, by simp only [berrySize, hlt, not_false_eq_true, if_true]⟩

namespace Tapered

theorem returns_axis : Returns (axis cfg t) := by
  rw [axis]
  split
  · split
    · dsimp only
      split <;> exact .ok _
    · exact .error rfl
  · exact .error rfl

theorem returns_secondary : Returns (secondary cfg t) := by
  rw [secondary]
  split
  · dsimp only
    split <;> exact .ok _
  · exact .error rfl

theorem returns_tip : Returns (tip cfg t) := by
  rw [tip]
  split
  · exact .ok _
  · exact .error rfl

theorem returns_pedicel : Returns (pedicel cfg t) := by
  rw [pedicel]
  split
  · exact .ok _
  · exact .error rfl

/-- A segment returns if a berry can be drawn for it. -/
theorem returns_segment (h : ¬ cfg.berrySizes.TooWide) (params : List Float32) (s : Keystream) :
    Returns (segment cfg ⟨.segment, params⟩ s) := by
  cases segmentCase cfg params with
  | plain bend pitch length width hkind =>
    rw [segment_plain bend pitch length width hkind]
    exact .ok _
  | berry bend pitch length width hkind =>
    obtain ⟨_, _, hsize⟩ := berrySize_of_not_tooWide h s
    rw [segment_berry bend pitch length width hkind, hsize]
    exact .ok _
  | other bend pitch length width h₀ h₁ =>
    rw [segment_of_other bend pitch length width h₀ h₁]
    exact .error rfl
  | arity harity =>
    rw [harity]
    exact .error rfl

theorem returns_standard (h : ¬ cfg.berrySizes.TooWide) (t : Token) (s : Keystream) :
    Returns ((standard .phyllotactic).replace cfg t s) := by
  obtain ⟨symbol, params⟩ := t
  refine returns_replace (fun production hget => ?_) s
  rcases get?_cases hget with rfl | rfl | rfl | rfl | ⟨rfl, rfl⟩
  · exact returns_production returns_axis
  · exact returns_production returns_secondary
  · exact returns_production returns_tip
  · exact returns_production returns_pedicel
  · exact returns_segment h params

end Tapered

theorem returns_standard {v : Variant} (h : ¬ (v = .phyllotactic ∧ cfg.berrySizes.TooWide))
    (t : Token) (s : Keystream) : Returns ((standard v).replace cfg t s) := by
  cases v with
  | planar => exact Planar.returns_standard t s
  | phyllotactic => exact Tapered.returns_standard (fun hwide => h ⟨rfl, hwide⟩) t s

end Grammar

/-- A conversion saturates. -/
theorem Number.Single.truncate_lt (x : Float32) : Single.truncate x < 2 ^ 63 := by
  rw [Single.truncate]
  dsimp only
  generalize Binary.units Single.format _ / Nat.pow 2 _ = whole
  split
  · decide
  · split <;> omega

namespace LSystem

variable {cfg : Config} {sys : LSystem}

/-- The first berry is one too many. -/
theorem expand_of_tooWide (hsys : standard cfg = .ok sys) (hv : cfg.variant = .phyllotactic)
    (hwide : cfg.berrySizes.TooWide) :
    sys.expand [⟨.segment, [1, 0, 0, 0, 0]⟩] 1 =
      .error (.rangeTooWide cfg.berrySizes.low cfg.berrySizes.high) := by
  obtain ⟨_, rfl⟩ := standard_eq_ok_iff.mp hsys
  rw [expand_eq_error_iff, passes_eq_rounds, rounds_succ, pass_cons, hv,
    Tapered.replace_berry 0 0 0 0 Tapered.truncate_one, berrySize_of_tooWide hwide]
  rfl

/-- **Usable constants never abort an expansion, unless berries are drawn from a range too wide.**
Any other range has a berry to give, and depths stay within 64 bits on their way to the table. -/
theorem returns_iff (hsys : standard cfg = .ok sys) :
    ((∀ word n, Returns (sys.expand word n)) ↔
      ¬ (cfg.variant = .phyllotactic ∧ cfg.berrySizes.TooWide)) ∧
    ((∀ s, ∃ size s', berrySize cfg s = .ok (size, s')) ↔ ¬ cfg.berrySizes.TooWide) ∧
    ∀ depth, 1 < Single.truncate depth →
      0 ≤ Single.truncate depth - 2 ∧ Single.truncate depth - 1 < 2 ^ 63 := by
  refine ⟨⟨fun hreturns hwide => ?_, fun h word n => ?_⟩, ⟨fun hsizes hwide => ?_, ?_⟩,
    fun depth hlt => ?_⟩
  · obtain ⟨hv, hwide⟩ := hwide
    cases hreturns _ _ _ (expand_of_tooWide hsys hv hwide)
  · obtain ⟨_, rfl⟩ := standard_eq_ok_iff.mp hsys
    exact (returns_passes (returns_standard h) n word _).map
  · obtain ⟨_, _, hok⟩ := hsizes (.ofSeed 0)
    rw [berrySize_of_tooWide hwide] at hok
    cases hok
  · exact berrySize_of_not_tooWide
  · have hbound := Single.truncate_lt depth
    omega

/-- Neither preset aborts, and the flat one does not with ends that are too far apart either. -/
theorem returns_iff_presets :
    (∃ sys, standard .phyllotactic = .ok sys ∧ ∀ word n, Returns (sys.expand word n)) ∧
    ∃ sys, standard { Config.planar with berrySizes := ⟨-2e38, 2e38⟩ } = .ok sys ∧
      ∀ word n, Returns (sys.expand word n) := by
  have hsys := @standard_of_valid .phyllotactic (by decide)
  have hsys' := @standard_of_valid { Config.planar with berrySizes := ⟨-2e38, 2e38⟩ }
    (by decide +kernel)
  exact ⟨⟨_, hsys, (returns_iff hsys).1.mpr (by decide)⟩,
    ⟨_, hsys', (returns_iff hsys').1.mpr (by decide)⟩⟩

/-- The preset in space with such ends does, on its way from the start as well as at a single
segment. -/
theorem not_returns_wide :
    Config.validate { Config.phyllotactic with berrySizes := ⟨-2e38, 2e38⟩ } = .ok () ∧
    ∃ sys, standard { Config.phyllotactic with berrySizes := ⟨-2e38, 2e38⟩ } = .ok sys ∧
      sys.expand [⟨.segment, [1, 0, 0, 0, 0]⟩] 1 = .error (.rangeTooWide (-2e38) 2e38) ∧
      sys.derive 15 = .error (.rangeTooWide (-2e38) 2e38) := by
  have hvalid :
      Config.validate { Config.phyllotactic with berrySizes := ⟨-2e38, 2e38⟩ } = .ok () := by
    decide +kernel
  have hsys := standard_of_valid hvalid
  have hexpand := expand_of_tooWide hsys rfl (by decide +kernel)
  refine ⟨hvalid, _, hsys, hexpand, ?_⟩
  clear hsys hexpand
  decide +kernel +revert

end LSystem

end Grapevine
