import Grapevine.Proofs.Brackets
import Grapevine.Proofs.Shoot.Joints
import Grapevine.Turtle.Walk

/-! Steps and runs of a walk.

What one token does to a walk is listed once, by its symbol (`Step`, `step_eq_ok_iff`), and a run is
one step after the other (`Run`, `run_eq_ok_iff`). What every step keeps is kept by a run
(`Run.keeps`), and what every step counts on the tokens that are carried out, a run counts on all of
them (`Run.counts`). -/
namespace Grapevine.Turtle.Walk

variable {cfg : Config} {w v w' : Walk} {t : Token} {word : List Token} {x : Symbol}

/-! ### One token -/

/-- The axis that a token turns the turtle about, and the angle in degrees. -/
def turn? (cfg : Config) (t : Token) : Option (Axis × Float32) :=
  match Action.ofSymbol? t.symbol with
  | some (.bend sense) => some (cfg.bendAxis, t.paramD 0 cfg.defaultAngle * sense.factor)
  | some (.pitch sense) => some (cfg.pitchAxis, t.paramD 0 cfg.defaultAngle * sense.factor)
  | some (.roll sense) => some (cfg.rollAxis, t.paramD 0 cfg.rollStep * sense.factor)
  | _ => none

theorem adjusts_of_turn? {turn : Axis × Float32} (h : turn? cfg t = some turn) :
    t.adjusts = true := by
  obtain ⟨symbol, params⟩ := t
  cases symbol <;> first | rfl | cases h

/-- What a token does: it is swallowed, or else does what its symbol asks for. -/
inductive Step (cfg : Config) (w : Walk) (t : Token) : Walk → Prop where
  | swallowed (hskip : w.skipping = true) (ht : t.isNonterminal = false) :
      Step cfg w t { w with skipping := false }.advance
  | drawn (hawake : w.skipping = false) (ht : t.symbol = .forward) :
      Step cfg w t (w.draw (t.paramD 0 cfg.defaultLength)).advance
  | hung (hawake : w.skipping = false) (ht : t.symbol = .berry) :
      Step cfg w t (w.hang (t.paramD 0 cfg.defaultBerrySize)).advance
  | turned (hawake : w.skipping = false) {axis : Axis} {degrees : Float32}
      (ht : turn? cfg t = some (axis, degrees)) : Step cfg w t (w.turn axis degrees).advance
  | widened (hawake : w.skipping = false) (ht : t.symbol = .width) :
      Step cfg w t { w with turtle.width := t.paramD 0 w.turtle.width }.advance
  | saved (hawake : w.skipping = false) (ht : t.symbol = .push)
      (hroom : w.saved.length < cfg.maxStackDepth) :
      Step cfg w t { w with
        saved := w.turtle :: w.saved
        events := w.events.push (.branchOpen (w.saved.length + 1)) }.advance
  | restored (hawake : w.skipping = false) (ht : t.symbol = .pop) {turtle : Turtle}
      {saved : List Turtle} (hsaved : w.saved = turtle :: saved) :
      Step cfg w t
        { w with turtle, saved, events := w.events.push (.branchClose saved.length) }.advance
  | unmatched (hawake : w.skipping = false) (ht : t.symbol = .pop) (hsaved : w.saved = []) :
      Step cfg w t { w with unmatched := w.unmatched.push w.index }.advance
  | skipped (hawake : w.skipping = false) (ht : t.symbol = .skip) :
      Step cfg w t { w with skipping := true }.advance

/-- A swallowed token moves nothing but the position, and wakes the walk. -/
theorem step_of_swallowed (hskip : w.skipping = true) (ht : t.isNonterminal = false) :
    step cfg w t = .ok { w with skipping := false }.advance := by
  obtain ⟨action, haction⟩ : ∃ action, Action.ofSymbol? t.symbol = some action := by
    rw [← Option.isSome_iff_exists, ← Option.not_isNone, Action.isNone_ofSymbol?]
    simpa [Token.isNonterminal] using ht
  simp only [step, haction, hskip, if_true]

theorem step_eq_act {action : Action} (hawake : w.skipping = false)
    (haction : Action.ofSymbol? t.symbol = some action) :
    step cfg w t = (w.act cfg t action).map advance := by
  simp only [step, haction, hawake, Bool.false_eq_true, if_false]

theorem step_of_awake {action : Action} (hawake : w.skipping = false)
    (haction : Action.ofSymbol? t.symbol = some action) (hact : w.act cfg t action = .ok v) :
    step cfg w t = .ok v.advance := by
  rw [step_eq_act hawake haction, hact]
  rfl

/-- Carried out, a token does what its symbol asks for, one case for each kind of symbol. -/
theorem Step.of_awake (hawake : w.skipping = false) (h : step cfg w t = .ok w') :
    Step cfg w t w' := by
  obtain ⟨symbol, params⟩ := t
  cases symbol with
  | forward =>
    rw [step_eq_act hawake rfl] at h
    cases h
    exact .drawn hawake rfl
  | berry =>
    rw [step_eq_act hawake rfl] at h
    cases h
    exact .hung hawake rfl
  | bendLeft | bendRight | rollLeft | rollRight | pitchDown | pitchUp =>
    rw [step_eq_act hawake rfl] at h
    cases h
    exact .turned hawake rfl
  | width =>
    rw [step_eq_act hawake rfl] at h
    cases h
    exact .widened hawake rfl
  | push =>
    rw [step_eq_act hawake rfl, act, save] at h
    split at h
    · cases h
    · rename_i hroom
      cases h
      exact .saved hawake rfl (Nat.lt_of_not_le hroom)
  | pop =>
    rw [step_eq_act hawake rfl, act] at h
    cases h
    rw [restore]
    split
    · rename_i hsaved
      exact .restored hawake rfl hsaved
    · rename_i hsaved
      exact .unmatched hawake rfl hsaved
  | skip =>
    rw [step_eq_act hawake rfl] at h
    cases h
    exact .skipped hawake rfl
  | bud | segment => cases h

theorem Step.of_step (h : step cfg w t = .ok w') : Step cfg w t w' := by
  cases hskip : w.skipping with
  | false => exact .of_awake hskip h
  | true =>
    cases ht : t.isNonterminal with
    | true =>
      rw [Token.isNonterminal, ← Action.isNone_ofSymbol?, Option.isNone_iff_eq_none] at ht
      simp [step, ht] at h
    | false =>
      rw [step_of_swallowed hskip ht] at h
      cases h
      exact .swallowed hskip ht

theorem Step.step_eq (h : Step cfg w t w') : step cfg w t = .ok w' := by
  obtain ⟨symbol, params⟩ := t
  cases h with
  | swallowed hskip ht => exact step_of_swallowed hskip ht
  | drawn hawake ht | hung hawake ht | widened hawake ht | skipped hawake ht =>
    cases ht
    exact step_of_awake hawake rfl rfl
  | turned hawake ht =>
    cases symbol <;> cases ht <;> exact step_of_awake hawake rfl rfl
  | saved hawake ht hroom =>
    cases ht
    exact step_of_awake hawake rfl (if_neg (Nat.not_le.mpr hroom))
  | restored hawake ht hsaved | unmatched hawake ht hsaved =>
    cases ht
    rw [step_eq_act hawake rfl, act, restore, hsaved]
    rfl

/-- A step of the walk is what `Step` says, in both directions. -/
theorem step_eq_ok_iff : step cfg w t = .ok w' ↔ Step cfg w t w' := ⟨.of_step, Step.step_eq⟩

/-! ### Whole words -/

/-- Step after step. -/
inductive Run (cfg : Config) : Walk → List Token → Walk → Prop where
  | nil (w : Walk) : Run cfg w [] w
  | cons {w v w' : Walk} {t : Token} {word : List Token} (hstep : Step cfg w t v)
      (hrest : Run cfg v word w') : Run cfg w (t :: word) w'

theorem run_cons (t : Token) (word : List Token) :
    run cfg w (t :: word) = (step cfg w t).bind fun v => run cfg v word := rfl

/-- A run is what its tokens do, one after the other. -/
theorem run_eq_ok_iff : run cfg w word = .ok w' ↔ Run cfg w word w' := by
  induction word generalizing w with
  | nil =>
    apply Iff.intro
    · intro h
      cases h
      exact .nil _
    · intro h
      cases h
      rfl
  | cons t word ih =>
    rw [run_cons]
    apply Iff.intro
    · intro h
      cases hstep : step cfg w t with
      | error fault =>
        rw [hstep] at h
        cases h
      | ok v =>
        rw [hstep] at h
        exact .cons (step_eq_ok_iff.mp hstep) (ih.mp h)
    · intro h
      cases h with
      | cons hstep hrest =>
        rw [step_eq_ok_iff.mpr hstep]
        exact ih.mpr hrest

/-- A run over a word leads to one place at most. -/
theorem Run.unique (h : Run cfg w word v) (h' : Run cfg w word w') : v = w' := by
  rw [← run_eq_ok_iff] at h h'
  exact Except.ok.inj (h.symm.trans h')

/-- A run over a word in two parts stands, between them, where the first part leads. -/
theorem run_append_iff {u : List Token} :
    Run cfg w (u ++ word) w' ↔ ∃ v, Run cfg w u v ∧ Run cfg v word w' := by
  simp only [← run_eq_ok_iff, run_append]
  cases run cfg w u <;> simp [Except.bind]

/-- A walk is a run from the root. -/
theorem walk_eq_ok_iff {trail : Trail} :
    walk cfg word = .ok trail ↔ ∃ w, Run cfg (start cfg) word w ∧ w.trail = trail := by
  simp only [← run_eq_ok_iff, walk]
  cases run cfg (start cfg) word <;> simp [Except.map]

theorem walk_eq_error_iff {fault : Fault} :
    walk cfg word = .error fault ↔ run cfg (start cfg) word = .error fault := by
  rw [walk]
  cases run cfg (start cfg) word <;> simp [Except.map]

/-- What every step keeps, a run keeps. -/
theorem Run.keeps {P : Walk → Prop} (hstep : ∀ {w t v}, Step cfg w t v → P w → P v)
    (h : Run cfg w word w') (hw : P w) : P w' := by
  induction h with
  | nil => exact hw
  | cons ht _ ih => exact ih (hstep ht hw)

/-- Whether the next token is swallowed can be read off the word. -/
theorem Step.skipping (h : Step cfg w t w') : w'.skipping = pending w.skipping [t] := by
  cases h with
  | swallowed hskip => rw [hskip]; rfl
  | skipped hawake ht => rw [hawake, pending, ht]; rfl
  | drawn hawake ht | hung hawake ht | widened hawake ht | saved hawake ht | restored hawake ht
  | unmatched hawake ht =>
    show w.skipping = pending w.skipping [t]
    rw [hawake, pending, ht]
    rfl
  | turned hawake ht =>
    have hne : t.symbol ≠ .skip := Token.plain_of_eq (by simp) t (adjusts_of_turn? ht)
    show w.skipping = pending w.skipping [t]
    rw [hawake, pending, decide_eq_false hne]
    rfl

theorem Run.skipping (h : Run cfg w word w') : w'.skipping = pending w.skipping word := by
  induction h with
  | nil w => cases w.skipping <;> rfl
  | cons ht _ ih =>
    rw [ih, ht.skipping, ← pending_append]
    rfl

theorem Step.index (h : Step cfg w t w') : w'.index = w.index + 1 := by
  cases h <;> rfl

theorem Run.index (h : Run cfg w word w') : w'.index = w.index + word.length := by
  induction h with
  | nil => rfl
  | cons ht _ ih =>
    rw [ih, ht.index, List.length_cons]
    omega

theorem Run.index_eq_length (h : Run cfg (start cfg) word w) : w.index = word.length :=
  h.index.trans (Nat.zero_add _)

theorem occurrences_awake (hawake : w.skipping = false) :
    Token.occurrences x (executed w.skipping [t]) = if t.symbol = x then 1 else 0 := by
  rw [hawake, executed, executed, Token.occurrences_cons, Token.occurrences_nil, Nat.zero_add]

/-- A number that every step raises as often as it carries out a symbol, a run raises so. -/
theorem Run.counts {P : Walk → Prop} {f : Walk → Nat}
    (hstep : ∀ {w t v}, Step cfg w t v → P w →
      P v ∧ f v = f w + Token.occurrences x (executed w.skipping [t]))
    (h : Run cfg w word w') (hw : P w) :
    f w' = f w + Token.occurrences x (executed w.skipping word) := by
  induction h with
  | nil w => cases w.skipping <;> rfl
  | cons ht _ ih =>
    obtain ⟨hv, hcount⟩ := hstep ht hw
    rw [ih hv, hcount, ht.skipping, Nat.add_assoc, ← Token.occurrences_append, ← executed_append]
    rfl

end Grapevine.Turtle.Walk
