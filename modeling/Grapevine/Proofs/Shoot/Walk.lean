import Grapevine.Proofs.Shoot.Skeleton
import Grapevine.Proofs.Walk.Step

/-! Walking along a shoot.

A walk along the word of a shoot comes to an end if and only if the stack has room for the nesting
of the shoot. It leaves the stack as it was, and makes the edges and hangs the berries of the shoot
(`Walk.draws_shoot`, `walk_shoot`). -/
namespace Grapevine.Turtle

open Grammar Skeleton Shoot

namespace Walk

variable {cfg : Config}

theorem run_cons_of_ok {w w' : Walk} {t : Token} (h : step cfg w t = .ok w') (word : List Token) :
    run cfg w (t :: word) = run cfg w' word := by
  show (step cfg w t).bind _ = _
  rw [h]
  rfl

theorem run_cons_of_error {w : Walk} {t : Token} {fault : Fault} (h : step cfg w t = .error fault)
    (word : List Token) : run cfg w (t :: word) = .error fault := by
  show (step cfg w t).bind _ = _
  rw [h]
  rfl

theorem run_append_of_ok {w w' : Walk} {u : List Token} (h : run cfg w u = .ok w')
    (v : List Token) : run cfg w (u ++ v) = run cfg w' v := by
  rw [run_append, h]
  rfl

theorem run_append_of_error {w : Walk} {u : List Token} {fault : Fault}
    (h : run cfg w u = .error fault) (v : List Token) : run cfg w (u ++ v) = .error fault := by
  rw [run_append, h]
  rfl

/-- The numbers of the nodes that berries hang on. -/
def berries (w : Walk) : List Nat := w.skeleton.attachments.toList.map Attachment.node

/-- The next token is carried out, and the turtle stands on this node of the skeleton. -/
structure Ready (node : Nat) (w : Walk) : Prop where
  awake : w.skipping = false
  stands : w.turtle.node = number node
  lt : node < w.skeleton.nodes.size

theorem Ready.turtle_lt {node : Nat} {w : Walk} (h : w.Ready node) :
    w.turtle.node < w.skeleton.nodes.size := by
  rw [h.stands]
  exact (number_le _).trans_lt h.lt

/-- What a stretch of a walk adds that leaves the stack as it was: edges to as many new nodes, and
berries on nodes. Of nodes that are counted on, the skeleton holds the numbers. -/
structure Adds (w w' : Walk) (edges : List Edge) (berries : List Nat) : Prop where
  awake : w'.skipping = false
  saved : w'.saved = w.saved
  unmatched : w'.unmatched = w.unmatched
  nodes : w'.skeleton.nodes.size = w.skeleton.nodes.size + edges.length
  edges : w'.skeleton.edges.toList = w.skeleton.edges.toList ++ edges.map Edge.number
  berries : w'.berries = w.berries ++ berries.map number

theorem Adds.trans {w w' w'' : Walk} {e e' : List Edge} {b b' : List Nat} (h : Adds w w' e b)
    (h' : Adds w' w'' e' b') : Adds w w'' (e ++ e') (b ++ b') where
  awake := h'.awake
  saved := h'.saved.trans h.saved
  unmatched := h'.unmatched.trans h.unmatched
  nodes := by rw [h'.nodes, h.nodes, List.length_append, Nat.add_assoc]
  edges := by rw [h'.edges, h.edges, List.map_append, List.append_assoc]
  berries := by rw [h'.berries, h.berries, List.map_append, List.append_assoc]

theorem adds_nil {w w' : Walk} (hawake : w'.skipping = false) (hsaved : w'.saved = w.saved)
    (hunmatched : w'.unmatched = w.unmatched) (hskeleton : w'.skeleton = w.skeleton) :
    Adds w w' [] [] := by
  refine ⟨hawake, hsaved, hunmatched, ?_, ?_, ?_⟩
  · rw [hskeleton]
    rfl
  · rw [hskeleton, List.map_nil, List.append_nil]
  · rw [berries, hskeleton, List.map_nil, List.append_nil]
    rfl

theorem Adds.ready {w w' : Walk} {e : List Edge} {b : List Nat} (h : Adds w w' e b) {node : Nat}
    (hnode : w'.turtle.node = number node) (hlt : node < w.skeleton.nodes.size + e.length) :
    w'.Ready node :=
  ⟨h.awake, hnode, by rwa [h.nodes]⟩

/-- Where the turtle is as it was, it stands on the same node. -/
theorem Adds.ready_of_node {w w' : Walk} {e : List Edge} {b : List Nat} {node : Nat}
    (h : Adds w w' e b) (hw : w.Ready node) (hnode : w'.turtle.node = w.turtle.node) :
    w'.Ready node :=
  h.ready (hnode.trans hw.stands) (Nat.lt_of_lt_of_le hw.lt (Nat.le_add_right ..))

/-! ### Single tokens -/

theorem step_adjusts {w : Walk} {t : Token} (h : w.skipping = false) (ht : t.adjusts = true) :
    ∃ w', step cfg w t = .ok w' ∧ Adds w w' [] [] ∧ w'.turtle.node = w.turtle.node := by
  obtain ⟨symbol, params⟩ := t
  cases symbol with
  | bendLeft | bendRight | rollLeft | rollRight | pitchDown | pitchUp | width =>
    exact ⟨_, step_of_awake h rfl rfl, adds_nil h rfl rfl rfl, rfl⟩
  | _ => cases ht

theorem step_forward {w : Walk} (h : w.skipping = false) (length : Float32) :
    step cfg w ⟨.forward, [length]⟩ = .ok (w.draw length).advance :=
  step_of_awake h rfl rfl

theorem step_berry {w : Walk} (h : w.skipping = false) (size : Float32) :
    step cfg w ⟨.berry, [size]⟩ = .ok (w.hang size).advance :=
  step_of_awake h rfl rfl

/-- A `%` swallows the terminal behind it. -/
theorem run_skip {w : Walk} (h : w.skipping = false) {t : Token} (ht : t.isNonterminal = false) :
    ∃ w', run cfg w [.bare .skip, t] = .ok w' ∧ Adds w w' [] [] := by
  have hskip : step cfg w (.bare .skip) = .ok { w with skipping := true }.advance :=
    step_of_awake h rfl rfl
  have hnext : step cfg { w with skipping := true }.advance t =
      .ok { w with skipping := false, index := w.index + 1 }.advance := step_of_swallowed rfl ht
  exact ⟨_, (run_cons_of_ok hskip [t]).trans (run_cons_of_ok hnext []), adds_nil rfl rfl rfl rfl⟩

theorem step_push {w : Walk} {node : Nat} (h : w.Ready node)
    (hroom : w.saved.length < cfg.maxStackDepth) :
    ∃ w', step cfg w (.bare .push) = .ok w' ∧ w'.Ready node ∧
      w'.saved = w.turtle :: w.saved ∧ w'.unmatched = w.unmatched ∧ w'.skeleton = w.skeleton := by
  have hsave : w.act cfg (.bare .push) .save = .ok { w with
      saved := w.turtle :: w.saved
      events := w.events.push (.branchOpen (w.saved.length + 1)) } := if_neg (Nat.not_le.mpr hroom)
  exact ⟨_, step_of_awake h.awake rfl hsave, ⟨h.awake, h.stands, h.lt⟩, rfl, rfl, rfl⟩

theorem step_push_tooDeep {w : Walk} (h : w.skipping = false)
    (hfull : cfg.maxStackDepth ≤ w.saved.length) :
    step cfg w (.bare .push) = .error (.tooDeep w.index cfg.maxStackDepth) := by
  simp only [step, Token.bare, Action.ofSymbol?, h, Bool.false_eq_true, if_false, act, save,
    if_pos hfull, Except.map]

theorem step_pop {w : Walk} {turtle : Turtle} {saved : List Turtle} (h : w.skipping = false)
    (hsaved : w.saved = turtle :: saved) :
    ∃ w', step cfg w (.bare .pop) = .ok w' ∧ w'.skipping = false ∧ w'.turtle = turtle ∧
      w'.saved = saved ∧ w'.unmatched = w.unmatched ∧ w'.skeleton = w.skeleton := by
  have hrestore : w.restore =
      { w with turtle, saved, events := w.events.push (.branchClose saved.length) } := by
    rw [restore, hsaved]
  refine ⟨_, step_of_awake h rfl rfl, ?_⟩
  rw [hrestore]
  exact ⟨h, rfl, rfl, rfl, rfl⟩

theorem adds_draw {w : Walk} {node : Nat} (h : w.Ready node) (length : Float32) :
    Adds w (w.draw length).advance [⟨node, w.skeleton.nodes.size⟩] [] where
  awake := h.awake
  saved := rfl
  unmatched := rfl
  nodes := size_nodes_addNode ..
  edges := by
    show (w.skeleton.edges.push ⟨w.turtle.node, _⟩).toList = _
    rw [Array.toList_push, h.stands]
    rfl
  berries := (List.append_nil _).symm

theorem adds_hang {w : Walk} {node : Nat} (h : w.Ready node) (size : Float32) :
    Adds w (w.hang size).advance [] [node] := by
  have hlt := h.turtle_lt
  have hattach : (w.hang size).advance.skeleton = { w.skeleton with
      attachments := w.skeleton.attachments.push
        ⟨w.turtle.node, w.skeleton.nodes[w.turtle.node].position, size⟩ } := by
    simp only [advance, hang, attach, Array.getElem?_eq_getElem hlt]
  refine ⟨h.awake, rfl, rfl, ?_, ?_, ?_⟩
  · rw [hattach]
    rfl
  · rw [hattach, List.map_nil, List.append_nil]
  · rw [berries, hattach, Array.toList_push, List.map_append, List.map_singleton, List.map_singleton,
      ← h.stands]
    rfl

/-! ### Stalks and pedicels -/

theorem run_adjusts {word : List Token} (hword : ∀ t ∈ word, t.adjusts = true) {w : Walk}
    (h : w.skipping = false) :
    ∃ w', run cfg w word = .ok w' ∧ Adds w w' [] [] ∧ w'.turtle.node = w.turtle.node := by
  induction word generalizing w with
  | nil => exact ⟨w, rfl, adds_nil h rfl rfl rfl, rfl⟩
  | cons t word ih =>
    obtain ⟨ht, hrest⟩ := List.forall_mem_cons.mp hword
    obtain ⟨w₁, hstep, hadds, hnode⟩ := @step_adjusts cfg _ _ h ht
    obtain ⟨w₂, hrun, hadds', hnode'⟩ := ih hrest hadds.awake
    refine ⟨w₂, ?_, hadds.trans hadds', hnode'.trans hnode⟩
    rw [run_cons_of_ok hstep]
    exact hrun

/-- A stalk ends on a new node. -/
theorem run_stalk (s : Stalk) {w : Walk} {node : Nat} (h : w.Ready node) :
    ∃ w', run cfg w s.word = .ok w' ∧ Adds w w' [⟨node, w.skeleton.nodes.size⟩] [] ∧
      w'.Ready w.skeleton.nodes.size := by
  obtain ⟨w₁, hrun, hadds, hnode⟩ := run_adjusts s.adjusts h.awake
  have hsize : w₁.skeleton.nodes.size = w.skeleton.nodes.size := hadds.nodes
  have hready := hadds.ready_of_node h hnode
  have hdraw := hadds.trans (adds_draw hready s.length)
  rw [hsize] at hdraw
  refine ⟨_, ?_, hdraw, hdraw.ready (congrArg number hsize) (Nat.lt_succ_self _)⟩
  rw [Stalk.word, run_append_of_ok hrun]
  exact run_cons_of_ok (step_forward hready.awake s.length) []

/-- A berry is hung on the end of the pedicel, unless it is swallowed. -/
theorem run_pedicel (p : Pedicel) {w : Walk} {node : Nat} (h : w.Ready node) :
    ∃ w', run cfg w p.word = .ok w' ∧ Adds w w' [⟨node, w.skeleton.nodes.size⟩]
      (if p.swallowed then [] else [w.skeleton.nodes.size]) := by
  obtain ⟨w₁, hrun, hadds, hready⟩ := run_stalk p.stalk h
  rw [Pedicel.word, List.append_assoc, run_append_of_ok hrun]
  cases p.swallowed
  · exact ⟨_, run_cons_of_ok (step_berry hready.awake p.size) [],
      hadds.trans (adds_hang hready p.size)⟩
  · obtain ⟨w₂, hskip, hnone⟩ := run_skip hready.awake (t := ⟨.berry, [p.size]⟩) rfl
    exact ⟨w₂, hskip, hadds.trans hnone⟩

/-! ### Branches

Edges and berries are given by the node that they start from and the next node, which are counted
without end. -/

/-- With room for so many more brackets a walk along the word adds these edges and berries, from
whatever node it starts. Without, the stack overflows. Some words return: they take the turtle back
to where it was. -/
structure Draws (cfg : Config) (returns : Prop) (word : List Token) (nesting size : Nat)
    (edges : Nat → Nat → List Edge) (berries : Nat → List Nat) : Prop where
  length_edges : ∀ parent n, (edges parent n).length = size
  fits : ∀ (w : Walk) (node : Nat), w.Ready node → w.saved.length + nesting ≤ cfg.maxStackDepth →
    ∃ w', run cfg w word = .ok w' ∧ (returns → w'.turtle = w.turtle) ∧
      Adds w w' (edges node w.skeleton.nodes.size) (berries w.skeleton.nodes.size)
  tooDeep : ∀ (w : Walk) (node : Nat), w.Ready node → w.saved.length ≤ cfg.maxStackDepth →
    cfg.maxStackDepth < w.saved.length + nesting →
      ∃ i, run cfg w word = .error (.tooDeep i cfg.maxStackDepth)

variable {r : Prop} {u v : List Token} {k l m n : Nat} {e e' : Nat → Nat → List Edge}
  {b b' : Nat → List Nat}

/-- A branch returns, and needs room for one bracket more than what it holds. -/
theorem Draws.branch (h : Draws cfg r u k m e b) : Draws cfg True (branch u) (k + 1) m e b := by
  refine ⟨h.length_edges, fun w node hw hroom => ?_, fun w node hw hle hfull => ?_⟩
  · obtain ⟨w₁, hpush, hready, hsaved, hunmatched, hskeleton⟩ := @step_push cfg w node hw (by omega)
    obtain ⟨w₂, hrun, _, hadds⟩ := h.fits w₁ node hready (by rw [hsaved, List.length_cons]; omega)
    obtain ⟨w₃, hpop, hawake', hturtle', hsaved', hunmatched', hskeleton'⟩ :=
      @step_pop cfg w₂ _ _ hadds.awake (hadds.saved.trans hsaved)
    rw [hskeleton] at hadds
    refine ⟨w₃, ?_, fun _ => hturtle', hawake', hsaved', ?_, ?_, ?_, ?_⟩
    · calc run cfg w (Grammar.branch u)
        _ = run cfg w₁ (u ++ [Token.bare .pop]) := run_cons_of_ok hpush (u ++ [Token.bare .pop])
        _ = run cfg w₂ [Token.bare .pop] := run_append_of_ok hrun [Token.bare .pop]
        _ = .ok w₃ := run_cons_of_ok hpop []
    · rw [hunmatched', hadds.unmatched, hunmatched]
    · rw [hskeleton', hadds.nodes, hskeleton]
    · rw [hskeleton', hadds.edges, hskeleton]
    · rw [berries, hskeleton', ← berries, hadds.berries, berries, hskeleton, ← berries]
  · by_cases hroom : w.saved.length < cfg.maxStackDepth
    · obtain ⟨w₁, hpush, hready, hsaved, _⟩ := @step_push cfg w node hw hroom
      obtain ⟨i, hrun⟩ := h.tooDeep w₁ node hready (by rw [hsaved, List.length_cons]; omega)
        (by rw [hsaved, List.length_cons]; omega)
      exact ⟨i, (run_cons_of_ok hpush _).trans (run_append_of_error hrun _)⟩
    · exact ⟨_, run_cons_of_error (step_push_tooDeep hw.awake (Nat.le_of_not_lt hroom)) _⟩

/-- Behind a word that returns, the next starts where it did. -/
theorem Draws.append (h : Draws cfg True u k m e b) (h' : Draws cfg r v l n e' b') :
    Draws cfg r (u ++ v) (max k l) (m + n)
      (fun parent next => e parent next ++ e' parent (next + m))
      (fun next => b next ++ b' (next + m)) := by
  refine ⟨fun parent next => ?_, fun w node hw hroom => ?_, fun w node hw hle hfull => ?_⟩
  · rw [List.length_append, h.length_edges, h'.length_edges]
  · obtain ⟨w₁, hrun, hturtle, hadds⟩ := h.fits w node hw (by omega)
    have hready := hadds.ready_of_node hw (congrArg Turtle.node (hturtle trivial))
    obtain ⟨w₂, hrun', hturtle', hadds'⟩ := h'.fits w₁ node hready (by rw [hadds.saved]; omega)
    rw [hadds.nodes, h.length_edges] at hadds'
    exact ⟨w₂, (run_append_of_ok hrun v).trans hrun',
      fun hr => (hturtle' hr).trans (hturtle trivial), hadds.trans hadds'⟩
  · by_cases hfirst : w.saved.length + k ≤ cfg.maxStackDepth
    · obtain ⟨w₁, hrun, hturtle, hadds⟩ := h.fits w node hw hfirst
      have hready := hadds.ready_of_node hw (congrArg Turtle.node (hturtle trivial))
      obtain ⟨i, hrun'⟩ := h'.tooDeep w₁ node hready (by rw [hadds.saved]; exact hle)
        (by rw [hadds.saved]; omega)
      exact ⟨i, (run_append_of_ok hrun v).trans hrun'⟩
    · obtain ⟨i, hrun⟩ := h.tooDeep w node hw hle (Nat.lt_of_not_le hfirst)
      exact ⟨i, run_append_of_error hrun v⟩

/-- Behind a stalk, all starts from the node at its end. -/
theorem Draws.behind (h : Draws cfg True u k m e b) (s : Stalk) :
    Draws cfg False (s.word ++ u) k (m + 1)
      (fun parent next => ⟨parent, next⟩ :: e next (next + 1)) (fun next => b (next + 1)) := by
  refine ⟨fun parent next => ?_, fun w node hw hroom => ?_, fun w node hw hle hfull => ?_⟩
  · rw [List.length_cons, h.length_edges]
  · obtain ⟨w₁, hrun, hadds, hready⟩ := run_stalk s hw
    obtain ⟨w₂, hrun', _, hadds'⟩ := h.fits w₁ _ hready (by rw [hadds.saved]; exact hroom)
    rw [hadds.nodes] at hadds'
    exact ⟨w₂, (run_append_of_ok hrun u).trans hrun', False.elim, hadds.trans hadds'⟩
  · obtain ⟨w₁, hrun, hadds, hready⟩ := run_stalk s hw
    obtain ⟨i, hrun'⟩ := h.tooDeep w₁ _ hready (by rw [hadds.saved]; exact hle)
      (by rw [hadds.saved]; exact hfull)
    exact ⟨i, (run_append_of_ok hrun u).trans hrun'⟩

theorem draws_pedicel (p : Pedicel) :
    Draws cfg False p.word 0 1 (fun parent next => [⟨parent, next⟩])
      (fun next => numbered Joint.bears next [.pedicel p.swallowed]) := by
  refine ⟨fun _ _ => rfl, fun w node hw _ => ?_, fun w _ _ hle hfull => ?_⟩
  · obtain ⟨w', hrun, hadds⟩ := run_pedicel p hw
    refine ⟨w', hrun, False.elim, ?_⟩
    cases hp : p.swallowed <;> rw [hp] at hadds <;> exact hadds
  · exact absurd hfull (Nat.not_lt.mpr hle)

/-- **A walk along the word of a shoot draws the shoot, or overflows the stack.** -/
theorem draws_shoot (s : Shoot) :
    Draws cfg False s.word s.nesting s.joints.length s.edges s.bearing := by
  induction s with
  | tip stalk first second third =>
    have hdraws := ((@draws_pedicel cfg first).branch.append
      ((draws_pedicel second).branch.append (draws_pedicel third).branch)).behind stalk
    have hbearing : (tip stalk first second third).bearing = fun next =>
        numbered Joint.bears (next + 1) [.pedicel first.swallowed] ++
          (numbered Joint.bears (next + 1 + 1) [.pedicel second.swallowed] ++
            numbered Joint.bears (next + 1 + 1 + 1) [.pedicel third.swallowed]) := by
      funext next
      show numbered Joint.bears (next + 1) ([_] ++ ([_] ++ [_])) = _
      rw [numbered_append, numbered_append]
      rfl
    rw [Shoot.word, List.append_assoc, List.append_assoc, hbearing]
    exact hdraws
  | fork stalk first second ihf ihs =>
    have hdraws := (ihf.branch.append ihs.branch).behind stalk
    have hnesting : (fork stalk first second).nesting =
        max (first.nesting + 1) (second.nesting + 1) := (Nat.succ_max_succ ..).symm
    have hsize : (fork stalk first second).joints.length =
        first.joints.length + second.joints.length + 1 := by
      rw [joints, List.length_append, List.length_cons, Nat.add_right_comm]
    have hbearing : (fork stalk first second).bearing = fun next =>
        first.bearing (next + 1) ++ second.bearing (next + 1 + first.joints.length) := by
      funext next
      exact bearing_fork next stalk first second
    rw [Shoot.word, List.append_assoc, hnesting, hsize, hbearing]
    exact hdraws

/-! ### A whole walk -/

theorem ready_start (cfg : Config) : (start cfg).Ready 0 := ⟨rfl, rfl, Nat.one_pos⟩

end Walk

/-- **A shoot is walked to its end if and only if branches may nest as deep as it does.** The walk
leaves the skeleton of the shoot, and nothing open. -/
theorem walk_shoot (cfg : Config) (s : Shoot) :
    (s.nesting ≤ cfg.maxStackDepth → ∃ trail, walk cfg s.word = .ok trail ∧
      trail.isBalanced = true ∧ s.Grown trail.skeleton) ∧
    (cfg.maxStackDepth < s.nesting →
      ∃ i, walk cfg s.word = .error (.tooDeep i cfg.maxStackDepth)) := by
  have hsaved : ∀ n, (Walk.start cfg).saved.length + n = n := Nat.zero_add
  apply And.intro
  · intro hroom
    obtain ⟨w, hrun, _, hadds⟩ := (Walk.draws_shoot s).fits (.start cfg) 0 (Walk.ready_start cfg)
      (by rwa [hsaved])
    refine ⟨w.trail, ?_, ?_, ?_, hadds.edges, hadds.berries⟩
    · rw [walk, hrun]
      rfl
    · simp [Trail.isBalanced, Walk.trail, hadds.unmatched, hadds.saved, Walk.start]
    · rw [Nat.add_comm, ← length_edges 0 1]
      exact hadds.nodes
  · intro hfull
    obtain ⟨i, hrun⟩ := (Walk.draws_shoot s).tooDeep (.start cfg) 0 (Walk.ready_start cfg)
      (Nat.zero_le _) (by rwa [hsaved])
    refine ⟨i, ?_⟩
    rw [walk, hrun]
    rfl

end Grapevine.Turtle
