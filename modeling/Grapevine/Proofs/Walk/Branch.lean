import Grapevine.Proofs.Skeleton.Prune
import Grapevine.Proofs.Walk.Footing
import Grapevine.Proofs.Walk.Stack

/-! Walks with and without a branch.

Whatever a branch does, it is forgotten behind its last bracket. So a walk goes on behind it as it
would without it, token by token: the turtles are at the same place (`Abreast`), and as long as
there are numbers for all nodes, they stand on the same nodes, whose numbers are higher by what the
branch has made (`Renumbered`). In the end the skeletons differ by the branch alone
(`walk_without_branch`). Without a number for every node that fails: a berry behind the branch may
then hang on another node than it would without (`not_pruned_of_crowded`). -/
namespace Grapevine

/-- The node, whatever it grew from. -/
def Skeleton.Node.loose (n : Node) : Node := { n with parent := none }

namespace Turtle

open Skeleton

def lower (r : Stretch) (t : Turtle) : Turtle := { t with node := r.lower t.node }

theorem lower_of_lt {r : Stretch} {t : Turtle} (h : t.node < r.start) : t.lower r = t := by
  rw [lower, Stretch.lower_of_lt h]

/-- The turtle, whatever node it stands on. -/
def loose (t : Turtle) : Turtle := { t with node := 0 }

/-- The loose node that a turtle makes. -/
def print (t : Turtle) : Node := ⟨t.position, t.rotation, t.width, none⟩

namespace Walk

variable {cfg : Config} {w w' v : Walk} {t : Token} {word : List Token}
  {tokens nodes berries : Stretch}

/-- The first walk has made a branch, of these tokens, nodes and berries, that the second has not.
Otherwise both have done the same, and their turtles are at the same place. -/
structure Abreast (tokens nodes berries : Stretch) (w w' : Walk) : Prop where
  turtle : w'.turtle.loose = w.turtle.loose
  saved : w'.saved.map loose = w.saved.map loose
  skipping : w'.skipping = w.skipping
  index : w'.index = tokens.lower w.index
  unmatched : w'.unmatched = w.unmatched.map tokens.lower
  points : w'.skeleton.nodes.map Node.loose = (nodes.cut w.skeleton.nodes).map Node.loose
  sizes : w'.skeleton.attachments.map Attachment.size =
    (berries.cut w.skeleton.attachments).map Attachment.size
  past : tokens.stop ≤ w.index
  grown : nodes.stop ≤ w.skeleton.nodes.size
  hung : berries.stop ≤ w.skeleton.attachments.size

/-- The second walk has the skeleton of the first, without the branch, and its turtles stand on the
same nodes. Nothing stands on the branch. -/
structure Renumbered (nodes berries : Stretch) (w w' : Walk) : Prop where
  turtle : w'.turtle = w.turtle.lower nodes
  saved : w'.saved = w.saved.map (·.lower nodes)
  skeleton : w'.skeleton = w.skeleton.prune nodes berries
  spares : w.skeleton.Spares nodes berries
  stands : nodes.Misses w.turtle.node
  returns : ∀ turtle ∈ w.saved, nodes.Misses turtle.node

/-! ### Tokens behind the branch -/

namespace Abreast

theorem advance (h : Abreast tokens nodes berries w w') :
    Abreast tokens nodes berries w.advance w'.advance :=
  { h with
    index := by rw [Walk.advance, h.index, ← Stretch.lower_succ h.past]; rfl
    past := h.past.trans (Nat.le_succ _) }

theorem draw (h : Abreast tokens nodes berries w w') (length : Float32) :
    Abreast tokens nodes berries (w.draw length) (w'.draw length) where
  turtle := congrArg (Turtle.advance · length) h.turtle
  saved := h.saved
  skipping := h.skipping
  index := h.index
  unmatched := h.unmatched
  points := by
    have hprint := congrArg (fun turtle : Turtle => (turtle.advance length).print) h.turtle
    show (w'.skeleton.nodes.push _).map Node.loose = (nodes.cut (w.skeleton.nodes.push _)).map _
    rw [Stretch.cut_push h.grown, Array.map_push, Array.map_push, h.points]
    exact congrArg _ hprint
  sizes := h.sizes
  past := h.past
  grown := h.grown.trans (by rw [Walk.draw, size_nodes_addNode]; exact Nat.le_succ _)
  hung := h.hung

theorem hang (h : Abreast tokens nodes berries w w') (hw : w.Grounded) (hw' : w'.Grounded)
    (size : Float32) : Abreast tokens nodes berries (w.hang size) (w'.hang size) := by
  have hberries := attach_of_node (Array.getElem?_eq_getElem hw.stands) size
  have hberries' := attach_of_node (Array.getElem?_eq_getElem hw'.stands) size
  exact { h with
    points := by
      rw [Walk.hang, Walk.hang, hberries, hberries']
      exact h.points
    sizes := by
      rw [Walk.hang, Walk.hang, hberries, hberries']
      show (w'.skeleton.attachments.push _).map _ = (berries.cut (w.skeleton.attachments.push _)).map _
      rw [Stretch.cut_push h.hung, Array.map_push, Array.map_push, h.sizes]
    grown := by
      rw [Walk.hang, hberries]
      exact h.grown
    hung := by
      rw [Walk.hang, hberries, Array.size_push]
      exact h.hung.trans (Nat.le_succ _) }

theorem turn (h : Abreast tokens nodes berries w w') (axis : Axis) (degrees : Float32) :
    Abreast tokens nodes berries (w.turn axis degrees) (w'.turn axis degrees) :=
  { h with turtle := congrArg (Turtle.turn · axis (radians degrees)) h.turtle }

end Abreast

namespace Renumbered

theorem draw (h : Renumbered nodes berries w w') (hgrown : nodes.stop ≤ w.skeleton.nodes.size)
    {length : Float32} (hroom : (w.draw length).skeleton.nodes.size ≤ 2 ^ 32) :
    Renumbered nodes berries (w.draw length) (w'.draw length) := by
  rw [Walk.draw, size_nodes_addNode] at hroom
  have hnew : (w.draw length).turtle.node = w.skeleton.nodes.size := number_of_lt hroom
  have hnew' : (w'.draw length).turtle.node = nodes.lower w.skeleton.nodes.size := by
    show number w'.skeleton.nodes.size = _
    rw [h.skeleton, size_nodes_prune hgrown]
    exact number_of_lt (Stretch.lower_le.trans_lt hroom)
  refine ⟨?_, h.saved, ?_, h.spares.addNode rfl h.stands hgrown, ?_, h.returns⟩
  · show Turtle.mk _ _ _ (w'.draw length).turtle.node =
      Turtle.mk _ _ _ (nodes.lower (w.draw length).turtle.node)
    rw [hnew, hnew', h.turtle]
    rfl
  · show w'.skeleton.addNode ⟨(w'.turtle.advance length).position, w'.turtle.rotation,
      w'.turtle.width, some w'.turtle.node⟩ = _
    rw [h.turtle, h.skeleton]
    symm
    exact prune_addNode hroom rfl hgrown
  · rw [hnew]
    exact .inr hgrown

theorem hang (h : Renumbered nodes berries w w') (hgrown : nodes.stop ≤ w.skeleton.nodes.size)
    (hhung : berries.stop ≤ w.skeleton.attachments.size) (hw : w.Grounded) (size : Float32) :
    Renumbered nodes berries (w.hang size) (w'.hang size) := by
  have hnode := Array.getElem?_eq_getElem hw.stands
  exact { h with
    skeleton := by
      show w'.skeleton.attach w'.turtle.node size = _
      rw [h.turtle, h.skeleton]
      exact (prune_attach hnode h.stands hgrown hhung).symm
    spares := h.spares.attach hnode h.stands hhung }

end Renumbered

/-- **What a token does behind a branch, it does without it**, and to the same nodes if there are
numbers for them. -/
theorem Abreast.step (h : Abreast tokens nodes berries w w') (hw : w.Grounded) (hw' : w'.Grounded)
    (ht : Step cfg w t v) :
    ∃ v', Step cfg w' t v' ∧ Abreast tokens nodes berries v v' ∧
      (v.skeleton.nodes.size ≤ 2 ^ 32 → Renumbered nodes berries w w' →
        Renumbered nodes berries v v') := by
  have hskipping := h.skipping
  cases ht with
  | swallowed hskip ht =>
    exact ⟨_, .swallowed (hskipping.trans hskip) ht, advance { h with skipping := rfl },
      fun _ hn => { hn with }⟩
  | drawn hawake ht =>
    exact ⟨_, .drawn (hskipping.trans hawake) ht, (h.draw _).advance,
      fun hroom hn => { hn.draw h.grown hroom with }⟩
  | hung hawake ht =>
    exact ⟨_, .hung (hskipping.trans hawake) ht, (h.hang hw hw' _).advance,
      fun _ hn => { hn.hang h.grown h.hung hw _ with }⟩
  | turned hawake ht =>
    exact ⟨_, .turned (hskipping.trans hawake) ht, (h.turn ..).advance,
      fun _ hn => { hn with turtle := congrArg (Turtle.turn · _ _) hn.turtle }⟩
  | widened hawake ht =>
    have hwiden : ∀ {x y : Turtle}, x = y →
        ({ x with width := t.paramD 0 x.width } : Turtle) =
          { y with width := t.paramD 0 y.width } := fun heq => by rw [heq]
    exact ⟨_, .widened (hskipping.trans hawake) ht, advance { h with turtle := hwiden h.turtle },
      fun _ hn => { hn with turtle := hwiden hn.turtle }⟩
  | saved hawake ht hroom =>
    have hlen : w'.saved.length = w.saved.length := by
      rw [← List.length_map, h.saved, List.length_map]
    refine ⟨_, .saved (hskipping.trans hawake) ht (hlen ▸ hroom), advance { h with
      saved := congrArg₂ List.cons h.turtle h.saved }, fun _ hn => { hn with
        saved := congrArg₂ List.cons hn.turtle hn.saved
        returns := List.forall_mem_cons.mpr ⟨hn.stands, hn.returns⟩ }⟩
  | @restored hawake ht turtle saved hsaved =>
    have hboth := h.saved
    rw [hsaved, List.map_cons] at hboth
    obtain ⟨turtle', saved', hsaved', hturtle, hrest⟩ := List.map_eq_cons_iff.mp hboth
    refine ⟨_, .restored (hskipping.trans hawake) ht hsaved', advance { h with
      turtle := hturtle, saved := hrest }, fun _ hn => ?_⟩
    have hnumbers := hn.saved
    have hmisses := hn.returns
    rw [hsaved, hsaved', List.map_cons, List.cons.injEq] at hnumbers
    rw [hsaved, List.forall_mem_cons] at hmisses
    exact { hn with
      turtle := hnumbers.1, saved := hnumbers.2, stands := hmisses.1, returns := hmisses.2 }
  | unmatched hawake ht hsaved =>
    have hsaved' : w'.saved = [] := by
      have hnone := h.saved
      rwa [hsaved, List.map_nil, List.map_eq_nil_iff] at hnone
    refine ⟨_, .unmatched (hskipping.trans hawake) ht hsaved', advance { h with unmatched := ?_ },
      fun _ hn => { hn with }⟩
    rw [h.unmatched, h.index, Array.map_push]
  | skipped hawake ht =>
    exact ⟨_, .skipped (hskipping.trans hawake) ht, advance { h with skipping := rfl },
      fun _ hn => { hn with }⟩

/-- A whole word does behind a branch what it does without it. -/
theorem Abreast.run (h : Abreast tokens nodes berries w w') (hw : w.Grounded) (hw' : w'.Grounded)
    (hrun : Run cfg w word v) :
    ∃ v', Run cfg w' word v' ∧ Abreast tokens nodes berries v v' ∧
      (v.skeleton.nodes.size ≤ 2 ^ 32 → Renumbered nodes berries w w' →
        Renumbered nodes berries v v') := by
  induction hrun generalizing w' with
  | nil => exact ⟨w', .nil w', h, fun _ hn => hn⟩
  | cons ht hrest ih =>
    obtain ⟨u', ht', hu, hnumbers⟩ := h.step hw hw' ht
    obtain ⟨v', hrest', hv, hnumbers'⟩ := ih hu (ht.grounded hw) (ht'.grounded hw')
    refine ⟨v', .cons ht' hrest', hv, fun hroom hn => ?_⟩
    exact hnumbers' hroom (hnumbers (hrest.size_nodes_le.trans hroom) hn)

/-! ### The branch -/

theorem Step.extends (h : Step cfg w t v) : w.skeleton.Extends v.skeleton := by
  cases h with
  | drawn => exact extends_addNode ..
  | hung => exact extends_attach ..
  | _ => exact .refl _

theorem Run.extends (h : Run cfg w word v) : w.skeleton.Extends v.skeleton :=
  h.keeps (P := fun v => w.skeleton.Extends v.skeleton) (fun ht h => h.trans ht.extends) (.refl _)

/-- The brackets of a branch neither draw nor bear. -/
theorem occurrences_executed_branch {x : Symbol} {opening closing : Token} {branch : List Token}
    (hopening : opening.symbol = .push) (hclosing : closing.symbol = .pop)
    (hbranch : Balanced branch) (hx : x = .forward ∨ x = .berry) :
    Token.occurrences x (executed false (opening :: branch ++ [closing])) =
      Token.occurrences x (executed false branch) := by
  have hexecuted : executed false (opening :: branch ++ [closing]) =
      opening :: (executed false branch ++ [closing]) := by
    rw [List.cons_append, executed, hopening, executed_append]
    show _ :: (_ ++ executed (pending false branch) [closing]) = _
    rw [hbranch.settled]
    rfl
  rw [hexecuted, Token.occurrences_cons, Token.occurrences_append, Token.occurrences_cons, hopening,
    hclosing]
  rcases hx with rfl | rfl <;> rfl

/-- What a branch makes stands at the end of the skeleton. -/
theorem extends_of_branch {opening closing : Token} {branch : List Token}
    (hopening : opening.symbol = .push) (hclosing : closing.symbol = .pop)
    (hbranch : Balanced branch) (hawake : w.skipping = false) (hw : w.Grounded)
    (h : Run cfg w (opening :: branch ++ [closing]) v) :
    ∃ nodes edges berries, v.skeleton = ⟨w.skeleton.nodes ++ nodes, w.skeleton.edges ++ edges,
        w.skeleton.attachments ++ berries⟩ ∧
      nodes.size = Token.occurrences .forward (executed false branch) ∧
      berries.size = Token.occurrences .berry (executed false branch) := by
  obtain ⟨nodes, edges, berries, hskeleton⟩ := h.extends
  have hnodes := h.size_nodes
  have hberries := h.size_attachments hw
  rw [hskeleton, hawake, Array.size_append,
    occurrences_executed_branch hopening hclosing hbranch (.inl rfl)] at hnodes
  rw [hskeleton, hawake, Array.size_append,
    occurrences_executed_branch hopening hclosing hbranch (.inr rfl)] at hberries
  exact ⟨nodes, edges, berries, hskeleton, Nat.add_left_cancel hnodes,
    Nat.add_left_cancel hberries⟩

/-- Behind a branch the walk is where it was in front of it, but for what the branch has made. -/
theorem abreast_of_branch {opening closing : Token} {branch : List Token}
    (hopening : opening.symbol = .push) (hclosing : closing.symbol = .pop)
    (hbranch : Balanced branch) (hawake : w.skipping = false) (hw : w.Grounded)
    (hpast : ∀ i ∈ w.unmatched, i < w.index)
    (h : Run cfg w (opening :: branch ++ [closing]) v) :
    Abreast ⟨w.index, branch.length + 2⟩
      ⟨w.skeleton.nodes.size, Token.occurrences .forward (executed false branch)⟩
      ⟨w.skeleton.attachments.size, Token.occurrences .berry (executed false branch)⟩ v w := by
  have hreturns := returns_of_branch hopening hclosing hbranch hawake h
  obtain ⟨nodes, edges, berries, hskeleton, hnodes, hberries⟩ :=
    extends_of_branch hopening hclosing hbranch hawake hw h
  have hindex : v.index = Stretch.stop ⟨w.index, branch.length + 2⟩ := by
    rw [h.index, List.length_append, List.length_cons]
    rfl
  rw [← hnodes, ← hberries]
  constructor
  case turtle => rw [hreturns.turtle]
  case saved => rw [hreturns.saved]
  case skipping => rw [hreturns.awake, hawake]
  case index => rw [hindex, Stretch.lower_stop]
  case unmatched =>
    rw [hreturns.unmatched]
    symm
    exact map_eq_self fun i hi => Stretch.lower_of_lt (hpast i hi)
  case points => rw [hskeleton, Stretch.cut_append]
  case sizes => rw [hskeleton, Stretch.cut_append]
  case past => exact hindex.ge
  case grown => rw [hskeleton, Array.size_append]; exact Nat.le_refl _
  case hung => rw [hskeleton, Array.size_append]; exact Nat.le_refl _

/-- As long as there are numbers for all nodes, what the branch has made can be cut off. -/
theorem renumbered_of_branch {opening closing : Token} {branch : List Token}
    (hopening : opening.symbol = .push) (hclosing : closing.symbol = .pop)
    (hbranch : Balanced branch) (hawake : w.skipping = false) (hground : w.Grounded)
    (hw : w.Footed cfg) (hroom : v.skeleton.nodes.size ≤ 2 ^ 32)
    (h : Run cfg w (opening :: branch ++ [closing]) v) :
    Renumbered ⟨w.skeleton.nodes.size, Token.occurrences .forward (executed false branch)⟩
      ⟨w.skeleton.attachments.size, Token.occurrences .berry (executed false branch)⟩ v w := by
  have hreturns := returns_of_branch hopening hclosing hbranch hawake h
  obtain ⟨nodes, edges, berries, hskeleton, hnodes, hberries⟩ :=
    extends_of_branch hopening hclosing hbranch hawake hground h
  have htree := (h.footed hw hroom).tree
  rw [hskeleton] at htree
  obtain ⟨hprune, hspares⟩ := prune_of_extends rfl hw.tree htree
  rw [← hnodes, ← hberries]
  constructor
  case turtle => rw [hreturns.turtle, Turtle.lower_of_lt hground.stands]
  case saved =>
    rw [hreturns.saved]
    symm
    exact (List.map_congr_left fun turtle ht => Turtle.lower_of_lt (hground.saved turtle ht)).trans
      (List.map_id _)
  case skeleton => rw [hskeleton, hprune]
  case spares => rw [hskeleton]; exact hspares
  case stands => rw [hreturns.turtle]; exact .inl hground.stands
  case returns => rw [hreturns.saved]; exact fun turtle ht => .inl (hground.saved turtle ht)

end Walk

/-- The nodes that a branch makes behind a walk, -/
def Trail.branchNodes (before : Trail) (branch : List Token) : Stretch :=
  ⟨before.skeleton.nodes.size, Token.occurrences .forward (executed false branch)⟩

/-- and the berries. -/
def Trail.branchBerries (before : Trail) (branch : List Token) : Stretch :=
  ⟨before.skeleton.attachments.size, Token.occurrences .berry (executed false branch)⟩

/-- **A branch does not bear on what follows it.** Without it the walk comes to its end as well. It
makes the same nodes but for those of the branch, and hangs berries of the same sizes but for those
of the branch; as many branches are left open, and the same `]` are noted. If there were numbers for
all nodes, its skeleton is that with the branch cut out, and what is kept there grew on nothing of
the branch. -/
theorem walk_without_branch {cfg : Config} {front branch back : List Token}
    {opening closing : Token} {trail : Trail} (hopening : opening.symbol = .push)
    (hclosing : closing.symbol = .pop) (hfront : pending false front = false)
    (hbranch : Balanced branch)
    (h : walk cfg (front ++ opening :: branch ++ closing :: back) = .ok trail) :
    ∃ before trail', walk cfg front = .ok before ∧ walk cfg (front ++ back) = .ok trail' ∧
      trail'.skeleton.nodes.map Node.loose =
        ((before.branchNodes branch).cut trail.skeleton.nodes).map Node.loose ∧
      trail'.skeleton.attachments.map Attachment.size =
        ((before.branchBerries branch).cut trail.skeleton.attachments).map Attachment.size ∧
      trail'.openBranches = trail.openBranches ∧
      trail'.unmatched = trail.unmatched.map (Stretch.lower ⟨front.length, branch.length + 2⟩) ∧
      (trail.skeleton.nodes.size ≤ 2 ^ 32 →
        trail'.skeleton =
          trail.skeleton.prune (before.branchNodes branch) (before.branchBerries branch) ∧
        trail.skeleton.Spares (before.branchNodes branch) (before.branchBerries branch)) := by
  have hword : front ++ opening :: branch ++ closing :: back =
      front ++ (opening :: branch ++ [closing] ++ back) := by simp
  rw [hword] at h
  obtain ⟨w, hrun, rfl⟩ := Walk.walk_eq_ok_iff.mp h
  obtain ⟨u, hfrontrun, hrest⟩ := Walk.run_append_iff.mp hrun
  obtain ⟨v, hbranchrun, hbackrun⟩ := Walk.run_append_iff.mp hrest
  have hground := hfrontrun.grounded (Walk.grounded_start cfg)
  have hawake : u.skipping = false := hfrontrun.skipping.trans hfront
  have hindex : u.index = front.length := hfrontrun.index.trans (Nat.zero_add _)
  have habreast := Walk.abreast_of_branch hopening hclosing hbranch hawake hground
    (hfrontrun.unmatched_lt (fun i hi => absurd hi (Array.not_mem_empty i))) hbranchrun
  rw [hindex] at habreast
  obtain ⟨w', hrun', hend, hnumbers⟩ :=
    habreast.run (hbranchrun.grounded hground) hground hbackrun
  have hwhole := Walk.run_append_iff.mpr ⟨u, hfrontrun, hrun'⟩
  refine ⟨u.trail, w'.trail, Walk.walk_eq_ok_iff.mpr ⟨u, hfrontrun, rfl⟩,
    Walk.walk_eq_ok_iff.mpr ⟨w', hwhole, rfl⟩, hend.points, hend.sizes, ?_, hend.unmatched,
    fun hroom => ?_⟩
  · show w'.saved.length = w.saved.length
    rw [← List.length_map, hend.saved, List.length_map]
  · have hroom' := hbackrun.size_nodes_le.trans hroom
    have hfooted := hfrontrun.footed (Walk.footed_start cfg)
      (hbranchrun.size_nodes_le.trans hroom')
    have hrenumbered := hnumbers hroom (Walk.renumbered_of_branch hopening hclosing hbranch hawake
      hground hfooted hroom' hbranchrun)
    exact ⟨hrenumbered.skeleton, hrenumbered.spares⟩

/-- A branch in which another one bears a berry, between two `]` without a partner. -/
theorem walk_without_branch_stray : ∃ trail trail',
    walk {} [.bare .forward, .bare .pop, .bare .push, .bare .forward, .bare .push, .bare .berry,
      .bare .pop, .bare .forward, .bare .pop, .bare .pop, .bare .forward, .bare .berry] =
        .ok trail ∧
    walk {} [.bare .forward, .bare .pop, .bare .pop, .bare .forward, .bare .berry] = .ok trail' ∧
    trail'.skeleton = trail.skeleton.prune ⟨2, 2⟩ ⟨0, 1⟩ ∧
    trail.unmatched = #[1, 9] ∧ trail'.unmatched = #[1, 2] := by
  have hwalk : walk {} [.bare .forward, .bare .pop, .bare .push, .bare .forward, .bare .push,
      .bare .berry, .bare .pop, .bare .forward, .bare .pop, .bare .pop, .bare .forward,
      .bare .berry] = .ok _ := rfl
  obtain ⟨before, trail', hbefore, hwalk', _, _, _, hunmatched, hnumbered⟩ :=
    @walk_without_branch {} [.bare .forward, .bare .pop]
      [.bare .forward, .bare .push, .bare .berry, .bare .pop, .bare .forward]
      [.bare .pop, .bare .forward, .bare .berry] (.bare .push) (.bare .pop) _
      rfl rfl rfl ⟨rfl, rfl⟩ hwalk
  cases hbefore
  have hlower : #[1, 9].map (Stretch.lower ⟨2, 7⟩) = #[1, 2] := by
    simp [Stretch.lower, Stretch.stop]
  exact ⟨_, trail', hwalk, hwalk', (hnumbered (by decide)).1, rfl, hunmatched.trans hlower⟩

/-! ### Out of numbers -/

namespace Walk

/-- A straight line ends on a node that has the number of nodes before it, as far as numbers go. -/
theorem run_line (cfg : Config) (n : Nat) {w : Walk} (hawake : w.skipping = false) :
    ∃ v, Run cfg w (List.replicate (n + 1) (.bare .forward)) v ∧ v.skipping = false ∧
      v.skeleton.nodes.size = w.skeleton.nodes.size + (n + 1) ∧
      v.turtle.node = number (w.skeleton.nodes.size + n) ∧
      v.skeleton.attachments = w.skeleton.attachments := by
  have hsize : (w.draw cfg.defaultLength).advance.skeleton.nodes.size = w.skeleton.nodes.size + 1 :=
    size_nodes_addNode ..
  induction n generalizing w with
  | zero => exact ⟨_, .cons (.drawn hawake rfl) (.nil _), hawake, hsize, rfl, rfl⟩
  | succ n ih =>
    have hawake' : (w.draw cfg.defaultLength).advance.skipping = false := hawake
    obtain ⟨v, hrun, hend, hnodes, hnode, hberries⟩ := ih hawake' (size_nodes_addNode ..)
    rw [hsize] at hnodes hnode
    refine ⟨v, .cons (.drawn hawake rfl) hrun, hend, ?_, ?_, hberries⟩
    · rw [hnodes]
      omega
    · rw [hnode]
      congr 1
      omega

/-- A berry behind a straight line hangs on the node that has that number. -/
theorem run_line_berry (cfg : Config) (n : Nat) {w : Walk} (hawake : w.skipping = false)
    (hnone : w.skeleton.attachments = #[]) (hw : w.Grounded) :
    ∃ v a, Run cfg w (List.replicate (n + 1) (.bare .forward) ++ [.bare .berry]) v ∧
      v.skeleton.attachments = #[a] ∧ a.node = number (w.skeleton.nodes.size + n) := by
  obtain ⟨u, hline, hawake', _, hnode, hberries⟩ := run_line cfg n hawake
  have hattach := attach_of_node (Array.getElem?_eq_getElem (hline.grounded hw).stands)
    cfg.defaultBerrySize
  obtain ⟨a, hhung, ha⟩ : ∃ a,
      (u.skeleton.attach u.turtle.node cfg.defaultBerrySize).attachments = #[a] ∧
        a.node = u.turtle.node := by
    rw [hattach, hberries, hnone]
    exact ⟨_, rfl, rfl⟩
  exact ⟨_, a, run_append_iff.mpr ⟨u, hline, .cons (.hung hawake' rfl) (.nil _)⟩, hhung,
    ha.trans hnode⟩

end Walk

/-- A line of segments, with a berry at its end. -/
def line (n : Nat) : List Token := List.replicate (n + 1) (.bare .forward) ++ [.bare .berry]

theorem walk_line (n : Nat) : ∃ trail a, walk {} (line n) = .ok trail ∧
    trail.skeleton.attachments = #[a] ∧ a.node = number (1 + n) := by
  obtain ⟨w, a, hrun, hberries, hnode⟩ :=
    Walk.run_line_berry {} n (w := .start {}) rfl rfl (Walk.grounded_start _)
  exact ⟨w.trail, a, Walk.walk_eq_ok_iff.mpr ⟨w, hrun, rfl⟩, hberries, hnode⟩

/-- Behind a branch of one node, the line is one number further on. -/
theorem walk_branch_line (n : Nat) : ∃ trail a,
    walk {} (.bare .push :: .bare .forward :: .bare .pop :: line n) = .ok trail ∧
      trail.skeleton.attachments = #[a] ∧ a.node = number (2 + n) := by
  obtain ⟨u, hbranch, hawake, hnone, hsize⟩ : ∃ u, Walk.Run {} (.start {})
      [.bare .push, .bare .forward, .bare .pop] u ∧ u.skipping = false ∧
        u.skeleton.attachments = #[] ∧ u.skeleton.nodes.size = 2 :=
    ⟨_, Walk.run_eq_ok_iff.mp rfl, rfl, rfl, rfl⟩
  obtain ⟨w, a, hrun, hberries, hnode⟩ :=
    Walk.run_line_berry {} n hawake hnone (hbranch.grounded (Walk.grounded_start _))
  rw [hsize] at hnode
  exact ⟨w.trail, a, Walk.walk_eq_ok_iff.mpr ⟨w, Walk.run_append_iff.mpr ⟨u, hbranch, hrun⟩, rfl⟩,
    hberries, hnode⟩

/-- **Where numbers run out, a branch bears on what follows it.** With the branch the last node of
this line has the number of the root, and the berry hangs there. Without it the node has the last
number of all, and the berry hangs on it. -/
theorem not_pruned_of_crowded : ∃ before trail trail',
    walk {} [] = .ok before ∧
    walk {} ([] ++ .bare .push :: [.bare .forward] ++ .bare .pop :: line (2 ^ 32 - 2)) =
      .ok trail ∧
    walk {} ([] ++ line (2 ^ 32 - 2)) = .ok trail' ∧
    trail'.skeleton ≠ trail.skeleton.prune (before.branchNodes [.bare .forward])
      (before.branchBerries [.bare .forward]) := by
  obtain ⟨trail, a, hwalk, hberries, hnode⟩ := walk_branch_line (2 ^ 32 - 2)
  obtain ⟨trail', a', hwalk', hberries', hnode'⟩ := walk_line (2 ^ 32 - 2)
  refine ⟨(Walk.start {}).trail, trail, trail', rfl, hwalk, hwalk', fun hsame => ?_⟩
  have hpruned : (trail.skeleton.prune ⟨1, 1⟩ ⟨0, 0⟩).attachments = #[a.lower ⟨1, 1⟩] := by
    simp [prune, hberries, Stretch.cut, Stretch.stop]
  have hberry : a' = a.lower ⟨1, 1⟩ := by
    have hboth := (congrArg Skeleton.attachments hsame).trans hpruned
    rw [hberries'] at hboth
    exact List.cons.inj (congrArg Array.toList hboth) |>.1
  have hroot : (a.lower ⟨1, 1⟩).node = 0 := by
    show Stretch.lower ⟨1, 1⟩ a.node = 0
    rw [hnode]
    decide
  rw [hberry, hroot] at hnode'
  exact absurd hnode' (by decide)

end Turtle

end Grapevine
