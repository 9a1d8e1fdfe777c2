import Mathlib.Logic.Function.Iterate
import RegisterAllocator.Graph.Loops
import RegisterAllocator.Proofs.Dominators

/-!
# Loop bodies and weights

The body of a loop is collected backwards from its last node. At every moment each node of the body but the header leads
to that last node without passing the header, and only the nodes still to be looked at may have predecessors outside
(`Spreads`). Each node is looked at once, so the fuel lasts, and what is left in the end is the body of the textbook.
A node weighs the factor once for each body that it is in, in whatever order the bodies list their nodes
(`Weights.scale_bodies`).
-/

namespace RegisterAllocator.FlowGraph

variable {g : FlowGraph} {start middle last node latch header : g.Node} {nodes after found body : List g.Node}

theorem Path.trans (first : g.Path start middle nodes) (second : g.Path middle last after) :
    ∃ whole, g.Path start last whole ∧ whole ⊆ after ++ nodes := by
  induction second with
  | single => exact ⟨nodes, first, List.subset_append_right _ _⟩
  | step _ edge ih =>
    obtain ⟨whole, path, within⟩ := ih
    exact ⟨_, path.step edge, List.cons_subset_cons _ within⟩

theorem IsReachable.along (reachable : g.IsReachable start) (path : g.Path start last nodes) : g.IsReachable last := by
  obtain ⟨before, first⟩ := reachable
  obtain ⟨whole, joined, -⟩ := first.trans path
  exact ⟨whole, joined⟩

/-- A reachable node leads to `latch` on a path that does not pass `header`. -/
def LeadsAround (g : FlowGraph) (header latch node : g.Node) : Prop :=
  g.IsReachable node ∧ ∃ nodes, g.Path node latch nodes ∧ header ∉ nodes

namespace LeadsAround

theorem pred (leads : g.LeadsAround header latch node) (reachable : g.IsReachable start)
    (edge : node ∈ g.succs start) (apart : start ≠ header) : g.LeadsAround header latch start := by
  obtain ⟨-, nodes, path, around⟩ := leads
  have first : g.Path start node [node, start] := .step .single edge
  obtain ⟨whole, joined, within⟩ := first.trans path
  refine ⟨reachable, whole, joined, fun passed => ?_⟩
  rcases List.mem_append.mp (within passed) with there | here
  · exact around there
  · rcases List.mem_cons.mp here with rfl | here
    · exact around path.mem_start
    · exact apart (List.mem_singleton.mp here).symm

/-- What dominates the end of such a path, and is not on it, dominates its start. -/
theorem dominates (leads : g.LeadsAround header latch node) (dominates : g.Dominates header latch) :
    g.Dominates header node := by
  obtain ⟨-, nodes, path, around⟩ := leads
  intro before first
  obtain ⟨whole, joined, within⟩ := first.trans path
  exact (List.mem_append.mp (within (dominates whole joined))).resolve_left around

end LeadsAround

theorem dominance_dominates (reachable : g.IsReachable node) :
    (g.dominance g.explore).dominates start node = true ↔ g.Dominates start node := by
  obtain ⟨table, -, eq, exact', -⟩ := g.dominance_eq
  rw [eq, Dominance.dominates, List.contains_iff_mem]
  exact Dominance.mem_chainUpTo exact' rfl reachable (Nat.sub_le _ _)

theorem explore_succs (reachable : g.IsReachable node) : g.explore.succs node = g.distinctSuccs node := by
  rw [Reachable.succs, Reachable.succs?, if_pos (explore_contains.mpr reachable)]
  simp [explore]

theorem explore_preds_nodup (g : FlowGraph) (node : g.Node) : (g.explore.preds node).Nodup := by
  rw [Reachable.preds, Reachable.preds?]
  split
  · simpa [explore] using g.visitOrder_nodup.filter _
  · exact List.nodup_nil

theorem mem_backEdges : (latch, header) ∈ backEdges g.explore (g.dominance g.explore) ↔
    g.IsReachable latch ∧ header ∈ g.succs latch ∧ g.Dominates header latch := by
  simp only [backEdges, dominance_rpo, List.mem_flatMap, List.mem_reverse, mem_postorder, List.mem_map, List.mem_filter,
    Prod.mk.injEq]
  constructor
  · rintro ⟨_, reachable, _, ⟨edge, dominates⟩, rfl, rfl⟩
    rw [explore_succs reachable, mem_distinctSuccs] at edge
    exact ⟨reachable, edge, (dominance_dominates reachable).mp dominates⟩
  · rintro ⟨reachable, edge, dominates⟩
    refine ⟨latch, reachable, header, ⟨?_, (dominance_dominates reachable).mpr dominates⟩, rfl, rfl⟩
    rwa [explore_succs reachable, mem_distinctSuccs]

theorem backEdges_nodup (g : FlowGraph) : (backEdges g.explore (g.dominance g.explore)).Nodup := by
  rw [backEdges, dominance_rpo, List.nodup_flatMap]
  constructor
  · intro latch member
    rw [explore_succs (mem_postorder.mp (List.mem_reverse.mp member))]
    exact (List.Nodup.filter _ (eraseDups_nodup _)).map fun _ _ same => (Prod.mk.inj same).2
  · apply (List.nodup_reverse.mpr g.postorder_nodup).imp
    intro one other apart edge first second
    obtain ⟨_, -, rfl⟩ := List.mem_map.mp first
    obtain ⟨_, -, same⟩ := List.mem_map.mp second
    exact apart (Prod.mk.inj same).1.symm

/-- A moment of the collection: `found` are the nodes of the body still to be looked at. -/
structure Spreads (latch header : g.Node) (found body : List g.Node) : Prop where
  nodup : body.Nodup
  hasHeader : header ∈ body
  hasLatch : latch ∈ body
  waiting : ∀ node ∈ found, node ∈ body ∧ node ≠ header
  leads : ∀ node ∈ body, node ≠ header → g.LeadsAround header latch node
  closed : ∀ node ∈ body, node ≠ header → node ∉ found → ∀ pred ∈ g.explore.preds node, pred ∈ body

namespace Spreads

theorem first (reachable : g.IsReachable latch) (apart : latch ≠ header) :
    Spreads latch header [latch] [latch, header] := by
  constructor
  · simpa using apart
  · simp
  · simp
  · simpa using apart
  · intro node member other
    obtain rfl : node = latch := by simpa [other] using member
    exact ⟨reachable, _, .single, by simpa using Ne.symm apart⟩
  · intro node member other done
    simp_all

theorem step (spreads : Spreads latch header (node :: found) body) :
    let fresh := (g.explore.preds node).filter (· ∉ body)
    Spreads latch header (fresh ++ found) (fresh ++ body) := by
  intro fresh
  obtain ⟨inBody, notHeader⟩ := spreads.waiting node List.mem_cons_self
  have outside {pred : g.Node} (new : pred ∈ fresh) : pred ∈ g.explore.preds node ∧ pred ∉ body := by
    simpa [fresh] using new
  have leads := spreads.leads node inBody notHeader
  constructor
  · apply ((g.explore_preds_nodup node).filter _).append spreads.nodup
    intro pred new old
    exact (outside new).2 old
  · exact List.mem_append_right _ spreads.hasHeader
  · exact List.mem_append_right _ spreads.hasLatch
  · intro other member
    rcases List.mem_append.mp member with new | old
    · refine ⟨List.mem_append_left _ new, ?_⟩
      rintro rfl
      exact (outside new).2 spreads.hasHeader
    · obtain ⟨inside, apart⟩ := spreads.waiting other (List.mem_cons_of_mem _ old)
      exact ⟨List.mem_append_right _ inside, apart⟩
  · intro other member apart
    rcases List.mem_append.mp member with new | old
    · obtain ⟨reachable, edge⟩ := (mem_explore_preds leads.1).mp (outside new).1
      exact leads.pred reachable edge apart
    · exact spreads.leads other old apart
  · intro other member apart done pred edge
    rw [List.mem_append, not_or] at done
    have old := (List.mem_append.mp member).resolve_left done.1
    by_cases here : other = node
    · by_cases seen : pred ∈ body
      · exact List.mem_append_right _ seen
      · apply List.mem_append_left
        simpa [fresh, seen] using here ▸ edge
    · apply List.mem_append_right
      apply spreads.closed other old apart _ pred edge
      simp [here, done.2]

/-- A body is complete once nothing is left to look at. Every step puts a node into the body for each node that it
leaves to be looked at, and a body has no more nodes than the graph. -/
theorem spread {fuel : Nat} (spreads : Spreads latch header found body)
    (enough : found.length + (g.order - body.length) ≤ fuel) :
    Spreads latch header [] (FlowGraph.spread g.explore fuel found body) := by
  induction fuel generalizing found body with
  | zero =>
    obtain rfl : found = [] := List.eq_nil_of_length_eq_zero (by omega)
    exact spreads
  | succ fuel ih =>
    cases found with
    | nil => exact spreads
    | cons node found =>
      have bound := spreads.step.nodup.length_le_card
      rw [Fintype.card_fin] at bound
      apply ih spreads.step
      simp only [List.length_append, List.length_cons] at bound enough ⊢
      omega

/-- In a complete body are the nodes that lead to a node of it. The induction follows the path back from its end. -/
theorem mem_of_path (spreads : Spreads latch header [] body) (reachable : g.IsReachable start)
    (path : g.Path start last nodes) (around : header ∉ nodes) (member : last ∈ body) : start ∈ body := by
  induction path with
  | single => exact member
  | @step before next nodes path edge ih =>
    have apart : next ≠ header := fun same => around (same ▸ List.mem_cons_self)
    have there := reachable.along path
    apply ih fun passed => around (List.mem_cons_of_mem _ passed)
    apply spreads.closed next member apart List.not_mem_nil
    exact (mem_explore_preds (there.step edge)).mpr ⟨there, edge⟩

theorem mem_iff (spreads : Spreads latch header [] body) :
    node ∈ body ↔ node = header ∨ g.LeadsAround header latch node := by
  constructor
  · intro member
    by_cases same : node = header
    · exact .inl same
    · exact .inr (spreads.leads node member same)
  · rintro (rfl | ⟨reachable, nodes, path, around⟩)
    · exact spreads.hasHeader
    · exact spreads.mem_of_path reachable path around spreads.hasLatch

end Spreads

theorem loopBody_spreads (reachable : g.IsReachable latch) (apart : latch ≠ header) :
    Spreads latch header [] (loopBody g.explore latch header) := by
  rw [loopBody, if_neg apart]
  have first := Spreads.first reachable apart
  have bound : [latch, header].length ≤ g.order := by simpa using first.nodup.length_le_card
  apply first.spread
  simp only [List.length_cons, List.length_nil] at bound ⊢
  omega

theorem mem_loopBody (reachable : g.IsReachable latch) :
    node ∈ loopBody g.explore latch header ↔ node = header ∨ g.LeadsAround header latch node := by
  by_cases same : latch = header
  · subst same
    rw [loopBody, if_pos rfl, List.mem_singleton, or_iff_left]
    rintro ⟨-, nodes, path, around⟩
    exact around path.mem_last
  · exact (loopBody_spreads reachable same).mem_iff

theorem loopBody_nodup (reachable : g.IsReachable latch) : (loopBody g.explore latch header).Nodup := by
  by_cases same : latch = header
  · rw [loopBody, if_pos same]
    exact List.nodup_singleton _
  · exact (loopBody_spreads reachable same).nodup

theorem loopBody_inside (edge : (latch, header) ∈ backEdges g.explore (g.dominance g.explore))
    (inside : node ∈ loopBody g.explore latch header) : g.IsReachable node ∧ g.Dominates header node := by
  obtain ⟨reachable, back, dominates⟩ := mem_backEdges.mp edge
  rcases (mem_loopBody reachable).mp inside with rfl | leads
  · exact ⟨reachable.step back, .refl _⟩
  · exact ⟨leads.1, leads.dominates dominates⟩

theorem Weights.weight_eq (w : Weights g) (node : g.Node) :
    w.weight node = (· * w.factor)^[w.bodies.countP (node ∈ ·)] 1.0 := by
  have fold (bodies : List (List g.Node)) (weight : Float) :
      bodies.foldl (fun weight body => if node ∈ body then weight * w.factor else weight) weight =
        (· * w.factor)^[bodies.countP (node ∈ ·)] weight := by
    induction bodies generalizing weight with
    | nil => rfl
    | cons body bodies ih =>
      rw [List.foldl_cons, ih, List.countP_cons]
      by_cases member : node ∈ body
      · simp [member]
      · simp [member]
  exact fold w.bodies 1.0

theorem weigh_bodies (g : FlowGraph) (factor : Float) : (g.weigh factor).bodies =
    (g.weigh factor).backEdges.map fun (latch, header) => loopBody g.explore latch header := rfl

theorem weigh_weight (g : FlowGraph) (factor : Float) (node : g.Node) : (g.weigh factor).weight node =
    (· * factor)^[(g.weigh factor).backEdges.countP fun (latch, header) => node ∈ loopBody g.explore latch header]
      1.0 := by
  rw [Weights.weight_eq, weigh_bodies, List.countP_map]
  rfl

/-- Multiply the entries of some nodes in a table, one node after the other. -/
def scale (factor : Float) (table : g.Node → Float) (nodes : List g.Node) : g.Node → Float :=
  nodes.foldl (fun table node => Function.update table node (table node * factor)) table

theorem scale_apply (factor : Float) (table : g.Node → Float) (nodup : nodes.Nodup) :
    scale factor table nodes node = if node ∈ nodes then table node * factor else table node := by
  induction nodes generalizing table with
  | nil => rfl
  | cons first nodes ih =>
    obtain ⟨once, nodup⟩ := List.nodup_cons.mp nodup
    have rest := ih (Function.update table first (table first * factor)) nodup
    rw [scale, List.foldl_cons]
    refine Eq.trans rest ?_
    by_cases here : node = first
    · subst here
      simp [once]
    · simp [here]

/-- Going over the nodes of all bodies gives every node its weight, in any order of the nodes of each body. -/
theorem Weights.scale_bodies (w : Weights g) (nodup : ∀ body ∈ w.bodies, body.Nodup) {traversals : List (List g.Node)}
    (orders : List.Forall₂ List.Perm traversals w.bodies) (node : g.Node) :
    traversals.foldl (scale w.factor) (fun _ => 1.0) node = w.weight node := by
  have fold {traversals bodies : List (List g.Node)} (nodup : ∀ body ∈ bodies, body.Nodup)
      (orders : List.Forall₂ List.Perm traversals bodies) (table : g.Node → Float) :
      traversals.foldl (scale w.factor) table node =
        bodies.foldl (fun weight body => if node ∈ body then weight * w.factor else weight) (table node) := by
    induction orders generalizing table with
    | nil => rfl
    | cons perm _ ih =>
      obtain ⟨first, rest⟩ := List.forall_mem_cons.mp nodup
      rw [List.foldl_cons, List.foldl_cons, ih rest, scale_apply _ _ (perm.nodup_iff.mpr first)]
      simp only [perm.mem_iff]
  exact fold nodup orders _

/-- The loops of every graph: the edges that close them, their bodies, and the weights that follow. -/
theorem weigh_law (g : FlowGraph) (factor : Float) :
    let w := g.weigh factor
    (w.backEdges.Nodup ∧ ∀ latch header, (latch, header) ∈ w.backEdges ↔
      g.IsReachable latch ∧ g.IsReachable header ∧ header ∈ g.succs latch ∧ g.Dominates header latch) ∧
    (∀ latch header, (latch, header) ∈ w.backEdges →
      (loopBody g.explore latch header).Nodup ∧
      (∀ node, node ∈ loopBody g.explore latch header ↔ node = header ∨
        g.IsReachable node ∧ ∃ nodes, g.Path node latch nodes ∧ header ∉ nodes) ∧
      (latch = header → loopBody g.explore latch header = [header]) ∧
      ∀ node ∈ loopBody g.explore latch header, g.Dominates header node) ∧
    (∀ node, w.weight node =
      (· * factor)^[w.backEdges.countP fun (latch, header) => node ∈ loopBody g.explore latch header] 1.0) ∧
    (∀ node, ¬ g.IsReachable node → w.weight node = 1.0) ∧
    ∀ traversals, List.Forall₂ List.Perm traversals
        (w.backEdges.map fun (latch, header) => loopBody g.explore latch header) →
      ∀ node, traversals.foldl (scale factor) (fun _ => 1.0) node = w.weight node := by
  intro w
  refine ⟨⟨g.backEdges_nodup, fun latch header => ?_⟩, fun latch header member => ?_, g.weigh_weight factor,
    fun node unreachable => ?_, fun traversals orders => ?_⟩
  · refine mem_backEdges.trans ⟨?_, ?_⟩
    · rintro ⟨reachable, edge, dominates⟩
      exact ⟨reachable, reachable.step edge, edge, dominates⟩
    · rintro ⟨reachable, -, edge, dominates⟩
      exact ⟨reachable, edge, dominates⟩
  · have reachable := (mem_backEdges.mp member).1
    refine ⟨loopBody_nodup reachable, fun node => mem_loopBody reachable, fun same => ?_, fun node inside => ?_⟩
    · rw [loopBody, if_pos same]
    · exact (loopBody_inside member inside).2
  · have none : w.backEdges.countP (fun (latch, header) => node ∈ loopBody g.explore latch header) = 0 := by
      rw [List.countP_eq_zero]
      rintro ⟨latch, header⟩ member inside
      exact unreachable (loopBody_inside member (of_decide_eq_true inside)).1
    rw [g.weigh_weight factor, none]
    rfl
  · refine w.scale_bodies (fun body member => ?_) orders
    obtain ⟨⟨latch, header⟩, edge, rfl⟩ := List.mem_map.mp member
    exact loopBody_nodup (mem_backEdges.mp edge).1

/-- A loop within a loop. The cycle between its first two nodes is entered at both of them, so it is no loop. -/
theorem tangle_weights :
    let w := tangle.weigh 4.0
    w.backEdges.Perm [(3, 3), (3, 0)] ∧ w.weight 3 = 1.0 * 4.0 * 4.0 ∧ w.weight 1 = 1.0 * 4.0 ∧
      ¬ tangle.IsReachable 4 ∧ w.weight 4 = 1.0 ∧
      (w.bodies.map List.reverse).foldl (scale 4.0) (fun _ => 1.0) 3 = 1.0 * 4.0 * 4.0 := by
  intro w
  obtain ⟨⟨once, edges⟩, bodies, weight, outside, orders⟩ := weigh_law tangle 4.0
  have reachable : tangle.IsReachable 3 := ⟨_, tangle_path_third⟩
  have unreachable : ¬ tangle.IsReachable 4 := fun found => tangle_reachable_ne found rfl
  have forward : ∀ latch header : tangle.Node, header ∈ tangle.succs latch →
      latch = 0 ∧ header ≠ 0 ∨ latch = 1 ∧ header = 2 ∨ latch = 2 ∧ header ∉ [2, 0] ∨
        (latch, header) ∈ [((3 : tangle.Node), (3 : tangle.Node)), (3, 0)] ∨ latch = 4 := by decide
  have perm : w.backEdges.Perm [(3, 3), (3, 0)] := by
    rw [List.perm_ext_iff_of_nodup once (by decide)]
    rintro ⟨latch, header⟩
    rw [edges]
    constructor
    · rintro ⟨found, -, edge, dominates⟩
      rcases forward latch header edge with ⟨rfl, other⟩ | ⟨rfl, rfl⟩ | ⟨rfl, other⟩ | member | rfl
      · exact absurd dominates.eq_entry other
      · exact absurd (dominates _ tangle_path_first) (by decide)
      · exact absurd (dominates _ tangle_path_second) other
      · exact member
      · exact absurd found unreachable
    · intro member
      rcases List.mem_cons.mp member with same | same
      · obtain ⟨rfl, rfl⟩ := Prod.mk.inj same
        exact ⟨reachable, reachable, by decide, .refl _⟩
      · obtain ⟨rfl, rfl⟩ := Prod.mk.inj (List.mem_singleton.mp same)
        exact ⟨reachable, entry_isReachable _, by decide, .entry _⟩
  have twice : w.weight 3 = 1.0 * 4.0 * 4.0 := by
    have loops : List.countP (fun (latch, header) => (3 : tangle.Node) ∈ loopBody tangle.explore latch header)
        [(3, 3), (3, 0)] = 2 := by decide +kernel
    rw [weight, perm.countP_eq, loops]
    rfl
  refine ⟨perm, twice, ?_, unreachable, outside 4 unreachable, ?_⟩
  · have loops : List.countP (fun (latch, header) => (1 : tangle.Node) ∈ loopBody tangle.explore latch header)
        [(3, 3), (3, 0)] = 1 := by decide +kernel
    rw [weight, perm.countP_eq, loops]
    rfl
  · rw [← twice]
    apply orders
    rw [← weigh_bodies, List.forall₂_map_left_iff, List.forall₂_same]
    intro body _
    exact List.reverse_perm body

end RegisterAllocator.FlowGraph
