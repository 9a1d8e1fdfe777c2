import RegisterAllocator.Program.Flow
import RegisterAllocator.Proofs.Dominators

/-!
# Dominance frontiers

Walking up from a predecessor of a node, along immediate dominators, leads to the immediate dominator of the node
(`exists_climbs`). The nodes on the way are the dominators of the predecessor that do not dominate the node
strictly. A walk adds the node to their lists (`NodeLists.run_adds`), so the frontiers that all walks collect are those
of the textbook (`exists_frontiers`).
-/

namespace RegisterAllocator.FlowGraph

variable {g : FlowGraph} {a node up pred : g.Node}

theorem strictlyDominates_iff (immediate : g.StrictlyDominates up node)
    (covers : ∀ a, g.StrictlyDominates a node → g.Dominates a up) (reachable : g.IsReachable node) :
    g.StrictlyDominates a node ↔ g.Dominates a up := by
  constructor
  · exact covers a
  · intro above
    refine ⟨?_, above.trans immediate.2⟩
    rintro rfl
    exact immediate.1 (immediate.2.antisymm above reachable)

theorem dominates_of_only_pred (reachable : g.IsReachable node) (notEntry : node ≠ g.entry)
    (only : ∀ other, g.IsReachable other → node ∈ g.succs other → other = pred) : g.StrictlyDominates pred node := by
  obtain ⟨other, found, edge, later⟩ := exists_later_pred reachable notEntry
  have same := only other found edge
  refine ⟨?_, ?_⟩
  · rintro rfl
    rw [same] at later
    exact lt_irrefl _ later
  · intro nodes path
    cases path with
    | single => exact absurd rfl notEntry
    | @step before _ _ path edge =>
      apply List.mem_cons_of_mem
      rw [← only before ⟨_, path⟩ edge]
      exact path.mem_last

namespace Dominance

/-- The walk from a node up to `up`, which is not itself walked over. A node without an immediate dominator ends no
walk. -/
inductive Climbs (d : Dominance g) (up : g.Node) : g.Node → List g.Node → Prop
  | stop : Climbs d up up []
  | step {node next : g.Node} {walked : List g.Node} (below : node ≠ up) (idom : d.idom node = .ok (some next))
      (rest : Climbs d up next walked) : Climbs d up node (node :: walked)

variable {walked : List g.Node}

theorem idom_eq_ok {d : Dominance g} {next : g.Node} (found : d.idom node = .ok (some next)) :
    d.idoms[node] = some next := by
  unfold idom row at found
  split at found
  · cases found
  · split at found
    · exact Except.ok.inj found
    · cases found

/-- A walk is what the chain of a node holds below `up`. -/
theorem Climbs.takeWhile_chainUpTo {d : Dominance g} (climbs : d.Climbs up node walked) {fuel : Nat}
    (enough : walked.length ≤ fuel) : (d.chainUpTo fuel node).takeWhile (· ≠ up) = walked := by
  induction climbs generalizing fuel with
  | stop =>
    cases fuel with
    | zero => rfl
    | succ fuel => simp [chainUpTo]
  | step below idom _ ih =>
    rw [List.length_cons] at enough
    cases fuel with
    | zero => omega
    | succ fuel =>
      have rest := ih (show _ ≤ fuel by omega)
      simpa [chainUpTo, idom_eq_ok idom, below] using rest

end Dominance

theorem exists_idom (reachable : g.IsReachable node) (notEntry : node ≠ g.entry) :
    ∃ up, (g.dominance g.explore).idom node = .ok (some up) ∧ g.rank node < g.rank up ∧
      g.StrictlyDominates up node ∧ ∀ a, g.StrictlyDominates a node → g.Dominates a up := by
  obtain ⟨found, -, table, exact', -⟩ := g.dominance_eq
  obtain ⟨up, value, rises, dominates, covers⟩ := exact'.immediate reachable notEntry
  refine ⟨up, ?_, rises, Idoms.strictly_of_rank dominates rises, covers⟩
  rw [Dominance.idom, Dominance.row_of_reachable reachable, table, Idoms.getElem_set, if_neg (Ne.symm notEntry), value]

theorem idom_entry (g : FlowGraph) : (g.dominance g.explore).idoms[g.entry] = none := by
  obtain ⟨found, -, table, -⟩ := g.dominance_eq
  rw [table, Idoms.getElem_set, if_pos rfl]

/-- Every walk up from a node to one of its dominators comes to its end, and passes by the dominators of the node that
do not dominate the end. -/
theorem exists_climbs (reachable : g.IsReachable node) (dominates : g.Dominates up node) :
    ∃ walked, (g.dominance g.explore).Climbs up node walked ∧ walked.length ≤ g.order - g.rank node ∧
      ∀ a, a ∈ walked ↔ g.Dominates a node ∧ ¬ g.Dominates a up := by
  induction rising : g.order - g.rank node using Nat.strong_induction_on generalizing node with
  | _ height ih =>
    by_cases same : node = up
    · subst same
      exact ⟨[], .stop, Nat.zero_le _, fun a => by simp⟩
    have notEntry : node ≠ g.entry := by
      rintro rfl
      exact same dominates.eq_entry.symm
    obtain ⟨next, idom, rises, strictly, covers⟩ := exists_idom reachable notEntry
    have bound := rank_lt node reachable
    have above : g.Dominates up next := covers up ⟨Ne.symm same, dominates⟩
    obtain ⟨walked, climbs, short, members⟩ := ih _ (by omega) (strictly.2.isReachable reachable) above rfl
    refine ⟨node :: walked, .step same idom climbs, by rw [List.length_cons]; omega, fun a => ?_⟩
    rw [List.mem_cons, members]
    constructor
    · rintro (rfl | ⟨below, outside⟩)
      · exact ⟨.refl _, fun back => same (dominates.antisymm back reachable).symm⟩
      · exact ⟨below.trans strictly.2, outside⟩
    · rintro ⟨below, outside⟩
      by_cases here : a = node
      · exact .inl here
      · exact .inr ⟨covers a ⟨here, below⟩, outside⟩

/-- A node with one predecessor is in no frontier: what dominates the predecessor dominates the node strictly. -/
theorem length_preds_of_dominates (reachable : g.IsReachable node) (notEntry : node ≠ g.entry)
    (member : pred ∈ g.explore.preds node) (dominates : g.Dominates a pred)
    (notStrictly : ¬ g.StrictlyDominates a node) : 1 < (g.explore.preds node).length := by
  by_contra few
  have only : ∀ other, g.IsReachable other → node ∈ g.succs other → other = pred := by
    intro other found edge
    have inPreds := (mem_explore_preds reachable).mpr ⟨found, edge⟩
    match list : g.explore.preds node with
    | [] =>
      rw [list] at member
      cases member
    | [single] =>
      rw [list, List.mem_singleton] at member inPreds
      rw [inPreds, member]
    | first :: second :: rest =>
      rw [list] at few
      simp at few
  have strictly := dominates_of_only_pred reachable notEntry only
  refine notStrictly ⟨?_, dominates.trans strictly.2⟩
  rintro rfl
  exact strictly.1 (dominates.antisymm strictly.2 (strictly.2.isReachable reachable)).symm

/-! ## The walks -/

namespace NodeLists

variable {lists lists' lists'' : NodeLists g} {join : g.Node} {owners others : g.Node → Prop}

/-- A node is added, once, to the lists of owners. -/
structure Adds (join : g.Node) (owners : g.Node → Prop) (lists lists' : NodeLists g) : Prop where
  members : ∀ owner node, node ∈ lists'[owner] ↔ node ∈ lists[owner] ∨ node = join ∧ owners owner
  once : ∀ owner : g.Node, lists[owner].Nodup → lists'[owner].Nodup

theorem Adds.none (nobody : ∀ owner, ¬ owners owner) : Adds join owners lists lists :=
  ⟨fun owner node => by simp [nobody owner], fun _ => id⟩

theorem Adds.trans (first : Adds join owners lists lists') (second : Adds join others lists' lists'') :
    Adds join (fun owner => owners owner ∨ others owner) lists lists'' := by
  refine ⟨fun owner node => ?_, fun owner => second.once owner ∘ first.once owner⟩
  rw [second.members, first.members, or_assoc, and_or_left]

theorem Adds.congr (adds : Adds join owners lists lists') (same : ∀ owner, owners owner ↔ others owner) :
    Adds join others lists lists' :=
  ⟨fun owner node => by rw [adds.members, same], adds.once⟩

theorem pushNew_adds (lists : NodeLists g) (owner join : g.Node) :
    Adds join (· = owner) lists (lists.pushNew owner join) := by
  unfold pushNew
  split
  · next there =>
    refine ⟨fun other node => ⟨.inl, ?_⟩, fun _ => id⟩
    rintro (old | ⟨rfl, rfl⟩)
    · exact old
    · exact there
  · next new =>
    refine ⟨fun other node => ?_, fun other once => ?_⟩ <;> rw [getElem_push] <;> split
    · next same => simp [same]
    · next differ => simp [Ne.symm differ]
    · next same =>
      subst same
      simpa using once.concat new
    · exact once

/-- A walk comes to its end and adds the join to the lists of the nodes that it passes. -/
theorem run_adds (join : g.Node) {d : Dominance g} {walked : List g.Node} (climbs : d.Climbs up pred walked) {fuel : Nat}
    (enough : walked.length < fuel) (lists : NodeLists g) :
    ∃ lists', lists.run d.idoms join up fuel pred = .ok lists' ∧ Adds join (· ∈ walked) lists lists' := by
  induction climbs generalizing fuel lists with
  | stop =>
    cases fuel with
    | zero => omega
    | succ fuel => exact ⟨lists, by rw [run, if_pos rfl], .none (by simp)⟩
  | step below idom _ ih =>
    rw [List.length_cons] at enough
    cases fuel with
    | zero => omega
    | succ fuel =>
      obtain ⟨lists', ran, adds⟩ := ih (show _ < fuel by omega) (lists.pushNew _ join)
      refine ⟨lists', ?_, ((pushNew_adds lists _ join).trans adds).congr fun owner => List.mem_cons.symm⟩
      simp only [run, if_neg below, Dominance.idom_eq_ok idom, ran]

theorem runAll_adds (join : g.Node) {preds : List g.Node} (above : ∀ pred ∈ preds, g.IsReachable pred ∧ g.Dominates up pred)
    (lists : NodeLists g) :
    ∃ lists', preds.foldlM (fun lists pred => lists.run (g.dominance g.explore).idoms join up (g.order + 1) pred) lists =
        .ok lists' ∧
      Adds join (fun owner => ∃ pred ∈ preds, g.Dominates owner pred ∧ ¬ g.Dominates owner up) lists lists' := by
  induction preds generalizing lists with
  | nil => exact ⟨lists, rfl, .none (by simp)⟩
  | cons pred rest ih =>
    obtain ⟨⟨reachable, dominates⟩, above⟩ := List.forall_mem_cons.mp above
    obtain ⟨walked, climbs, short, members⟩ := exists_climbs reachable dominates
    obtain ⟨next, ran, first⟩ := run_adds join climbs (show _ < g.order + 1 by omega) lists
    obtain ⟨lists', others, second⟩ := ih above next
    refine ⟨lists', by rw [List.foldlM_cons, ran, ok_bind, others], (first.trans second).congr fun owner => ?_⟩
    rw [members, List.exists_mem_cons_iff]

end NodeLists

/-- A node is in the frontier of `a`: an edge leads to it from where `a` dominates, and `a` does not dominate it
strictly. The entry is in no frontier. -/
def InFrontier (g : FlowGraph) (a node : g.Node) : Prop :=
  node ≠ g.entry ∧ (∃ pred, g.IsReachable pred ∧ node ∈ g.succs pred ∧ g.Dominates a pred) ∧
    ¬ g.StrictlyDominates a node

theorem addJoin_adds (reachable : g.IsReachable node) (lists : NodeLists g) :
    ∃ lists', lists.addJoin g.explore (g.dominance g.explore).idoms node = .ok lists' ∧
      NodeLists.Adds node (g.InFrontier · node) lists lists' := by
  unfold NodeLists.addJoin
  by_cases entry : node = g.entry
  · subst entry
    rw [g.idom_entry]
    exact ⟨lists, rfl, .none fun owner inside => inside.1 rfl⟩
  · obtain ⟨up, idom, -, strictly, covers⟩ := exists_idom reachable entry
    have notStrictly {owner : g.Node} : ¬ g.StrictlyDominates owner node ↔ ¬ g.Dominates owner up :=
      not_congr (strictlyDominates_iff strictly covers reachable)
    rw [Dominance.idom_eq_ok idom]
    dsimp only
    split
    · next few =>
      refine ⟨lists, rfl, .none ?_⟩
      rintro owner ⟨-, ⟨pred, found, edge, dominates⟩, outside⟩
      have member := (mem_explore_preds reachable).mpr ⟨found, edge⟩
      have many := length_preds_of_dominates reachable entry member dominates outside
      omega
    · have above : ∀ pred ∈ g.explore.preds node, g.IsReachable pred ∧ g.Dominates up pred := by
        intro pred member
        obtain ⟨found, edge⟩ := (mem_explore_preds reachable).mp member
        exact ⟨found, strictly.pred edge⟩
      obtain ⟨lists', ran, adds⟩ := NodeLists.runAll_adds node above lists
      refine ⟨lists', ran, adds.congr fun owner => ?_⟩
      constructor
      · rintro ⟨pred, member, dominates, outside⟩
        obtain ⟨found, edge⟩ := (mem_explore_preds reachable).mp member
        exact ⟨entry, ⟨pred, found, edge, dominates⟩, notStrictly.mpr outside⟩
      · rintro ⟨-, ⟨pred, found, edge, dominates⟩, outside⟩
        exact ⟨pred, (mem_explore_preds reachable).mpr ⟨found, edge⟩, dominates, notStrictly.mp outside⟩

/-- All walks come to their end, and each node is added once to the frontiers that it is in. -/
theorem exists_frontiers (g : FlowGraph) : ∃ lists,
    NodeLists.frontiers g.explore (g.dominance g.explore).idoms (g.dominance g.explore).rpo = .ok lists ∧
      ∀ a, lists[a].Nodup ∧ ∀ node, node ∈ lists[a] ↔ g.IsReachable node ∧ g.InFrontier a node := by
  have run (nodes : List g.Node) (reachable : ∀ node ∈ nodes, g.IsReachable node) : ∃ lists,
      nodes.foldlM (NodeLists.addJoin g.explore (g.dominance g.explore).idoms) (NodeLists.empty g) = .ok lists ∧
        ∀ a, lists[a].Nodup ∧ ∀ node, node ∈ lists[a] ↔ node ∈ nodes ∧ g.InFrontier a node := by
    induction nodes using List.reverseRecOn with
    | nil => exact ⟨_, rfl, fun a => by simp [NodeLists.empty]⟩
    | append_singleton nodes last ih =>
      obtain ⟨lists, ran, each⟩ := ih fun node member => reachable node (List.mem_append_left _ member)
      obtain ⟨lists', added, adds⟩ := addJoin_adds (reachable last (by simp)) lists
      refine ⟨lists', ?_, fun a => ⟨adds.once a (each a).1, fun node => ?_⟩⟩
      · rw [List.foldlM_append, ran, ok_bind, List.foldlM_cons, added]
        rfl
      · rw [adds.members, (each a).2, List.mem_append, List.mem_singleton, or_and_right]
        exact or_congr_right (and_congr_right fun same => by rw [same])
  obtain ⟨lists, ran, each⟩ := run (g.dominance g.explore).rpo fun node member => by
    rw [dominance_rpo, List.mem_reverse, mem_postorder] at member
    exact member
  refine ⟨lists, ran, fun a => ⟨(each a).1, fun node => ((each a).2 node).trans ?_⟩⟩
  rw [dominance_rpo, List.mem_reverse, mem_postorder]

theorem flowFault_eq_none (body : Body) : body.flowFault = none := by
  unfold Body.flowFault
  split
  · obtain ⟨lists, frontiers, -⟩ := exists_frontiers (body.graph ‹_›)
    simp only [Dominance.dominance_fault, frontiers]
  · rfl

/-- The frontiers of every graph: the frontier of a node holds, once each, the nodes that an edge leads to from where
the node dominates and that it does not dominate strictly, without the entry. All walks that collect them come to
their end. -/
theorem frontiers_exact (g : FlowGraph) :
    let d := g.dominance g.explore
    (∀ node, g.IsReachable node → ∃ list, d.frontier g.explore node = .ok list ∧ list.Nodup ∧
      ∀ join, join ∈ list ↔ g.IsReachable join ∧ join ≠ g.entry ∧
        (∃ pred, g.IsReachable pred ∧ join ∈ g.succs pred ∧ g.Dominates node pred) ∧
        ¬ g.StrictlyDominates node join) ∧
    ∀ join pred, g.IsReachable join → join ≠ g.entry → g.IsReachable pred → join ∈ g.succs pred →
      ∃ up walked, d.idom join = .ok (some up) ∧ d.Climbs up pred walked ∧ g.entry ∉ walked ∧
        (d.chain pred).takeWhile (· ≠ up) = walked := by
  dsimp only
  constructor
  · intro node reachable
    obtain ⟨lists, frontiers, each⟩ := g.exists_frontiers
    refine ⟨lists[node], ?_, each node⟩
    rw [Dominance.frontier, frontiers, ok_bind, Dominance.row_of_reachable reachable]
  · intro join pred reachable notEntry found edge
    obtain ⟨up, idom, -, strictly, -⟩ := exists_idom reachable notEntry
    obtain ⟨walked, climbs, short, members⟩ := exists_climbs found (strictly.pred edge)
    refine ⟨up, walked, idom, climbs, fun passed => ?_, climbs.takeWhile_chainUpTo (by omega)⟩
    exact ((members g.entry).mp passed).2 (.entry up)

/-- The last node of the loop is its own successor and leads back to the entry: only the former is in its frontier. -/
theorem tangle_frontier :
    let d := tangle.dominance tangle.explore
    tangle.IsReachable 3 ∧ (3 : tangle.Node) ≠ tangle.entry ∧ tangle.succs 3 = [3, 0] ∧
      d.frontier tangle.explore 3 = .ok [3] ∧
      ∃ up walked, d.idom 3 = .ok (some up) ∧ d.Climbs up 3 walked ∧ tangle.entry ∉ walked := by
  obtain ⟨frontiers, walks⟩ := frontiers_exact tangle
  have reachable : tangle.IsReachable 3 := ⟨_, tangle_path_third⟩
  have notEntry : (3 : tangle.Node) ≠ tangle.entry := by decide
  have all : ∀ node : tangle.Node, node = 0 ∨ node = 1 ∨ node = 2 ∨ node = 3 ∨ node = 4 := by decide
  have onlyItself (pred : tangle.Node) (found : tangle.IsReachable pred) (dominates : tangle.Dominates 3 pred) :
      pred = 3 := by
    rcases all pred with rfl | rfl | rfl | rfl | rfl
    · exact absurd dominates.eq_entry notEntry
    · exact absurd (dominates _ tangle_path_first) (by decide)
    · exact absurd (dominates _ tangle_path_second) (by decide)
    · rfl
    · exact absurd rfl (tangle_reachable_ne found)
  refine ⟨reachable, notEntry, rfl, ?_, ?_⟩
  · obtain ⟨list, row, once, members⟩ := frontiers 3 reachable
    have only (join : tangle.Node) : join ∈ list ↔ join = 3 := by
      rw [members]
      constructor
      · rintro ⟨-, other, ⟨pred, found, edge, dominates⟩, -⟩
        rw [onlyItself pred found dominates] at edge
        exact (List.mem_cons.mp edge).resolve_right fun entry => other (List.mem_singleton.mp entry)
      · rintro rfl
        exact ⟨reachable, notEntry, ⟨3, reachable, by decide, .refl 3⟩, fun strictly => strictly.1 rfl⟩
    have same : list.Perm [3] := (List.perm_ext_iff_of_nodup once (List.nodup_singleton 3)).mpr fun join => by
      rw [only, List.mem_singleton]
    rw [row, List.perm_singleton.mp same]
  · obtain ⟨up, walked, idom, climbs, before, -⟩ := walks 3 3 reachable notEntry reachable (by decide)
    exact ⟨up, walked, idom, climbs, before⟩

end RegisterAllocator.FlowGraph
