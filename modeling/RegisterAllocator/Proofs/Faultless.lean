import RegisterAllocator.Proofs.DominancePasses
import RegisterAllocator.Proofs.Frontiers
import RegisterAllocator.Proofs.Paths
import RegisterAllocator.Proofs.Progress
import RegisterAllocator.Proofs.Success

/-!
# Allocation of read code reaches no fault

On the way to an allocation tables are asked for rows, chains are climbed and instructions are found by number. For code
that was read from a source text every such step finds what it asks for: in the flow graph (`FlowGraph.grounded`), in
the analyses of a body (`Machine.Formed.analysable`), in the search (`SearchState.Reaches.grounded`) and in the stored
code, which the allocation is carried out on (`allocation_never_faults`).
-/

namespace RegisterAllocator

/-! ## Dominance -/

namespace FlowGraph

variable {g : FlowGraph} {node up : g.Node}

/-- What is looked up on the way to the dominance relation and its frontiers is there. -/
structure Grounded (g : FlowGraph) : Prop where
  /-- The reverse postorder starts with the entry. -/
  entry : g.postorder.reverse.head? = some g.entry
  /-- The predecessors of a node that is visited have rows. -/
  preds : ∀ node ∈ g.postorder, ∀ pred ∈ g.explore.preds node, pred ∈ g.postorder
  /-- At every moment of every pass the chains of nodes that have been processed meet, and they are in the table. -/
  meets : ∀ passes steps, ∃ idoms, Idoms.moment g passes steps = .ok idoms ∧
    ∀ a b, idoms[a].isSome → idoms[b].isSome → a ∈ g.postorder ∧
      ∃ c, idoms.meet g.rank (2 * g.order + 1) a b = some c ∧ idoms[c].isSome
  /-- The passes lead to the relation. -/
  ends : (g.dominance g.explore).fault = none ∧ ∃ passes idoms, Idoms.moment g passes 0 = .ok idoms ∧
    (g.dominance g.explore).idoms = idoms.set g.entry.val none
  /-- Walking up from a predecessor of a node leads to the immediate dominator of the node. -/
  walks : ∀ node up, (g.dominance g.explore).idoms[node] = some up →
    ∀ pred ∈ g.explore.preds node, up ∈ (g.dominance g.explore).chain pred
  frontiers : ∃ lists,
    NodeLists.frontiers g.explore (g.dominance g.explore).idoms (g.dominance g.explore).rpo = .ok lists

theorem dominator_on_chain (found : (g.dominance g.explore).idoms[node] = some up) {pred : g.Node}
    (before : pred ∈ g.explore.preds node) : up ∈ (g.dominance g.explore).chain pred := by
  obtain ⟨table, -, same, exact', -⟩ := g.dominance_eq
  rw [same] at found ⊢
  rw [Idoms.getElem_set] at found
  split at found
  · cases found
  · next notEntry =>
    have reachable : g.IsReachable node := by
      by_contra unreachable
      rw [exact'.unreachable unreachable] at found
      cases found
    obtain ⟨up', value, rises, dominates, -⟩ := exact'.immediate reachable (Ne.symm notEntry)
    rw [found] at value
    cases value
    -- what dominates a node strictly dominates its predecessors, and the chain of a node is its dominators
    obtain ⟨reachable', edge⟩ := (mem_explore_preds reachable).mp before
    exact (Dominance.mem_chainUpTo exact' rfl reachable' (Nat.sub_le _ _)).mpr
      ((Idoms.strictly_of_rank dominates rises).pred edge)

theorem grounded (g : FlowGraph) : g.Grounded where
  entry := by
    obtain ⟨rest, order⟩ := g.rpo_eq_cons
    rw [order, List.head?_cons]
  preds node member pred before := by
    rw [mem_postorder] at member ⊢
    exact ((mem_explore_preds member).mp before).1
  meets passes steps := by
    obtain ⟨idoms, now, round, -⟩ := Idoms.exists_moment g passes steps
    refine ⟨idoms, now, fun a b first second => ?_⟩
    have enough : (g.order - g.rank a) + (g.order - g.rank b) < 2 * g.order + 1 := by omega
    obtain ⟨c, met, above, -⟩ := round.approximates.meet_eq first second enough
    exact ⟨mem_postorder.mpr (round.approximates.isReachable first), c, met,
      round.approximates.above_filled above first⟩
  ends := by
    obtain ⟨count, -, found, now, -, -, table⟩ := Idoms.exists_rest g
    exact ⟨Dominance.dominance_fault g, count, found, now, table⟩
  walks _ _ found _ before := dominator_on_chain found before
  frontiers := by
    obtain ⟨lists, found, -⟩ := g.exists_frontiers
    exact ⟨lists, found⟩

end FlowGraph

/-! ## Liveness and live ranges -/

/-- What the analyses of a body look up is there. -/
structure Body.Analysable (body : Body) : Prop where
  entry : 0 < body.size
  succs : ∀ position succ, succ ∈ body.succs position → succ < body.size
  /-- A pass keeps the rows of the blocks. -/
  passes : ∀ tracked (ins : LiveIns), (ins.pass 0 (Liveness.rows tracked body)).size = ins.size
  rows : ∀ tracked, (Liveness.ofBody tracked body).summaries.length = body.size ∧
    (Liveness.ofBody tracked body).ins.length = body.size ∧ (Liveness.ofBody tracked body).outs.length = body.size
  /-- Ranges are within the numbering. -/
  ranges : ∀ tracked reg, ∀ r ∈ (LiveRanges.ofBody tracked body).ranges reg,
    r.block < body.size ∧ r.start ≤ r.stop ∧ r.stop < body.insts.length
  graph : ∀ nonempty, (body.graph nonempty).Grounded

theorem Body.Laid.succ_lt {body : Body} (laid : body.Laid) {position succ : Nat} (member : succ ∈ body.succs position) :
    succ < body.size := by
  rcases List.mem_append.mp member with target | exit
  · cases located : body.blocks[position]? with
    | none => simp [located] at target
    | some block =>
      rw [located, Option.map_some, Option.getD_some] at target
      obtain ⟨inst, inBlock, leads⟩ := List.mem_flatMap.mp target
      exact laid.targets block (List.mem_of_getElem? located) inst inBlock succ leads
  · rw [laid.exits, List.getElem?_map] at exit
    by_cases inside : position < body.size
    · rw [List.getElem?_range inside, Option.map_some, Option.join_some,
        Machine.exit?_eq (List.getElem?_eq_getElem inside)] at exit
      split at exit
      · next more =>
        rw [List.mem_singleton.mp exit]
        exact more.2
      · cases exit
    · rw [List.getElem?_eq_none (by simpa using inside)] at exit
      cases exit

theorem LiveRanges.ranges_within {tracked : Reg → Bool} {body : Body} {reg : Reg} {r : LiveRange}
    (member : r ∈ (ofBody tracked body).ranges reg) :
    r.block < body.size ∧ r.start ≤ r.stop ∧ r.stop < body.insts.length := by
  rw [ranges_ofBody] at member
  split at member
  · obtain ⟨position, block, out, located, -, inBlock⟩ := mem_ofReg.mp member
    obtain ⟨here, -, proper, stop⟩ := inBlock_within inBlock
    have inside := (List.getElem?_eq_some_iff.mp located).1
    refine ⟨here ▸ inside, proper, ?_⟩
    calc r.stop < body.firstNumber position + block.insts.length := stop
      _ = body.firstNumber (position + 1) := (Body.firstNumber_succ located).symm
      _ ≤ body.firstNumber body.size := body.firstNumber_mono inside
      _ = body.insts.length := body.firstNumber_size
  · cases member

theorem Machine.Formed.analysable {m : Machine} {code : BlockId → List InstId} {layout : FuncId → List BlockId}
    {f : FuncId} {body : Body} (formed : m.Formed code layout) (found : m.body f = .ok body) : body.Analysable where
  entry := by
    obtain ⟨laid, -, shows⟩ := formed.body_shows found
    have filled := List.length_pos_iff.mpr (layout_ne_nil found laid)
    rwa [shows.length_eq] at filled
  succs position succ member := (WellFormed.body_laid ⟨code, layout, formed⟩ found).succ_lt member
  passes tracked ins := LiveIns.size_pass 0 _ ins
  rows tracked := by
    have size := Liveness.length_rows tracked body
    have settled := (Liveness.settled_fixed tracked body).2.size.trans size
    refine ⟨?_, ?_, ?_⟩
    · rw [Liveness.ofBody, List.length_map, size]
    · rwa [Liveness.ofBody, Array.length_toList]
    · rw [Liveness.ofBody, List.length_map, size]
  ranges tracked reg r member := LiveRanges.ranges_within member
  graph nonempty := FlowGraph.grounded _

/-! ## The search -/

/-- What the search looks up in a state is there: the web that is served next is known and has not come to its end, and
so are the webs that hold registers. -/
structure SearchState.Grounded (p : Problem) (s : SearchState) : Prop where
  stages : s.stages.size = p.webs.size
  homes : s.homes.size = p.webs.size
  evictions : s.evictions.size = p.webs.size
  served : ∀ ticket rest, Ticket.pop? s.queue = some (ticket, rest) →
    ticket.web < p.webs.size ∧ s.stage ticket.web ≠ .done
  occupants : ∀ reg, ∀ web ∈ s.occupants reg, web < p.webs.size
  faultless : s.fault = none

theorem SearchState.Reaches.grounded {p : Problem} (proper : p.Proper) {n : Nat} {s : SearchState}
    (reached : Reaches p n s) : s.Grounded p := by
  have sound := reached.reachable.sound proper
  have known {web : Nat} (going : s.stage web ≠ .done) : web < p.webs.size := by
    rw [← sound.stages]
    exact known_of_stage going
  refine ⟨sound.stages, sound.homes, (reached.books proper).2.size, fun ticket rest found => ?_,
    fun reg web member => ?_, sound.fault⟩
  · have going := (progress_of_reaches proper reached).unfinished ticket rest found
    exact ⟨known going, going⟩
  · rw [← sound.homes]
    exact known_of_home ((sound.occupants reg web).mp member)

/-! ## Functions -/

/-- What the allocation of a function looks up is there, and there is room for what it adds. -/
structure Machine.Supplied (m : Machine) (config : Config) (f : FuncId) (node : FuncNode) (body : Body) : Prop where
  graph : ∃ g, m.flowGraph f = .ok g ∧ g.Grounded
  numbering : ∃ ids, m.instList f = .ok ids ∧ ids.length = body.insts.length
  analysable : body.Analysable
  search : ∀ n s, SearchState.Reaches (Allocation.make config body node.frame).problem n s →
    s.Grounded (Allocation.make config body node.frame).problem
  drained : ∃ n, SearchState.Reaches (Allocation.make config body node.frame).problem n
    (Allocation.make config body node.frame).search ∧ (Allocation.make config body node.frame).search.queue = []
  /-- The steps of the plan are about numbered instructions. -/
  steps : ∀ step ∈ (Allocation.make config body node.frame).plan.steps, ∀ t, step.transfer? = some t →
    t.number < body.insts.length
  /-- Registers are replaced at numbered instructions. -/
  homed : ∀ row ∈ (Allocation.make config body node.frame).homed, ∀ number ∈ row.1.numbers, number < body.insts.length
  drops : ∀ number ∈ (Allocation.make config body node.frame).drops.map Prod.fst, number < body.insts.length
  signed : node.frame.toNat < 2 ^ 63
  spills : ((Allocation.make config body node.frame).problem.spills
    (Allocation.make config body node.frame).search.decisions).length ≤ 2 ^ 33
  frame : (Allocation.make config body node.frame).plan.frame.toNat = node.frame.toNat +
    8 * ((Allocation.make config body node.frame).problem.spills
      (Allocation.make config body node.frame).search.decisions).length

theorem Machine.Formed.supplied {m : Machine} {code : BlockId → List InstId} {layout : FuncId → List BlockId}
    {f : FuncId} (formed : m.Formed code layout) (ready : m.Ready code (layout f) f) {node : FuncNode}
    (known : m.func f = .ok node) (config : Config) :
    ∃ body, m.body f = .ok body ∧ m.Supplied config f node body := by
  have laid := formed.layout_ok known
  obtain ⟨body, found⟩ := formed.body_ok ready.closed laid ready.filled
  have plain := formed.body_eq found
  have complete : (Allocation.make config body node.frame).plan.ending = .complete :=
    formed.plan_complete ready found known
  have spans := LiveRanges.spans_ofBody body
  have once := @spills_nodup config body node.frame
  have few := VirtReg.length_le_of_nodup once
  have signed := ready.frame_lt known
  obtain ⟨g, graph⟩ := formed.flowGraph_ok ready.closed laid ready.filled
  exact ⟨body, found,
    { graph := ⟨g, graph, g.grounded⟩
      numbering := ⟨_, (formed.body_shows found).2.1, (formed.holds_body found).2.length_eq⟩
      analysable := formed.analysable found
      search := fun n s reached => reached.grounded (@problem_proper config body node.frame)
      drained := SearchState.finish_drained (@problem_proper config body node.frame)
      steps := fun step member t => SpillPlan.make_number_lt plain spans once complete member
      homed := fun row => homed_inside
      drops := Allocation.make_drops_lt plain complete
      signed := signed
      spills := few
      frame := (SpillPlan.make_frame complete).1 }⟩

/-- Allocating the functions of a source text reaches no fault, with any configuration: the run comes to a report; and
when the turn of a function comes, it is external or everything that its allocation looks up is there. -/
theorem allocation_never_faults {source : String} {m : Machine} (read : Source.read source = .ok m) (a : Allocator) :
    (∃ report, a.run m = .ok report) ∧
    ∀ pre f post, m.funcIds = pre ++ f :: post → ∃ before node, a.runFunctions m pre = .ok before ∧
      before.machine.func f = .ok node ∧
        (node.external = true ∨ ∃ body, before.machine.body f = .ok body ∧
          before.machine.Supplied a.config f node body) := by
  obtain ⟨code, layout, loaded⟩ := Source.read_loaded read
  refine ⟨?_, fun pre f post cut => ?_⟩
  · obtain ⟨report, -, ran, -⟩ := loaded.run a
    exact ⟨report, ran⟩
  · -- the functions in front leave the rest of the machine ready
    have awaits := loaded.awaits
    rw [cut] at awaits
    obtain ⟨before, -, code', ran, -, next⟩ := awaits.run (cut ▸ m.funcIds_nodup) a
    obtain ⟨external, frame, traits, ready⟩ := next.each f List.mem_cons_self
    obtain ⟨node, known, rfl, -⟩ := Machine.exists_func traits
    refine ⟨before, node, ran, known, ready.imp_right fun ready => ?_⟩
    exact next.formed.supplied ready known a.config

/-- A function with the largest frame that can be read, behind an external one that it calls in a loop. -/
def brimming : String :=
  ".extern g\n.func f\n.frame 9223372036854775807\nli $r0, 9\nl:\ncall g\naddi $r0, $r0, -1\nbnez $r0, l\nret\n"

/-- Without registers to hand out, every register of that function goes to the stack, and its allocation is supplied
with all that it looks up. -/
theorem brimming_never_faults :
    ∃ m report before node body, Source.read brimming = .ok m ∧ m.funcIds = [⟨0⟩, ⟨1⟩] ∧
      ({ config := { registerLimit := some 0 } } : Allocator).run m = .ok report ∧
      ({ config := { registerLimit := some 0 } } : Allocator).runFunctions m [⟨0⟩] = .ok before ∧
      before.machine.func ⟨1⟩ = .ok node ∧ node.frame.toNat = 2 ^ 63 - 1 ∧ before.machine.body ⟨1⟩ = .ok body ∧
      before.machine.Supplied { registerLimit := some 0 } ⟨1⟩ node body := by
  have run : (do
      let m ← (Source.read brimming).toOption
      let before ← (({ config := { registerLimit := some 0 } } : Allocator).runFunctions m [⟨0⟩]).toOption
      let node ← (before.machine.func ⟨1⟩).toOption
      return decide (m.funcIds = [⟨0⟩, ⟨1⟩] ∧ node.external = false ∧ node.frame.toNat = 2 ^ 63 - 1)) = some true := by
    decide +kernel
  simp only [bind, Option.bind_eq_some_iff, toOption_eq_some, pure, Option.some.injEq, decide_eq_true_eq] at run
  obtain ⟨m, read, before, ran, node, known, functions, internal, frame⟩ := run
  obtain ⟨⟨report, whole⟩, turns⟩ := allocation_never_faults read { config := { registerLimit := some 0 } }
  obtain ⟨before', node', ran', known', turn⟩ := turns [⟨0⟩] ⟨1⟩ [] functions
  cases ran.symm.trans ran'
  cases known.symm.trans known'
  obtain ⟨body, found, supplied⟩ := turn.resolve_left (by rw [internal]; nofun)
  exact ⟨m, report, before, node, body, read, functions, whole, ran, known, frame, found, supplied⟩

end RegisterAllocator
