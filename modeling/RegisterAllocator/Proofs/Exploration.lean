import RegisterAllocator.Proofs.Dominators

/-!
# Exploration edge by edge

A walk can note the edges as it meets them, each in a row of its source and in a row of its target (`FlowGraph.survey`).
In the middle of such a walk a node may have a row before it is visited, and be found several times. When nothing is
left to visit, the rows are those of the exploration (`survey_succs`, `survey_preds`): exactly the reachable nodes have
one, and it holds what it should (`explored_exactly`).
-/

namespace RegisterAllocator

/-! ## First occurrences -/

theorem eraseDups_concat {α : Type} [DecidableEq α] (list : List α) (a : α) :
    (list ++ [a]).eraseDups = if a ∈ list then list.eraseDups else list.eraseDups ++ [a] := by
  rw [List.eraseDups_append]
  by_cases member : a ∈ list <;> simp [List.removeAll, member, List.eraseDups_cons]

/-- The items of a list that do not occur earlier in it. -/
def firsts {α : Type} [DecidableEq α] (list : List α) : List α :=
  (list.zipIdx.filter fun (a, k) => a ∉ list.take k).map Prod.fst

theorem eraseDups_eq_firsts {α : Type} [DecidableEq α] (list : List α) : list.eraseDups = firsts list := by
  induction list using List.reverseRecOn with
  | nil => rfl
  | append_singleton list a ih =>
    have early : list.zipIdx.filter (fun (b, k) => b ∉ (list ++ [a]).take k) =
        list.zipIdx.filter fun (b, k) => b ∉ list.take k := by
      apply List.filter_congr
      rintro ⟨b, k⟩ member
      have bound := (List.mem_zipIdx' member).1
      dsimp only
      rw [List.take_append_of_le_length bound.le]
    rw [eraseDups_concat, ih, firsts, firsts, List.zipIdx_append, List.filter_append, early, List.map_append]
    by_cases again : a ∈ list <;> simp [again]

namespace FlowGraph

variable {g : FlowGraph}

/-! ## Walks that note edges -/

/-- A walk that notes the edges it meets. -/
structure Survey (g : FlowGraph) where
  /-- The nodes found but not yet visited, the last found first. -/
  found : List g.Node
  visited : List g.Node := []
  /-- The successors noted so far, for the nodes that have a row. -/
  succs : g.Node → Option (List g.Node) := fun _ => none
  preds : g.Node → Option (List g.Node) := fun _ => none

namespace Survey

/-- Give a node a row, and add entries to it. -/
def extend (rows : g.Node → Option (List g.Node)) (node : g.Node) (entries : List g.Node) :
    g.Node → Option (List g.Node) :=
  Function.update rows node (some ((rows node).getD [] ++ entries))

/-- Note the edge from `node` to `next`, unless it has been noted. -/
def note (node : g.Node) (s : Survey g) (next : g.Node) : Survey g :=
  if next ∈ (s.succs node).getD [] then s
  else
    { s with
      succs := extend s.succs node [next]
      preds := extend s.preds next [node]
      found := if next ∈ s.visited then s.found else next :: s.found }

def enter (s : Survey g) (node : g.Node) : Survey g :=
  (g.succs node).foldl (note node)
    { s with visited := node :: s.visited, succs := extend s.succs node [], preds := extend s.preds node [] }

theorem foldl_note_visited (s : Survey g) (node : g.Node) (nexts : List g.Node) :
    (nexts.foldl (note node) s).visited = s.visited := by
  induction nexts generalizing s with
  | nil => rfl
  | cons next rest ih =>
    rw [List.foldl_cons, ih, note]
    split <;> rfl

theorem length_foldl_note_found (s : Survey g) (node : g.Node) (nexts : List g.Node) :
    (nexts.foldl (note node) s).found.length ≤ nexts.length + s.found.length := by
  induction nexts generalizing s with
  | nil => simp
  | cons next rest ih =>
    have one : (note node s next).found.length ≤ s.found.length + 1 := by
      unfold note
      split
      · exact Nat.le_succ _
      · dsimp only
        split
        · exact Nat.le_succ _
        · exact Nat.le_refl _
    have others := ih (note node s next)
    rw [List.foldl_cons, List.length_cons]
    omega

/-- What a survey still has to look at: the nodes found, and the edges of the nodes that are not visited. -/
def remaining (s : Survey g) : Nat := s.found.length + g.pending s.visited

theorem remaining_enter (s : Survey g) {node : g.Node} (fresh : node ∉ s.visited) :
    (s.enter node).remaining ≤ s.remaining := by
  have counted := pending_of_notMem fresh
  have longer := length_foldl_note_found
    { s with visited := node :: s.visited, succs := extend s.succs node [], preds := extend s.preds node [] } node
    (g.succs node)
  rw [remaining, remaining, enter, foldl_note_visited]
  dsimp only at longer ⊢
  omega

theorem remaining_pop {s : Survey g} {node : g.Node} {rest : List g.Node} (shape : s.found = node :: rest) :
    s.remaining = remaining { s with found := rest } + 1 := by
  rw [remaining, remaining, shape, List.length_cons]
  exact Nat.succ_add_eq_add_succ ..

def run (s : Survey g) : Survey g :=
  match _shape : s.found with
  | [] => s
  | node :: rest =>
    if node ∈ s.visited then run { s with found := rest }
    else run (enter { s with found := rest } node)
termination_by s.remaining
decreasing_by
  · rw [remaining_pop _shape]
    exact Nat.lt_succ_self _
  · rw [remaining_pop _shape]
    exact Nat.lt_succ_of_le (remaining_enter _ ‹_›)

/-- The survey after the edges from `node` to `nexts`, if it had noted none of them. -/
def noted (s : Survey g) (node : g.Node) (nexts : List g.Node) : Survey g :=
  { s with
    found := (nexts.eraseDups.filter (· ∉ s.visited)).reverse ++ s.found
    succs := Function.update s.succs node (some nexts.eraseDups)
    preds := fun next => if next ∈ nexts then some ((s.preds next).getD [] ++ [node]) else s.preds next }

theorem note_noted (s : Survey g) (node : g.Node) (nexts : List g.Node) (next : g.Node) :
    note node (s.noted node nexts) next = s.noted node (nexts ++ [next]) := by
  have row : (s.noted node nexts).succs node = some nexts.eraseDups := Function.update_self ..
  have whole := eraseDups_concat nexts next
  rw [note, row, Option.getD_some]
  by_cases again : next ∈ nexts
  · rw [if_pos again] at whole
    rw [if_pos (List.mem_eraseDups.mpr again)]
    simp only [noted, whole, mk.injEq, true_and]
    funext other
    simp only [List.mem_append, List.mem_singleton]
    congr 1
    rw [eq_iff_iff]
    exact ⟨.inl, fun either => either.elim id fun same => same ▸ again⟩
  · rw [if_neg again] at whole
    rw [if_neg (List.mem_eraseDups.not.mpr again)]
    simp only [noted, whole, mk.injEq, true_and]
    refine ⟨?_, ?_, ?_⟩
    · by_cases old : next ∈ s.visited <;> simp [old]
    · simp [extend]
    · funext other
      by_cases same : other = next
      · subst same
        simp [extend, again]
      · simp [extend, same]

theorem foldl_note (s : Survey g) (node : g.Node) (nexts : List g.Node) :
    nexts.foldl (note node) (s.noted node []) = s.noted node nexts := by
  induction nexts using List.reverseRecOn with
  | nil => rfl
  | append_singleton nexts next ih => rw [List.foldl_append, ih, List.foldl_cons, List.foldl_nil, note_noted]

/-- What a visit does: the node has its successors in its row, and stands in their rows of predecessors. -/
theorem enter_eq (s : Survey g) {node : g.Node} (fresh : s.succs node = none) : s.enter node =
    noted { s with visited := node :: s.visited, preds := extend s.preds node [] } node (g.succs node) := by
  rw [enter, ← foldl_note]
  simp [noted, extend, fresh]

/-- The visited nodes with an edge to a node, in the order of the walk. -/
def sources (visited : List g.Node) (node : g.Node) : List g.Node :=
  visited.reverse.filter fun source => node ∈ g.distinctSuccs source

/-- What the rows hold between two visits: the visited nodes have all their successors, and a node that is visited or
found has the visited nodes that lead to it. -/
structure Exact (s : Survey g) : Prop where
  succs : ∀ node, s.succs node = if node ∈ s.visited then some (g.distinctSuccs node) else none
  preds : ∀ node, s.preds node =
    if node ∈ s.visited ∨ sources s.visited node ≠ [] then some (sources s.visited node) else none

variable {s : Survey g}

theorem Exact.enter (exact : s.Exact) {node : g.Node} (fresh : node ∉ s.visited) : (s.enter node).Exact := by
  have row : s.succs node = none := by rw [exact.succs, if_neg fresh]
  have grown (other : g.Node) : sources (node :: s.visited) other =
      sources s.visited other ++ if other ∈ g.succs node then [node] else [] := by
    rw [sources, List.reverse_cons, List.filter_append, List.filter_singleton]
    simp [sources, mem_distinctSuccs]
  have known (other : g.Node) : (s.preds other).getD [] = sources s.visited other := by
    rw [exact.preds]
    split
    · rfl
    · next none =>
      exact (not_ne_iff.mp (not_or.mp none).2).symm
  rw [enter_eq s row]
  refine ⟨fun other => ?_, fun other => ?_⟩
  · by_cases same : other = node
    · subst same
      simp [noted, distinctSuccs]
    · simp [noted, same, exact.succs]
  · simp only [noted, grown, extend, List.append_nil]
    by_cases edge : other ∈ g.succs node
    · by_cases same : other = node
      · subst same
        simp [edge, known]
      · simp [edge, same, known]
    · by_cases same : other = node
      · subst same
        simp [edge, known]
      · simp [edge, same, exact.preds]

theorem Exact.run (exact : s.Exact) : s.run.Exact := by
  fun_induction Survey.run s with
  | case1 s found => exact exact
  | case2 s node rest found again ih => exact ih ⟨exact.succs, exact.preds⟩
  | case3 s node rest found fresh ih =>
    have pop : Exact { s with found := rest } := ⟨exact.succs, exact.preds⟩
    exact ih (pop.enter fresh)

theorem run_found (s : Survey g) : s.run.found = [] := by
  fun_induction Survey.run s with
  | case1 s none => exact none
  | case2 s node rest shape again ih => exact ih
  | case3 s node rest shape fresh ih => exact ih

theorem Exact.run_visited (exact : s.Exact) {fuel : Nat} (enough : s.remaining ≤ fuel) :
    s.run.visited = g.walk fuel s.found s.visited := by
  fun_induction Survey.run s generalizing fuel with
  | case1 s none =>
    rw [none]
    cases fuel <;> rfl
  | case2 s node rest shape again ih =>
    rw [remaining_pop shape] at enough
    obtain ⟨fuel, rfl⟩ := Nat.exists_eq_add_of_le' (Nat.one_le_of_lt enough)
    rw [ih ⟨exact.succs, exact.preds⟩ (Nat.le_of_succ_le_succ enough), shape, walk, if_pos again]
  | case3 s node rest shape fresh ih =>
    rw [remaining_pop shape] at enough
    obtain ⟨fuel, rfl⟩ := Nat.exists_eq_add_of_le' (Nat.one_le_of_lt enough)
    have pop : Exact { s with found := rest } := ⟨exact.succs, exact.preds⟩
    have row : s.succs node = none := by rw [exact.succs, if_neg fresh]
    have smaller := remaining_enter { s with found := rest } fresh
    have entered := enter_eq { s with found := rest } row
    rw [ih (pop.enter fresh) (smaller.trans (Nat.le_of_succ_le_succ enough)), entered, shape, walk, if_neg fresh]
    rfl

end Survey

def survey (g : FlowGraph) : Survey g := Survey.run { found := [g.entry] }

theorem survey_exact (g : FlowGraph) : g.survey.Exact := by
  apply Survey.Exact.run
  exact ⟨fun _ => rfl, fun _ => rfl⟩

theorem survey_visited (g : FlowGraph) : g.survey.visited.reverse = g.visitOrder := by
  have start : Survey.Exact { found := [g.entry] } := ⟨fun _ => rfl, fun _ => rfl⟩
  have enough : Survey.remaining { found := [g.entry] } ≤ g.size + 1 := by
    simp only [Survey.remaining, pending_nil, List.length_singleton]
    omega
  rw [survey, start.run_visited enough, visitOrder]

theorem mem_survey_visited {node : g.Node} : node ∈ g.survey.visited ↔ g.IsReachable node := by
  rw [← mem_visitOrder, ← g.survey_visited, List.mem_reverse]

theorem survey_succs (g : FlowGraph) : g.survey.succs = g.explore.succs? := by
  funext node
  have same : node ∈ g.survey.visited ↔ g.explore.contains node = true := by
    rw [mem_survey_visited, explore_contains]
  rw [g.survey_exact.succs, Reachable.succs?]
  simp only [same]
  simp [explore]

/-- When the survey is done, every node found is visited, so only those have a row. -/
theorem survey_preds (g : FlowGraph) : g.survey.preds = g.explore.preds? := by
  funext node
  have row : g.explore.predTable[node] = Survey.sources g.survey.visited node := by
    simp [explore, Survey.sources, g.survey_visited]
  have same : (node ∈ g.survey.visited ∨ Survey.sources g.survey.visited node ≠ []) ↔
      g.explore.contains node = true := by
    rw [mem_survey_visited, explore_contains, or_iff_left_iff_imp]
    intro filled
    obtain ⟨source, member⟩ := List.exists_mem_of_ne_nil _ filled
    obtain ⟨inside, edge⟩ := List.mem_filter.mp member
    have reachable := mem_survey_visited.mp (List.mem_reverse.mp inside)
    exact reachable.step (mem_distinctSuccs.mp (of_decide_eq_true edge))
  rw [g.survey_exact.preds, Reachable.preds?, row]
  simp only [same]

theorem explore_succs?_eq_some {node : g.Node} {nexts : List g.Node} :
    g.explore.succs? node = some nexts ↔ g.IsReachable node ∧ g.distinctSuccs node = nexts := by
  have row : g.explore.succTable[node] = g.distinctSuccs node := by simp [explore]
  rw [Reachable.succs?, row, Option.ite_none_right_eq_some, explore_contains, Option.some.injEq]

theorem explore_preds?_eq_some {node : g.Node} {befores : List g.Node} : g.explore.preds? node = some befores ↔
    g.IsReachable node ∧ (g.visitOrder.filter fun source => node ∈ g.distinctSuccs source) = befores := by
  have row : g.explore.predTable[node] = g.visitOrder.filter fun source => node ∈ g.distinctSuccs source := by
    simp [explore]
  rw [Reachable.preds?, row, Option.ite_none_right_eq_some, explore_contains, Option.some.injEq]

/-- The reachable part of every graph. A walk that notes edges as it meets them comes to an end and gives the same rows.
Exactly the reachable nodes have rows, their successors are those listed, without repetitions, and their predecessors
are the nodes that have them as successors, once each. -/
theorem explored_exactly (g : FlowGraph) :
    let r := g.explore
    (g.survey.found = [] ∧ g.survey.succs = r.succs? ∧ g.survey.preds = r.preds?) ∧
    (∀ node, (r.contains node = true ↔ g.IsReachable node) ∧ ((r.succs? node).isSome ↔ g.IsReachable node) ∧
      ((r.preds? node).isSome ↔ g.IsReachable node)) ∧
    (∀ node nexts, r.succs? node = some nexts → nexts = firsts (g.succs node) ∧ nexts.Nodup) ∧
    ∀ node befores, r.preds? node = some befores → befores.Nodup ∧
      ∀ source, (source ∈ befores → g.IsReachable source) ∧
        (source ∈ befores ↔ ∃ nexts, r.succs? source = some nexts ∧ node ∈ nexts) := by
  intro r
  refine ⟨⟨Survey.run_found _, g.survey_succs, g.survey_preds⟩, fun node => ⟨explore_contains, ?_, ?_⟩, ?_, ?_⟩
  · rw [Option.isSome_iff_exists]
    exact ⟨fun ⟨_, row⟩ => (explore_succs?_eq_some.mp row).1, fun found => ⟨_, explore_succs?_eq_some.mpr ⟨found, rfl⟩⟩⟩
  · rw [Option.isSome_iff_exists]
    exact ⟨fun ⟨_, row⟩ => (explore_preds?_eq_some.mp row).1, fun found => ⟨_, explore_preds?_eq_some.mpr ⟨found, rfl⟩⟩⟩
  · intro node nexts row
    obtain ⟨-, rfl⟩ := explore_succs?_eq_some.mp row
    exact ⟨eraseDups_eq_firsts _, eraseDups_nodup _⟩
  · intro node befores row
    obtain ⟨-, rfl⟩ := explore_preds?_eq_some.mp row
    refine ⟨g.visitOrder_nodup.filter _, fun source => ?_⟩
    have member : source ∈ (g.visitOrder.filter fun source => node ∈ g.distinctSuccs source) ↔
        g.IsReachable source ∧ node ∈ g.distinctSuccs source := by
      rw [List.mem_filter, mem_visitOrder, decide_eq_true_eq]
    rw [member]
    refine ⟨And.left, fun ⟨found, edge⟩ => ⟨_, explore_succs?_eq_some.mpr ⟨found, rfl⟩, edge⟩, ?_⟩
    rintro ⟨nexts, row, edge⟩
    obtain ⟨found, rfl⟩ := explore_succs?_eq_some.mp row
    exact ⟨found, edge⟩

/-- Node 4 leads to node 1 but is not reachable, so it is not among the predecessors; the two edges from the entry to
node 1 count once. -/
theorem tangle_explored :
    let r := tangle.explore
    tangle.succs 0 = [1, 2, 1] ∧ tangle.succs 4 = [1] ∧ r.succs? 0 = some [1, 2] ∧ r.preds? 1 = some [0, 2] ∧
      r.preds? 4 = none ∧ tangle.survey.preds 1 = some [0, 2] ∧ tangle.IsReachable 2 := by
  intro r
  obtain ⟨⟨-, -, preds⟩, -, -, sources⟩ := explored_exactly tangle
  have row : r.preds? 1 = some [0, 2] := by decide +kernel
  exact ⟨rfl, rfl, by decide +kernel, row, by decide +kernel, by rw [preds, row],
    ((sources 1 [0, 2] row).2 2).1 (by decide)⟩

end FlowGraph

end RegisterAllocator
