import Mathlib.Algebra.BigOperators.Fin
import RegisterAllocator.Graph.Explore

/-!
# Paths and reachability

The walk from the entry visits the nodes that a path leads to, and no others (`mem_visitOrder`). Its fuel is enough
because every node found belongs to an edge out of a visited node, and no node is visited twice.
-/

namespace RegisterAllocator

theorem eraseDups_sublist {α : Type} [DecidableEq α] (list : List α) : list.eraseDups.Sublist list := by
  match list with
  | [] => exact List.Sublist.refl _
  | first :: rest =>
    rw [List.eraseDups_cons]
    apply List.Sublist.cons_cons
    exact (eraseDups_sublist _).trans List.filter_sublist
termination_by list.length
decreasing_by exact Nat.lt_succ_of_le (List.length_filter_le _ _)

theorem eraseDups_nodup {α : Type} [DecidableEq α] (list : List α) : list.eraseDups.Nodup := by
  match list with
  | [] => exact List.nodup_nil
  | first :: rest =>
    rw [List.eraseDups_cons, List.nodup_cons]
    exact ⟨by simp [List.mem_eraseDups], eraseDups_nodup _⟩
termination_by list.length
decreasing_by exact Nat.lt_succ_of_le (List.length_filter_le _ _)

namespace FlowGraph

variable {g : FlowGraph} {start node last : g.Node} {nodes : List g.Node}

/-- A path, given by its nodes from the last to the first. -/
inductive Path (g : FlowGraph) (start : g.Node) : g.Node → List g.Node → Prop
  | single : Path g start start [start]
  | step {node next : g.Node} {nodes : List g.Node} (path : Path g start node nodes)
      (edge : next ∈ g.succs node) : Path g start next (next :: nodes)

namespace Path

theorem mem_last (path : g.Path start node nodes) : node ∈ nodes := by
  cases path <;> exact List.mem_cons_self

theorem mem_start (path : g.Path start node nodes) : start ∈ nodes := by
  induction path with
  | single => exact List.mem_singleton_self _
  | step _ _ ih => exact List.mem_cons_of_mem _ ih

theorem upTo (path : g.Path start last nodes) (member : node ∈ nodes) :
    ∃ part, g.Path start node part ∧ part <:+ nodes := by
  induction path with
  | single =>
    rw [List.mem_singleton.mp member]
    exact ⟨_, .single, List.suffix_rfl⟩
  | step path edge ih =>
    rcases List.mem_cons.mp member with rfl | earlier
    · exact ⟨_, .step path edge, List.suffix_rfl⟩
    · obtain ⟨part, here, suffix⟩ := ih earlier
      exact ⟨part, here, suffix.trans (List.suffix_cons _ _)⟩

theorem simple (path : g.Path start node nodes) : ∃ part, g.Path start node part ∧ part.Nodup ∧ part ⊆ nodes := by
  induction path with
  | single => exact ⟨_, .single, List.nodup_singleton _, List.Subset.refl _⟩
  | @step _ next _ _ edge ih =>
    obtain ⟨part, here, nodup, within⟩ := ih
    by_cases again : next ∈ part
    · obtain ⟨shorter, there, suffix⟩ := here.upTo again
      exact ⟨shorter, there, nodup.sublist suffix.sublist,
        fun _ member => List.mem_cons_of_mem _ (within (suffix.subset member))⟩
    · exact ⟨next :: part, .step here edge, List.nodup_cons.mpr ⟨again, nodup⟩, List.cons_subset_cons next within⟩

end Path

def IsReachable (g : FlowGraph) (node : g.Node) : Prop := ∃ nodes, g.Path g.entry node nodes

theorem entry_isReachable (g : FlowGraph) : g.IsReachable g.entry := ⟨_, .single⟩

theorem IsReachable.step {next : g.Node} (reachable : g.IsReachable node) (edge : next ∈ g.succs node) :
    g.IsReachable next := by
  obtain ⟨nodes, path⟩ := reachable
  exact ⟨_, path.step edge⟩

theorem Path.isReachable (path : g.Path g.entry last nodes) (member : node ∈ nodes) : g.IsReachable node := by
  obtain ⟨part, here, -⟩ := path.upTo member
  exact ⟨part, here⟩

theorem IsReachable.induction {inside : g.Node → Prop} (reachable : g.IsReachable node) (first : inside g.entry)
    (closed : ∀ node, inside node → ∀ next ∈ g.succs node, inside next) : inside node := by
  obtain ⟨nodes, path⟩ := reachable
  induction path with
  | single => exact first
  | step _ edge ih => exact closed _ ih _ edge

theorem mem_distinctSuccs {next : g.Node} : next ∈ g.distinctSuccs node ↔ next ∈ g.succs node :=
  List.mem_eraseDups

/-- A walk stays within a set of nodes that no edge leads out of. -/
theorem walk_closed {inside : g.Node → Prop}
    (closed : ∀ node, inside node → ∀ next ∈ g.succs node, inside next) {fuel : Nat} {found visited : List g.Node}
    (start : ∀ node ∈ found, inside node) (before : ∀ node ∈ visited, inside node) :
    ∀ node ∈ g.walk fuel found visited, inside node := by
  induction fuel generalizing found visited with
  | zero => exact before
  | succ fuel ih =>
    cases found with
    | nil => exact before
    | cons node rest =>
      have others : ∀ other ∈ rest, inside other := fun other member => start other (List.mem_cons_of_mem _ member)
      have here := start node List.mem_cons_self
      unfold walk
      split
      · exact ih others before
      · apply ih
        · intro next member
          rcases List.mem_append.mp member with fresh | old
          · have succ := List.mem_of_mem_filter (List.mem_reverse.mp fresh)
            exact closed node here next (mem_distinctSuccs.mp succ)
          · exact others next old
        · intro other member
          rcases List.mem_cons.mp member with rfl | old
          · exact here
          · exact before other old

/-- The edges out of the nodes that have not been visited. -/
def pending (g : FlowGraph) (visited : List g.Node) : Nat :=
  ∑ node with node ∉ visited, (g.succs node).length

theorem pending_nil (g : FlowGraph) : g.pending [] = g.size := by
  simp [pending, size, nodes, Fin.sum_univ_def]

theorem pending_of_notMem {visited : List g.Node} (unvisited : node ∉ visited) :
    g.pending visited = (g.succs node).length + g.pending (node :: visited) := by
  have apart : (Finset.univ.filter (· ∉ node :: visited)) = (Finset.univ.filter (· ∉ visited)).erase node := by
    ext other
    simp
  rw [pending, pending, apart]
  exact (Finset.add_sum_erase _ _ (by simpa using unvisited)).symm

/-- What a walk with enough fuel finds: a set of nodes that no edge leads out of, each node once. -/
theorem walk_complete {fuel : Nat} {found visited : List g.Node}
    (enough : found.length + g.pending visited ≤ fuel)
    (closed : ∀ node ∈ visited, ∀ next ∈ g.succs node, next ∈ visited ∨ next ∈ found) (nodup : visited.Nodup) :
    (g.walk fuel found visited).Nodup ∧ visited ++ found ⊆ g.walk fuel found visited ∧
      ∀ node ∈ g.walk fuel found visited, ∀ next ∈ g.succs node, next ∈ g.walk fuel found visited := by
  induction fuel generalizing found visited with
  | zero =>
    have none : found = [] := List.eq_nil_of_length_eq_zero (by omega)
    subst none
    refine ⟨nodup, by simp [walk], fun node member next edge => ?_⟩
    exact (closed node member next edge).resolve_right List.not_mem_nil
  | succ fuel ih =>
    cases found with
    | nil =>
      refine ⟨nodup, by simp [walk], fun node member next edge => ?_⟩
      exact (closed node member next edge).resolve_right List.not_mem_nil
    | cons node rest =>
      simp only [List.length_cons] at enough
      unfold walk
      split
      · next again =>
        have closed' : ∀ other ∈ visited, ∀ next ∈ g.succs other, next ∈ visited ∨ next ∈ rest := by
          intro other member next edge
          rcases closed other member next edge with old | here
          · exact .inl old
          · rcases List.mem_cons.mp here with rfl | there
            · exact .inl again
            · exact .inr there
        obtain ⟨once, within, done⟩ := ih (by omega) closed' nodup
        refine ⟨once, fun other member => within ?_, done⟩
        rcases List.mem_append.mp member with old | here
        · exact List.mem_append_left _ old
        · rcases List.mem_cons.mp here with rfl | there
          · exact List.mem_append_left _ again
          · exact List.mem_append_right _ there
      · next first =>
        -- the edges out of `node` are no longer pending, and pay for the nodes found
        have counted := pending_of_notMem first
        have fresh : ((g.distinctSuccs node).filter (· ∉ node :: visited)).length ≤ (g.succs node).length :=
          (List.length_filter_le _ _).trans (eraseDups_sublist _).length_le
        have closed' : ∀ other ∈ node :: visited, ∀ next ∈ g.succs other, next ∈ node :: visited ∨
            next ∈ ((g.distinctSuccs node).filter (· ∉ node :: visited)).reverse ++ rest := by
          intro other member next edge
          by_cases old : next ∈ node :: visited
          · exact .inl old
          · rcases List.mem_cons.mp member with rfl | earlier
            · right
              apply List.mem_append_left
              rw [List.mem_reverse, List.mem_filter]
              exact ⟨mem_distinctSuccs.mpr edge, by simpa using old⟩
            · rcases closed other earlier next edge with seen | here
              · exact absurd (List.mem_cons_of_mem _ seen) old
              · rcases List.mem_cons.mp here with rfl | there
                · exact absurd List.mem_cons_self old
                · exact .inr (List.mem_append_right _ there)
        obtain ⟨once, within, done⟩ := ih (by simp only [List.length_append, List.length_reverse]; omega) closed'
          (List.nodup_cons.mpr ⟨first, nodup⟩)
        refine ⟨once, fun other member => within ?_, done⟩
        rcases List.mem_append.mp member with old | here
        · exact List.mem_append_left _ (List.mem_cons_of_mem _ old)
        · rcases List.mem_cons.mp here with rfl | there
          · exact List.mem_append_left _ List.mem_cons_self
          · exact List.mem_append_right _ (List.mem_append_right _ there)

theorem mem_visitOrder : node ∈ g.visitOrder ↔ g.IsReachable node := by
  have enough : [g.entry].length + g.pending [] ≤ g.size + 1 := by
    rw [pending_nil, List.length_singleton]
    omega
  obtain ⟨-, within, closed⟩ := walk_complete enough nofun List.nodup_nil
  rw [visitOrder, List.mem_reverse]
  constructor
  · refine walk_closed (fun _ reachable _ edge => reachable.step edge) (fun first member => ?_) nofun node
    rw [List.mem_singleton.mp member]
    exact entry_isReachable g
  · intro reachable
    exact reachable.induction (within (by simp)) closed

theorem visitOrder_nodup (g : FlowGraph) : g.visitOrder.Nodup := by
  have enough : [g.entry].length + g.pending [] ≤ g.size + 1 := by
    rw [pending_nil, List.length_singleton]
    omega
  exact List.nodup_reverse.mpr (walk_complete enough nofun List.nodup_nil).1

theorem explore_contains : g.explore.contains node = true ↔ g.IsReachable node := by
  rw [Reachable.contains, List.contains_iff_mem]
  exact mem_visitOrder

theorem mem_explore_preds (reachable : g.IsReachable node) {pred : g.Node} :
    pred ∈ g.explore.preds node ↔ g.IsReachable pred ∧ node ∈ g.succs pred := by
  have row : g.explore.preds node = g.visitOrder.filter fun source => node ∈ g.distinctSuccs source := by
    rw [Reachable.preds, Reachable.preds?, if_pos (explore_contains.mpr reachable)]
    simp [explore]
  rw [row, List.mem_filter, mem_visitOrder, decide_eq_true_eq, mem_distinctSuccs]

end FlowGraph

end RegisterAllocator
