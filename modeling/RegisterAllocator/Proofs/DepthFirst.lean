import RegisterAllocator.Graph.DepthFirst
import RegisterAllocator.Proofs.Reachability

/-!
# The order of a depth-first search

A depth-first search leaves every reachable node once (`mem_postorder`, `postorder_nodup`), the entry last
(`rpo_head`), and every other node before some node with an edge to it (`exists_later_pred`). All this is read off what
holds between two events (`Search.Traced`): the nodes left so far, followed by those that the stack still leaves, are
the nodes entered.
-/

namespace RegisterAllocator.FlowGraph

variable {g : FlowGraph}

namespace Search

variable {stack : List (Event × g.Node)} {entered left : List g.Node} {node : g.Node}

def leaving (events : List (Event × g.Node)) : List g.Node :=
  events.filterMap fun (event, node) => if event = .leave then some node else none

@[simp]
theorem leaving_nil : leaving ([] : List (Event × g.Node)) = [] := rfl

@[simp]
theorem leaving_leave : leaving ((.leave, node) :: stack) = node :: leaving stack := rfl

@[simp]
theorem leaving_enter : leaving ((.enter, node) :: stack) = leaving stack := rfl

theorem leaving_entries (nodes : List g.Node) : leaving (nodes.map (.enter, ·) ++ stack) = leaving stack := by
  induction nodes with
  | nil => rfl
  | cons node rest ih => exact ih

/-- What holds of a search between two events, after it has left the nodes `left`. -/
structure Traced (stack : List (Event × g.Node)) (entered left : List g.Node) : Prop where
  nodup : entered.Nodup
  split : entered.Perm (left ++ leaving stack)
  first : g.entry ∈ entered
  reachable : ∀ node ∈ entered, g.IsReachable node
  /-- A node waits to be entered above a node with an edge to it. -/
  waiting : ∀ above node below, stack = above ++ (.enter, node) :: below → ∃ pred ∈ leaving below, node ∈ g.succs pred
  closed : ∀ node ∈ entered, ∀ next ∈ g.succs node, next ∈ entered ∨ (.enter, next) ∈ stack
  /-- An edge leads to every node but the entry from a node that is left later. -/
  edge : ∀ node ∈ entered, node ≠ g.entry →
    ∃ pred, node ∈ g.succs pred ∧ [node, pred].Sublist (left ++ leaving stack)

namespace Traced

theorem start (g : FlowGraph) : Traced
    (((g.succs g.entry).filter (· ∉ [g.entry])).map (.enter, ·) ++ [(.leave, g.entry)]) [g.entry] [] where
  nodup := List.nodup_singleton _
  split := by simp [leaving_entries]
  first := List.mem_singleton_self _
  reachable node member := by
    rw [List.mem_singleton.mp member]
    exact entry_isReachable g
  waiting above node below cut := by
    -- the stack ends in leaving the entry, so that is still below
    rcases List.append_eq_append_iff.mp cut with ⟨more, rfl, rest⟩ | ⟨more, entries, rest⟩
    · cases more with
      | nil => cases rest
      | cons _ more => simp at rest
    · cases more with
      | nil => cases rest
      | cons event more =>
        obtain ⟨rfl, rfl⟩ := List.cons_eq_cons.mp rest
        have entry : (Event.enter, node) ∈ ((g.succs g.entry).filter (· ∉ [g.entry])).map (Event.enter, ·) := by
          rw [entries]
          simp
        obtain ⟨_, member, same⟩ := List.mem_map.mp entry
        cases same
        refine ⟨g.entry, ?_, List.mem_of_mem_filter member⟩
        simp [leaving]
  closed node member next edge := by
    rw [List.mem_singleton.mp member] at edge
    by_cases again : next ∈ [g.entry]
    · exact .inl again
    · right
      apply List.mem_append_left
      apply List.mem_map_of_mem
      rw [List.mem_filter]
      exact ⟨edge, by simpa using again⟩
  edge node member other := absurd (List.mem_singleton.mp member) other

theorem skip (traced : Traced ((.enter, node) :: stack) entered left) (again : node ∈ entered) :
    Traced stack entered left where
  nodup := traced.nodup
  split := traced.split
  first := traced.first
  reachable := traced.reachable
  waiting above other below cut := traced.waiting ((.enter, node) :: above) other below (by rw [cut]; rfl)
  closed other member next edge := by
    rcases traced.closed other member next edge with old | waits
    · exact .inl old
    · rcases List.mem_cons.mp waits with top | deeper
      · cases top
        exact .inl again
      · exact .inr deeper
  edge := traced.edge

theorem leave (traced : Traced ((.leave, node) :: stack) entered left) : Traced stack entered (left ++ [node]) where
  nodup := traced.nodup
  split := by simpa using traced.split
  first := traced.first
  reachable := traced.reachable
  waiting above other below cut := traced.waiting ((.leave, node) :: above) other below (by rw [cut]; rfl)
  closed other member next edge := by
    rcases traced.closed other member next edge with old | waits
    · exact .inl old
    · rcases List.mem_cons.mp waits with top | deeper
      · cases top
      · exact .inr deeper
  edge := by simpa using traced.edge

theorem enter (traced : Traced ((.enter, node) :: stack) entered left) (fresh : node ∉ entered) :
    Traced (((g.succs node).filter (· ∉ node :: entered)).map (.enter, ·) ++ (.leave, node) :: stack)
      (node :: entered) left := by
  obtain ⟨pred, below, pushed⟩ := traced.waiting [] node stack rfl
  have later : leaving (((g.succs node).filter (· ∉ node :: entered)).map (.enter, ·) ++ (.leave, node) :: stack) =
      node :: leaving stack := leaving_entries _
  have split : entered.Perm (left ++ leaving stack) := traced.split
  have longer : (left ++ leaving stack).Sublist (left ++ node :: leaving stack) :=
    List.Sublist.append_left (List.sublist_cons_self _ _) _
  refine ⟨List.nodup_cons.mpr ⟨fresh, traced.nodup⟩, ?_, List.mem_cons_of_mem _ traced.first, ?_, ?_, ?_, ?_⟩
  · rw [later]
    exact (split.cons node).trans List.perm_middle.symm
  · intro other member
    rcases List.mem_cons.mp member with rfl | old
    · have active : pred ∈ entered := split.mem_iff.mpr (List.mem_append_right _ below)
      exact (traced.reachable pred active).step pushed
    · exact traced.reachable other old
  · intro above other rest cut
    rcases List.append_eq_append_iff.mp cut with ⟨more, rfl, deeper⟩ | ⟨more, entries, deeper⟩
    · cases more with
      | nil => cases deeper
      | cons event more =>
        obtain ⟨-, deeper⟩ := List.cons_eq_cons.mp deeper
        exact traced.waiting ((.enter, node) :: more) other rest (by rw [deeper]; rfl)
    · cases more with
      | nil => cases deeper
      | cons event more =>
        obtain ⟨rfl, rfl⟩ := List.cons_eq_cons.mp deeper
        have entry : (Event.enter, other) ∈ ((g.succs node).filter (· ∉ node :: entered)).map (Event.enter, ·) := by
          rw [entries]
          simp
        obtain ⟨_, member, same⟩ := List.mem_map.mp entry
        cases same
        refine ⟨node, ?_, List.mem_of_mem_filter member⟩
        simp [leaving]
  · intro other member next edge
    by_cases seen : next ∈ node :: entered
    · exact .inl seen
    · right
      rcases List.mem_cons.mp member with rfl | old
      · apply List.mem_append_left
        apply List.mem_map_of_mem
        rw [List.mem_filter]
        exact ⟨edge, by simpa using seen⟩
      · rcases traced.closed other old next edge with entered | waits
        · exact absurd (List.mem_cons_of_mem _ entered) seen
        · rcases List.mem_cons.mp waits with top | deeper
          · cases top
            exact absurd List.mem_cons_self seen
          · exact List.mem_append_right _ (List.mem_cons_of_mem _ deeper)
  · intro other member notEntry
    rw [later]
    rcases List.mem_cons.mp member with rfl | old
    · -- what waited below to be left is left after the node that is entered now
      refine ⟨pred, pushed, ?_⟩
      have order : [other, pred].Sublist (other :: leaving stack) :=
        (List.singleton_sublist.mpr below).cons_cons other
      exact order.trans (List.sublist_append_right _ _)
    · obtain ⟨before, edge, order⟩ := traced.edge other old notEntry
      exact ⟨before, edge, order.trans longer⟩

/-- One event: what holds before it holds after it, and one more node is entered or left. -/
theorem next {event : Event × g.Node} {rest : Search g} (traced : Traced stack entered left)
    (taken : nextEvent entered stack = some (event, rest)) :
    Traced rest.stack rest.entered (left ++ leaving [event]) ∧
      rest.entered.length + (left ++ leaving [event]).length = entered.length + left.length + 1 := by
  induction stack with
  | nil => cases taken
  | cons top stack ih =>
    obtain ⟨kind, node⟩ := top
    cases kind with
    | leave =>
      cases taken
      exact ⟨traced.leave, by simp; omega⟩
    | enter =>
      unfold nextEvent at taken
      split at taken
      · next again => exact ih (traced.skip again) taken
      · next fresh =>
        cases taken
        refine ⟨?_, by simp; omega⟩
        simpa using traced.enter fresh

/-- A search is at its end when only entered nodes wait, and then nothing waits. -/
theorem stack_eq_nil (traced : Traced stack entered left) (ended : leaving stack = []) : stack = [] := by
  cases stack with
  | nil => rfl
  | cons top stack =>
    obtain ⟨kind, node⟩ := top
    cases kind with
    | leave => cases ended
    | enter =>
      obtain ⟨pred, below, -⟩ := traced.waiting [] node stack rfl
      rw [leaving_enter] at ended
      rw [ended] at below
      cases below

theorem leaving_of_nextEvent (ended : nextEvent entered stack = none) : leaving stack = [] := by
  induction stack with
  | nil => rfl
  | cons top stack ih =>
    obtain ⟨kind, node⟩ := top
    cases kind with
    | leave => cases ended
    | enter =>
      unfold nextEvent at ended
      split at ended
      · exact ih ended
      · cases ended

theorem take {fuel : Nat} (traced : Traced stack entered left)
    (enough : 2 * g.order ≤ entered.length + left.length + fuel) :
    ∃ all, Traced (g := g) [] all (left ++ leaving (Search.take fuel { stack, entered })) := by
  induction fuel generalizing stack entered left with
  | zero =>
    -- all nodes are entered and left, so none waits to be left
    have bound : entered.length ≤ g.order := by
      simpa using traced.nodup.length_le_card
    have count := traced.split.length_eq
    rw [List.length_append] at count
    have ended := traced.stack_eq_nil (List.eq_nil_of_length_eq_zero (by omega))
    subst ended
    exact ⟨entered, by simpa [Search.take] using traced⟩
  | succ fuel ih =>
    cases taken : nextEvent entered stack with
    | none =>
      have ended := traced.stack_eq_nil (leaving_of_nextEvent taken)
      subst ended
      exact ⟨entered, by simpa [Search.take, Search.next, taken] using traced⟩
    | some step =>
      obtain ⟨event, rest⟩ := step
      obtain ⟨after, counted⟩ := traced.next taken
      obtain ⟨all, final⟩ := ih after (by omega)
      refine ⟨all, ?_⟩
      have unrolled : leaving (Search.take (fuel + 1) { stack, entered }) =
          leaving [event] ++ leaving (Search.take fuel rest) := by
        rw [Search.take, Search.next, taken]
        exact List.filterMap_append (l := [event])
      rw [unrolled, ← List.append_assoc]
      exact final

end Traced

end Search

open Search

theorem postorder_traced (g : FlowGraph) : ∃ all, Traced (g := g) [] all g.postorder := by
  obtain ⟨fuel, enough⟩ : ∃ fuel, 2 * g.order = fuel + 1 := ⟨2 * g.order - 1, by have := g.entry.isLt; omega⟩
  have room : 2 * g.order ≤ [g.entry].length + ([] : List g.Node).length + fuel := by
    simp
    omega
  obtain ⟨all, final⟩ := (Traced.start g).take room
  have first : g.postorder = leaving (Search.take (2 * g.order) (Search.restart {})) := rfl
  refine ⟨all, ?_⟩
  rw [first, enough]
  exact final

theorem postorder_nodup (g : FlowGraph) : g.postorder.Nodup := by
  obtain ⟨all, final⟩ := g.postorder_traced
  have split := final.split
  rw [leaving_nil, List.append_nil] at split
  exact split.nodup_iff.mp final.nodup

theorem mem_postorder {node : g.Node} : node ∈ g.postorder ↔ g.IsReachable node := by
  obtain ⟨all, final⟩ := g.postorder_traced
  have split := final.split
  rw [leaving_nil, List.append_nil] at split
  rw [← split.mem_iff]
  constructor
  · exact final.reachable node
  · intro reachable
    refine reachable.induction final.first fun before member next edge => ?_
    exact (final.closed before member next edge).resolve_right List.not_mem_nil

/-- How early a depth-first search leaves a node. -/
def rank (g : FlowGraph) (node : g.Node) : Nat := g.postorder.idxOf node

theorem rank_injective {a b : g.Node} (reachable : g.IsReachable a) (same : g.rank a = g.rank b) : a = b :=
  (List.idxOf_inj (mem_postorder.mpr reachable)).mp same

theorem rank_lt (node : g.Node) (reachable : g.IsReachable node) : g.rank node < g.order := by
  have bound : g.postorder.length ≤ g.order := by
    simpa using g.postorder_nodup.length_le_card
  exact Nat.lt_of_lt_of_le (List.idxOf_lt_length_of_mem (mem_postorder.mpr reachable)) bound

theorem exists_later_pred {node : g.Node} (reachable : g.IsReachable node) (other : node ≠ g.entry) :
    ∃ pred, g.IsReachable pred ∧ node ∈ g.succs pred ∧ g.rank node < g.rank pred := by
  obtain ⟨all, final⟩ := g.postorder_traced
  have split := final.split
  rw [leaving_nil, List.append_nil] at split
  obtain ⟨pred, edge, order⟩ :=
    final.edge node (split.mem_iff.mpr (mem_postorder.mpr reachable)) other
  rw [leaving_nil, List.append_nil] at order
  -- the nodes left split into those up to `node` and those from `pred` on
  obtain ⟨before, after, cut, early, late⟩ := List.cons_sublist_iff.mp order
  have late := List.singleton_sublist.mp late
  have nodup := g.postorder_nodup
  rw [cut] at nodup
  have apart : pred ∉ before := fun member => (List.disjoint_of_nodup_append nodup) member late
  have left : pred ∈ g.postorder := cut ▸ List.mem_append_right _ late
  refine ⟨pred, mem_postorder.mp left, edge, ?_⟩
  rw [rank, rank, cut, List.idxOf_append_of_mem early, List.idxOf_append_of_notMem apart]
  exact Nat.lt_add_right _ (List.idxOf_lt_length_of_mem early)

theorem rank_lt_of_mem {node later : g.Node} {before after : List g.Node}
    (cut : g.postorder.reverse = before ++ node :: after) (member : later ∈ before) : g.rank node < g.rank later := by
  have whole : g.postorder = after.reverse ++ node :: before.reverse := by
    rw [← List.reverse_reverse g.postorder, cut]
    simp
  have nodup := g.postorder_nodup
  rw [whole] at nodup
  have apart := List.disjoint_of_nodup_append nodup
  have fresh : later ∉ after.reverse := fun early => apart early (by simp [member])
  have other : node ≠ later := by
    rintro rfl
    exact (List.nodup_cons.mp nodup.of_append_right).1 (List.mem_reverse.mpr member)
  rw [rank, rank, whole, List.idxOf_append_of_notMem fresh,
    List.idxOf_append_of_notMem fun early => apart early (by simp), List.idxOf_cons_self, List.idxOf_cons_ne _ other]
  omega

theorem mem_of_rank_lt {node later : g.Node} {before after : List g.Node}
    (cut : g.postorder.reverse = before ++ node :: after) (reachable : g.IsReachable later)
    (order : g.rank node < g.rank later) : later ∈ before := by
  have member : later ∈ before ++ node :: after := by
    rw [← cut, List.mem_reverse, mem_postorder]
    exact reachable
  rcases List.mem_append.mp member with early | late
  · exact early
  · rcases List.mem_cons.mp late with rfl | late
    · exact absurd order (Nat.lt_irrefl _)
    · obtain ⟨between, rest, split⟩ := List.append_of_mem late
      have cut' : g.postorder.reverse = (before ++ node :: between) ++ later :: rest := by
        rw [cut, split]
        simp
      exact absurd order (Nat.lt_asymm (rank_lt_of_mem cut' (by simp)))

theorem rpo_eq_cons (g : FlowGraph) : ∃ rest, g.postorder.reverse = g.entry :: rest := by
  cases order : g.postorder.reverse with
  | nil =>
    have member := List.mem_reverse.mpr (mem_postorder.mpr (entry_isReachable g))
    rw [order] at member
    cases member
  | cons first rest =>
    by_cases entry : first = g.entry
    · exact ⟨rest, by rw [entry]⟩
    · have reachable : g.IsReachable first := mem_postorder.mp (List.mem_reverse.mp (order ▸ List.mem_cons_self))
      obtain ⟨pred, found, -, later⟩ := exists_later_pred reachable entry
      rw [← List.nil_append (first :: rest)] at order
      exact absurd (mem_of_rank_lt order found later) List.not_mem_nil

theorem rpo_eq (g : FlowGraph) : g.postorder.reverse = g.entry :: g.postorder.reverse.tail := by
  obtain ⟨rest, cut⟩ := g.rpo_eq_cons
  rw [cut, List.tail_cons]

theorem mem_rpo_tail {node : g.Node} : node ∈ g.postorder.reverse.tail ↔ g.IsReachable node ∧ node ≠ g.entry := by
  have nodup := List.nodup_reverse.mpr g.postorder_nodup
  have reachable : g.IsReachable node ↔ node ∈ g.postorder.reverse := by
    rw [List.mem_reverse, mem_postorder]
  rw [g.rpo_eq] at nodup reachable
  rw [reachable, List.mem_cons]
  constructor
  · intro member
    refine ⟨.inr member, ?_⟩
    rintro rfl
    exact (List.nodup_cons.mp nodup).1 member
  · rintro ⟨member, notEntry⟩
    exact member.resolve_left notEntry

end RegisterAllocator.FlowGraph
