import RegisterAllocator.Proofs.Dominators

/-!
# Depth-first search by recursion

A depth-first search can be written with recursion instead of a stack (`FlowGraph.visit`). The search with a stack makes
the same events (`Search.events_eq`): what it still has to do is, at every moment, what recursion makes of its stack
(`Search.resume_eq`), since a node that waits on the stack more than once is passed over from the second time on. All
that is known of the events then follows the recursion.
-/

namespace RegisterAllocator.FlowGraph

variable {g : FlowGraph}

/-! ## The recursive search -/

def missing (g : FlowGraph) (visited : List g.Node) : Nat := (g.nodes.filter (· ∉ visited)).length

variable {visited nodes : List g.Node} {node : g.Node}

theorem missing_le {after : List g.Node} (grown : visited ⊆ after) : g.missing after ≤ g.missing visited := by
  apply List.Sublist.length_le
  apply List.monotone_filter_right
  intro node
  simpa using fun absent member => absent (grown member)

theorem missing_cons_lt (fresh : node ∉ visited) : g.missing (node :: visited) < g.missing visited := by
  have split : g.nodes.filter (· ∉ node :: visited) = (g.nodes.filter (· ∉ visited)).filter (· ≠ node) := by
    rw [List.filter_filter]
    exact List.filter_congr fun other _ => by simp
  rw [missing, missing, split]
  apply List.length_filter_lt_length_iff_exists.mpr
  exact ⟨node, by simp [FlowGraph.nodes, fresh], by simp⟩

/-- What a search does after the nodes `visited`: its events, and the nodes visited when it is done. -/
structure Visit (g : FlowGraph) (visited : List g.Node) where
  events : List (Event × g.Node)
  after : List g.Node
  grown : visited ⊆ after

/-- One node and then others: `inner` between entering and leaving the node, `later` behind that. -/
def Visit.around (inner : Visit g (node :: visited)) (later : Visit g inner.after) : Visit g visited where
  events := (.enter, node) :: (inner.events ++ (.leave, node) :: later.events)
  after := later.after
  grown _ member := later.grown (inner.grown (List.mem_cons_of_mem _ member))

/-- The recursive search: the nodes in order, each unless it has been visited, and between entering and leaving a node
its successors. -/
def visit (g : FlowGraph) (visited : List g.Node) : List g.Node → Visit g visited
  | [] => { events := [], after := visited, grown := List.Subset.refl _ }
  | node :: rest =>
    if node ∈ visited then g.visit visited rest
    else
      let inner := g.visit (node :: visited) (g.succs node)
      inner.around (g.visit inner.after rest)
termination_by nodes => (g.missing visited, nodes.length)
decreasing_by
  · exact Prod.Lex.right _ (Nat.lt_succ_self _)
  · exact Prod.Lex.left _ _ (missing_cons_lt ‹_›)
  · exact Prod.Lex.left _ _ (Nat.lt_of_le_of_lt (missing_le inner.grown) (missing_cons_lt ‹_›))

theorem visit_nil (visited : List g.Node) : g.visit visited [] = ⟨[], visited, List.Subset.refl _⟩ := by
  rw [visit]

theorem visit_again (again : node ∈ visited) (rest : List g.Node) :
    g.visit visited (node :: rest) = g.visit visited rest := by
  rw [visit, if_pos again]

theorem visit_fresh (fresh : node ∉ visited) (rest : List g.Node) :
    let inner := g.visit (node :: visited) (g.succs node)
    g.visit visited (node :: rest) = inner.around (g.visit inner.after rest) := by
  rw [visit, if_neg fresh]

theorem visit_filter {before : List g.Node} (started : before ⊆ visited) (nodes : List g.Node) :
    g.visit visited (nodes.filter (· ∉ before)) = g.visit visited nodes := by
  fun_induction visit g visited nodes with
  | case1 visited => rw [List.filter_nil, visit]
  | case2 visited node rest again ih =>
    rw [← ih started, List.filter_cons]
    split
    · exact visit_again again _
    · rfl
  | case3 visited node rest fresh inner _ ih =>
    have kept : node ∉ before := fun old => fresh (started old)
    have same := ih fun _ old => inner.grown (List.mem_cons_of_mem _ (started old))
    rw [List.filter_cons_of_pos (by simpa using kept), visit_fresh fresh, same]

namespace Search

variable {entered : List g.Node}

/-- The events that a search with recursion still makes of a stack. -/
def resume (entered : List g.Node) : List (Event × g.Node) → List (Event × g.Node)
  | [] => []
  | (.leave, node) :: stack => (.leave, node) :: resume entered stack
  | (.enter, node) :: stack =>
    let visit := g.visit entered [node]
    visit.events ++ resume visit.after stack

theorem resume_entries (entered nodes : List g.Node) (stack : List (Event × g.Node)) :
    resume entered (nodes.map (.enter, ·) ++ stack) =
      (g.visit entered nodes).events ++ resume (g.visit entered nodes).after stack := by
  induction nodes generalizing entered with
  | nil => rw [visit_nil]; rfl
  | cons node rest ih =>
    rw [List.map_cons, List.cons_append, resume, ih]
    by_cases again : node ∈ entered
    · rw [visit_again again, visit_again again, visit_nil]
      rfl
    · have single : (g.visit entered [node]).after = (g.visit (node :: entered) (g.succs node)).after := by
        rw [visit_fresh again, visit_nil]
        rfl
      rw [single, visit_fresh again, visit_fresh again, visit_nil]
      simp [Visit.around]

/-- Entering a node leaves the recursive search of its successors to do, whichever of them are on the stack already. -/
theorem resume_enter (fresh : node ∉ entered) (stack : List (Event × g.Node)) :
    resume entered ((.enter, node) :: stack) = (.enter, node) :: resume (node :: entered)
      (((g.succs node).filter (· ∉ node :: entered)).map (.enter, ·) ++ (.leave, node) :: stack) := by
  rw [resume_entries, visit_filter (List.Subset.refl _), resume, resume]
  simp [visit_fresh fresh, visit_nil, Visit.around]

theorem resume_again (again : node ∈ entered) (stack : List (Event × g.Node)) :
    resume entered ((.enter, node) :: stack) = resume entered stack := by
  rw [resume, visit_again again, visit_nil]
  rfl

/-- One event of a search is the first that the recursive search makes of its stack. -/
theorem resume_eq (entered : List g.Node) (stack : List (Event × g.Node)) : resume entered stack =
    match nextEvent entered stack with
    | none => []
    | some (event, rest) => event :: resume rest.entered rest.stack := by
  induction stack with
  | nil => rfl
  | cons top stack ih =>
    obtain ⟨kind, node⟩ := top
    cases kind with
    | leave => rfl
    | enter =>
      by_cases again : node ∈ entered
      · rw [resume_again again, nextEvent, if_pos again, ih]
      · rw [resume_enter again, nextEvent, if_neg again]

theorem take_eq (fuel : Nat) (s : Search g) : take fuel s = (resume s.entered s.stack).take fuel := by
  induction fuel generalizing s with
  | zero => rfl
  | succ fuel ih =>
    rw [take, next, resume_eq]
    cases nextEvent s.entered s.stack with
    | none => rfl
    | some step => exact congrArg (step.1 :: ·) (ih step.2)

theorem resume_drop (count : Nat) (s : Search g) :
    resume (drop count s).entered (drop count s).stack = (resume s.entered s.stack).drop count := by
  induction count generalizing s with
  | zero => rfl
  | succ count ih =>
    have unrolled := resume_eq s.entered s.stack
    rw [drop, next]
    cases taken : nextEvent s.entered s.stack with
    | none =>
      rw [taken] at unrolled
      simp only [unrolled, List.drop_nil]
    | some step =>
      rw [taken] at unrolled
      simp only [unrolled, List.drop_succ_cons]
      exact ih step.2

end Search

/-! ## What the recursive search does -/

/-- Events of which each leaves the node that was entered last and not left yet. -/
inductive Nested : List (Event × g.Node) → Prop
  | nil : Nested []
  | wrap {node : g.Node} {inner later : List (Event × g.Node)} (inside : Nested inner) (behind : Nested later) :
      Nested ((.enter, node) :: (inner ++ (.leave, node) :: later))

theorem visit_nested (visited nodes : List g.Node) : Nested (g.visit visited nodes).events := by
  fun_induction visit g visited nodes with
  | case1 visited => exact .nil
  | case2 visited node rest again ih => exact ih
  | case3 visited node rest fresh inner inside behind => exact .wrap inside behind

theorem mem_visit_after (listed : node ∈ nodes) : node ∈ (g.visit visited nodes).after := by
  fun_induction visit g visited nodes with
  | case1 visited => cases listed
  | case2 visited first rest again ih =>
    rcases List.mem_cons.mp listed with rfl | later
    · exact (g.visit visited rest).grown again
    · exact ih later
  | case3 visited first rest fresh inner _ ih =>
    rcases List.mem_cons.mp listed with rfl | later
    · exact (g.visit inner.after rest).grown (inner.grown List.mem_cons_self)
    · exact ih later

theorem mem_visit_events {kind : Event} : (kind, node) ∈ (g.visit visited nodes).events ↔
    node ∈ (g.visit visited nodes).after ∧ node ∉ visited := by
  fun_induction visit g visited nodes with
  | case1 visited => simp
  | case2 visited other rest again ih => exact ih
  | case3 visited other rest fresh inner inside behind =>
    have early : node ∈ inner.after → node ∈ (g.visit inner.after rest).after := fun member =>
      (g.visit inner.after rest).grown member
    have first : other ∈ inner.after := inner.grown List.mem_cons_self
    have whole : (kind, node) ∈ (inner.around (g.visit inner.after rest)).events ↔
        node = other ∨ (kind, node) ∈ inner.events ∨ (kind, node) ∈ (g.visit inner.after rest).events := by
      cases kind <;> simp [Visit.around, or_left_comm]
    have old : node ∈ visited → node ∈ inner.after := fun member => inner.grown (List.mem_cons_of_mem _ member)
    rw [whole, inside, behind, List.mem_cons, Visit.around]
    constructor
    · rintro (rfl | ⟨here, outside⟩ | ⟨here, outside⟩)
      · exact ⟨early first, fresh⟩
      · exact ⟨early here, fun member => outside (.inr member)⟩
      · exact ⟨here, fun member => outside (old member)⟩
    · rintro ⟨here, outside⟩
      by_cases same : node = other
      · exact .inl same
      · by_cases within : node ∈ inner.after
        · exact .inr (.inl ⟨within, fun member => member.elim same outside⟩)
        · exact .inr (.inr ⟨here, within⟩)

theorem visit_events_nodup (visited nodes : List g.Node) : (g.visit visited nodes).events.Nodup := by
  fun_induction visit g visited nodes with
  | case1 visited => exact List.nodup_nil
  | case2 visited node rest again ih => exact ih
  | case3 visited node rest fresh inner inside behind =>
    have first : node ∈ inner.after := inner.grown List.mem_cons_self
    have notInside (kind : Event) : (kind, node) ∉ inner.events := fun member =>
      (mem_visit_events.mp member).2 List.mem_cons_self
    have notBehind (kind : Event) : (kind, node) ∉ (g.visit inner.after rest).events := fun member =>
      (mem_visit_events.mp member).2 first
    refine List.nodup_cons.mpr ⟨?_, inside.append (List.nodup_cons.mpr ⟨notBehind _, behind⟩) ?_⟩
    · simp [notInside, notBehind]
    · rintro ⟨kind, other⟩ member later
      rcases List.mem_cons.mp later with same | later
      · cases same
        exact notInside _ member
      · exact (mem_visit_events.mp later).2 (mem_visit_events.mp member).1

theorem length_visit_events (visited nodes : List g.Node) : (g.visit visited nodes).events.length ≤ 2 * g.order := by
  have all : (g.visit visited nodes).events ⊆ g.nodes.flatMap fun node => [(.enter, node), (.leave, node)] := by
    rintro ⟨kind, node⟩ -
    cases kind <;> simp [FlowGraph.nodes]
  have bound := (List.subperm_of_subset (visit_events_nodup visited nodes) all).length_le
  simpa [FlowGraph.nodes, List.length_flatMap, Nat.mul_comm] using bound

/-- How a search goes along an edge from `node` to `next`: it leaves `next` before `node`, or they are the same, or it
goes back to a node that it has entered and not left. -/
def Follows (events : List (Event × g.Node)) (node next : g.Node) : Prop :=
  [(Event.leave, next), (Event.leave, node)].Sublist events ∨ next = node ∨
    [(Event.enter, next), (Event.enter, node)].Sublist events ∧
      [(Event.leave, node), (Event.leave, next)].Sublist events

theorem Follows.mono {events events' : List (Event × g.Node)} {next : g.Node} (follows : Follows events node next)
    (within : events.Sublist events') : Follows events' node next :=
  follows.imp (·.trans within) (.imp_right fun back => ⟨back.1.trans within, back.2.trans within⟩)

theorem pair_sublist {α : Type} {a b : α} {front back : List α} (first : a ∈ front) (second : b ∈ back) :
    [a, b].Sublist (front ++ back) :=
  (List.singleton_sublist.mpr first).append (List.singleton_sublist.mpr second)

/-- What a search finds at the end of an edge from a node that it enters: a node visited before, or one that it
follows. -/
theorem visit_follows {next : g.Node} (entered : (.enter, node) ∈ (g.visit visited nodes).events)
    (edge : next ∈ g.succs node) : next ∈ visited ∨ Follows (g.visit visited nodes).events node next := by
  fun_induction visit g visited nodes with
  | case1 visited => cases entered
  | case2 visited first rest again ih => exact ih entered
  | case3 visited first rest fresh inner inside behind =>
    have parts : (inner.around (g.visit inner.after rest)).events =
        (.enter, first) :: inner.events ++ (.leave, first) :: (g.visit inner.after rest).events := rfl
    rw [parts] at entered ⊢
    by_cases old : next ∈ visited
    · exact .inl old
    right
    -- a node that the inner search or `first` itself accounts for is left in the first part
    have left (found : next ∈ inner.after) : next = first ∨ (.leave, next) ∈ inner.events := by
      refine or_iff_not_imp_left.mpr fun other => mem_visit_events.mpr ⟨found, ?_⟩
      exact fun member => (List.mem_cons.mp member).elim other old
    rcases List.mem_append.mp entered with early | late
    · rcases List.mem_cons.mp early with same | early
      · cases same
        rcases left (mem_visit_after edge) with same | member
        · exact .inr (.inl same)
        · exact .inl (pair_sublist (List.mem_cons_of_mem _ member) List.mem_cons_self)
      · rcases inside early with before | follows
        · obtain rfl : next = first := (List.mem_cons.mp before).resolve_right old
          have leaves : (.leave, node) ∈ inner.events := mem_visit_events.mpr (mem_visit_events.mp early)
          refine .inr (.inr ⟨?_, pair_sublist (List.mem_cons_of_mem _ leaves) List.mem_cons_self⟩)
          exact (List.singleton_sublist.mpr (List.mem_append_left _ early)).cons_cons _
        · exact follows.mono ((List.sublist_cons_self _ _).trans (List.sublist_append_left _ _))
    · have late := (List.mem_cons.mp late).resolve_left nofun
      rcases behind late with before | follows
      · have leaves : (.leave, node) ∈ (g.visit inner.after rest).events :=
          mem_visit_events.mpr (mem_visit_events.mp late)
        left
        rcases left before with rfl | member
        · have order : [(Event.leave, next), (Event.leave, node)].Sublist
              ((.leave, next) :: (g.visit inner.after rest).events) := (List.singleton_sublist.mpr leaves).cons_cons _
          exact order.trans (List.sublist_append_right _ _)
        · exact pair_sublist (List.mem_cons_of_mem _ member) (List.mem_cons_of_mem _ leaves)
      · exact follows.mono ((List.sublist_cons_self _ _).trans (List.sublist_append_right _ _))

/-! ## The search with a stack -/

namespace Search

theorem events_eq (s : Search g) : s.events = (g.visit [] [g.entry]).events := by
  have whole : resume s.restart.entered s.restart.stack = (g.visit [] [g.entry]).events := List.append_nil _
  rw [events, take_eq, whole]
  exact List.take_of_length_le (length_visit_events _ _)

theorem next_drop_events (s : Search g) : (drop s.events.length s.restart).next = none := by
  have whole : resume s.restart.entered s.restart.stack = (g.visit [] [g.entry]).events := List.append_nil _
  have done := resume_drop s.events.length s.restart
  rw [whole, s.events_eq, List.drop_length, resume_eq] at done
  rw [s.events_eq, next]
  revert done
  cases nextEvent _ _ with
  | none => exact fun _ => rfl
  | some step => exact fun done => absurd done (List.cons_ne_nil _ _)

theorem mem_events (s : Search g) {kind : Event} : (kind, node) ∈ s.events ↔ g.IsReachable node := by
  have leaves : (.leave, node) ∈ s.events ↔ node ∈ g.postorder := by
    change _ ↔ node ∈ s.postorder
    simp [postorder]
  rw [← mem_postorder, ← leaves, s.events_eq, mem_visit_events, mem_visit_events]

/-- The search with a stack, started over after whatever it was doing, makes the events of the recursive search and
comes to its end. So it enters and leaves every reachable node once, its events are nested, and an edge leads to a node
that is left earlier, to the node itself, or back to one that is entered earlier and left later. The entry is left
last. -/
theorem search_recursive (s : Search g) :
    s.events = (g.visit [] [g.entry]).events ∧ (drop s.events.length s.restart).next = none ∧
    (∀ kind node, (g.IsReachable node → s.events.count (kind, node) = 1) ∧
      (¬ g.IsReachable node → s.events.count (kind, node) = 0)) ∧
    Nested s.events ∧
    (∀ node next, g.IsReachable node → next ∈ g.succs node →
      [next, node].Sublist s.postorder ∨ next = node ∨
        [(.enter, next), (.enter, node)].Sublist s.events ∧ [node, next].Sublist s.postorder) ∧
    s.postorder.getLast? = some g.entry := by
  refine ⟨s.events_eq, s.next_drop_events, fun kind node => ⟨fun reachable => ?_, fun unreachable => ?_⟩, ?_, ?_, ?_⟩
  · rw [s.events_eq]
    exact List.count_eq_one_of_mem (visit_events_nodup _ _) (s.events_eq ▸ s.mem_events.mpr reachable)
  · exact List.count_eq_zero.mpr fun member => unreachable (s.mem_events.mp member)
  · rw [s.events_eq]
    exact visit_nested _ _
  · intro node next reachable edge
    have entered : (.enter, node) ∈ (g.visit [] [g.entry]).events := s.events_eq ▸ s.mem_events.mpr reachable
    have follows := (visit_follows entered edge).resolve_left List.not_mem_nil
    rw [← s.events_eq] at follows
    have leaves {a b : g.Node} (order : [(Event.leave, a), (Event.leave, b)].Sublist s.events) :
        [a, b].Sublist s.postorder := by
      have left : (leaving [(Event.leave, a), (Event.leave, b)]).Sublist (leaving s.events) := order.filterMap _
      exact left
    exact follows.imp leaves (.imp_right (.imp_right leaves))
  · obtain ⟨rest, reversed⟩ := g.rpo_eq_cons
    have last : g.postorder.getLast? = some g.entry := by
      rw [← List.head?_reverse, reversed]
      rfl
    exact last

/-- A search that is given up after two events, with node 2 on its stack twice, starts over. -/
theorem tangle_search :
    let s : Search tangle := drop 2 (restart {})
    s.stack = [(.enter, 2), (.leave, 1), (.enter, 2), (.enter, 1), (.leave, 0)] ∧
      (tangle.visit [] [tangle.entry]).events = [(.enter, 0), (.enter, 1), (.enter, 2), (.enter, 3), (.leave, 3),
        (.leave, 2), (.leave, 1), (.leave, 0)] ∧
      tangle.IsReachable 2 ∧ 1 ∈ tangle.succs 2 ∧ [(.enter, 1), (.enter, 2)].Sublist s.events ∧
      [2, 1].Sublist s.postorder ∧ ¬ tangle.IsReachable 4 ∧ s.events.count (.enter, 4) = 0 := by
  intro s
  obtain ⟨same, -, once, -, edges, -⟩ := search_recursive s
  have reachable : tangle.IsReachable 2 := ⟨_, tangle_path_second⟩
  have unreachable : ¬ tangle.IsReachable 4 := fun found => tangle_reachable_ne found rfl
  have edge : 1 ∈ tangle.succs 2 := by decide
  have back := ((edges 2 1 reachable edge).resolve_left (by decide)).resolve_left (by decide)
  exact ⟨by decide, same ▸ by decide, reachable, edge, back.1, back.2, unreachable, (once .enter 4).2 unreachable⟩

end Search

end RegisterAllocator.FlowGraph
