import Mathlib.Logic.Function.Iterate
import RegisterAllocator.Proofs.Dominators

/-!
# The passes that find dominators

While passes are made, the entry of a node in the table only ever rises (`Lags.le_join`). What makes it so is that a
table lags behind: an entry is never above the place where the chains of the predecessors meet at that moment. A step
moves one node further up its own chain, which takes nodes away from the chains of others and so could leave an entry
above such a place. It does not, because an entry that is still to be visited in this pass lies on the chain of a
predecessor left later than its node (`Lags.through`).
-/

namespace RegisterAllocator.FlowGraph

variable {g : FlowGraph} {a b c d node up : g.Node}

namespace Idoms

variable {idoms : Idoms g}

theorem Above.total (first : idoms.Above a c) (second : idoms.Above a d) : idoms.Above c d ∨ idoms.Above d c := by
  refine Relation.ReflTransGen.total_of_right_unique (fun node up other value value' => ?_) first second
  exact Option.some.inj (value.symm.trans value')

/-- A chain that does not go on from a node is the same when the entry of the node changes. -/
theorem Above.set {value : Option g.Node} (above : idoms.Above a c)
    (apart : c = node ∨ ¬ (idoms.Above a node ∧ idoms.Above node c)) : Above (idoms.set node.val value) a c := by
  induction above using Relation.ReflTransGen.head_induction_on with
  | refl => exact .refl
  | @head a up step rest ih =>
    by_cases here : a = node
    · subst here
      rcases apart with rfl | apart
      · exact .refl
      · exact absurd ⟨.refl, .head step rest⟩ apart
    · refine .head ?_ (ih ?_)
      · show (idoms.set node.val value)[a] = some up
        rw [getElem_set, if_neg (Ne.symm here), step]
      · exact apart.imp_right fun apart both => apart ⟨.head step both.1, both.2⟩

namespace Approximates

variable (approximates : idoms.Approximates)

include approximates

theorem above_entry (filled : idoms[node].isSome) : idoms.Above node g.entry :=
  approximates.above_of_dominates filled (.entry node)

theorem above_set {value : Option g.Node} (later : g.rank node < g.rank a) (above : idoms.Above a d) :
    Above (idoms.set node.val value) a d :=
  above.set (.inr fun both => absurd later (approximates.above_rank both.1).not_gt)

theorem meet_lowest {fuel : Nat} (met : idoms.meet g.rank fuel a b = some c) (first : idoms.Above a d)
    (second : idoms.Above b d) : idoms.Above c d := by
  -- a node left earlier than `other` is not `d`, so `d` is above its entry
  have climbs {node other up : g.Node} (lower : g.rank node < g.rank other) (above : idoms.Above node d)
      (above' : idoms.Above other d) (value : idoms[node] = some up) : idoms.Above up d := by
    rcases above.cases_head with rfl | ⟨next, step, rest⟩
    · exact absurd lower (approximates.above_rank above').not_gt
    · rw [value] at step
      cases step
      exact rest
  induction fuel generalizing a b with
  | zero => cases met
  | succ fuel ih =>
    unfold meet at met
    split at met
    · cases met
      exact first
    · next apart =>
      split at met
      · next lower =>
        obtain ⟨up, value, met⟩ := Option.bind_eq_some_iff.mp met
        exact ih met (climbs lower first second value) second
      · next notLower =>
        obtain ⟨up, value, met⟩ := Option.bind_eq_some_iff.mp met
        rcases (not_lt.mp notLower).lt_or_eq with lower | same
        · exact ih met first (climbs lower second first value)
        · exact absurd (rank_injective (approximates.reachable value) same).symm apart

theorem join_lowest {preds : List g.Node} (joined : idoms.join g.rank preds = .ok (some c))
    (common : ∀ pred ∈ preds, idoms[pred].isSome → idoms.Above pred d) : idoms.Above c d := by
  induction preds using List.reverseRecOn generalizing c with
  | nil => cases joined
  | append_singleton preds pred ih =>
    have earlier {c : g.Node} (found : idoms.join g.rank preds = .ok (some c)) : idoms.Above c d :=
      ih found fun other member => common other (List.mem_append_left _ member)
    rw [join_concat, bind_eq_ok] at joined
    obtain ⟨found, before, joined⟩ := joined
    split at joined
    · cases joined
      exact earlier before
    · next full =>
      have last : idoms.Above pred d := common pred (by simp) (Option.isSome_iff_ne_none.mpr (by simpa using full))
      cases found with
      | none =>
        cases joined
        exact last
      | some found =>
        dsimp only at joined
        split at joined
        · next met =>
          cases joined
          exact approximates.meet_lowest met (earlier before) last
        · cases joined

end Approximates

/-- What a pass that has been over `done` keeps of every entry: it is not above the place where the chains of the
predecessors meet. -/
structure Lags (idoms : Idoms g) (done : List g.Node) : Prop where
  below : ∀ {node up}, idoms[node] = some up → node ≠ g.entry → ∀ {d},
    (∀ pred ∈ g.explore.preds node, idoms[pred].isSome → idoms.Above pred d) → idoms.Above up d
  /-- An entry made in this pass lies on the chain of a predecessor, and so does one that the pass has not come to. -/
  through : ∀ {node up}, idoms[node] = some up → node ≠ g.entry → ∃ pred ∈ g.explore.preds node,
    idoms[pred].isSome ∧ g.rank node < g.rank pred ∧ (node ∈ done ∨ up ∉ done → idoms.Above pred up)

namespace Lags

variable {k : Nat} {done rest : List g.Node}

theorem first (g : FlowGraph) : (initial g).Lags [] := by
  have empty {node up : g.Node} (value : (initial g)[node] = some up) (notEntry : node ≠ g.entry) : False := by
    rw [initial, getElem_set, if_neg (Ne.symm notEntry)] at value
    simp at value
  exact ⟨fun value notEntry => (empty value notEntry).elim, fun value notEntry => (empty value notEntry).elim⟩

/-- A step moves a node up its own chain. -/
theorem le_join (lags : idoms.Lags done) (value : idoms[node] = some up) (notEntry : node ≠ g.entry)
    (joins : idoms.Joins (g.explore.preds node) c) : idoms.Above up c :=
  lags.below value notEntry joins.above

/-- No chain gets longer in a step. -/
theorem above_of_set (lags : idoms.Lags done) (approximates : idoms.Approximates) (notEntry : node ≠ g.entry)
    (joins : idoms.Joins (g.explore.preds node) c) (filled : idoms[a].isSome)
    (above : Above (idoms.set node.val (some c)) a d) : idoms.Above a d := by
  induction above using Relation.ReflTransGen.head_induction_on with
  | refl => exact .refl
  | @head a up step _ ih =>
    replace step : (idoms.set node.val (some c))[a] = some up := step
    rw [getElem_set] at step
    split at step
    · next here =>
      cases step
      subst here
      obtain ⟨old, value⟩ := Option.isSome_iff_exists.mp filled
      exact .head value ((lags.le_join value notEntry joins).trans (ih joins.filled))
    · have above : idoms.Above a up := .single step
      exact above.trans (ih (approximates.above_filled above filled))

/-- The entries after a step still lag behind. -/
theorem below_set (lags : idoms.Lags done) (round : idoms.Round k done)
    (cut : g.postorder.reverse = g.entry :: (done ++ node :: rest))
    (joined : idoms.join g.rank (g.explore.preds node) = .ok (some c)) (joins : idoms.Joins (g.explore.preds node) c)
    (higher : g.rank node < g.rank c) (next : Approximates (idoms.set node.val (some c)))
    (value : (idoms.set node.val (some c))[a] = some up) (otherNotEntry : a ≠ g.entry)
    (common : ∀ pred ∈ g.explore.preds a, (idoms.set node.val (some c))[pred].isSome →
      Above (idoms.set node.val (some c)) pred d) : Above (idoms.set node.val (some c)) up d := by
  obtain ⟨reachable, notEntry⟩ := Round.visited cut
  have common' (pred : g.Node) (member : pred ∈ g.explore.preds a) (filled : idoms[pred].isSome) :
      idoms.Above pred d :=
    lags.above_of_set round.approximates notEntry joins filled (common pred member (filled_set filled))
  rw [getElem_set] at value
  split at value
  · next here =>
    subst here
    cases value
    exact round.approximates.above_set higher (round.approximates.join_lowest joined common')
  · have above : idoms.Above up d := lags.below value otherNotEntry common'
    by_cases between : idoms.Above up node ∧ idoms.Above node d
    · -- the pass has not come to `up`, so a predecessor reaches the node through it, and `d` from there
      obtain ⟨pred, member, filled, -, through⟩ := lags.through value otherNotEntry
      have notDone : up ∉ done := fun visited =>
        absurd (rank_lt_of_mem cut (List.mem_cons_of_mem _ visited))
          (round.approximates.above_rank between.1).not_gt
      have fromPred : idoms.Above pred node := (through (.inr notDone)).trans between.1
      have toNode : Above (idoms.set node.val (some c)) up node := between.1.set (.inl rfl)
      rcases (fromPred.set (.inl rfl)).total (common pred member (filled_set filled)) with onwards | back
      · exact toNode.trans onwards
      · have reached : node = d := rank_injective reachable
          (Nat.le_antisymm (round.approximates.above_rank between.2) (next.above_rank back))
        exact reached ▸ toNode
    · exact above.set (.inr between)

theorem through_set (lags : idoms.Lags done) (round : idoms.Round k done)
    (cut : g.postorder.reverse = g.entry :: (done ++ node :: rest)) (joins : idoms.Joins (g.explore.preds node) c)
    (next : Approximates (idoms.set node.val (some c)))
    (value : (idoms.set node.val (some c))[a] = some up) (otherNotEntry : a ≠ g.entry) :
    ∃ pred ∈ g.explore.preds a, (idoms.set node.val (some c))[pred].isSome ∧ g.rank a < g.rank pred ∧
      (a ∈ done ++ [node] ∨ up ∉ done ++ [node] → Above (idoms.set node.val (some c)) pred up) := by
  obtain ⟨reachable, notEntry⟩ := Round.visited cut
  rw [getElem_set] at value
  split at value
  · next here =>
    subst here
    cases value
    obtain ⟨pred, found, edge, later⟩ := exists_later_pred reachable notEntry
    have member : pred ∈ g.explore.preds node := (mem_explore_preds reachable).mpr ⟨found, edge⟩
    have filled := round.filled_of_rank_lt cut found later
    exact ⟨pred, member, filled_set filled, later,
      fun _ => round.approximates.above_set later (joins.above pred member filled)⟩
  · next apart =>
    obtain ⟨pred, member, filled, later, through⟩ := lags.through value otherNotEntry
    refine ⟨pred, member, filled_set filled, later, fun visited => ?_⟩
    rcases visited with visited | unvisited
    · have old : a ∈ done := (List.mem_append.mp visited).resolve_right (by simpa using Ne.symm apart)
      have laterThan : g.rank node < g.rank a :=
        rank_lt_of_mem cut (List.mem_cons_of_mem _ old)
      exact round.approximates.above_set (laterThan.trans later) (through (.inl old))
    · rw [List.mem_append, List.mem_singleton, not_or] at unvisited
      by_cases top : up = g.entry
      · exact top ▸ next.above_entry (filled_set filled)
      · -- `up` is left earlier than the node, so the chain that leads to it has not come to the node
        have above := through (.inr unvisited.1)
        have reachable' := round.approximates.isReachable (round.approximates.above_filled above filled)
        refine above.set (.inr fun both => ?_)
        rcases (round.approximates.above_rank both.2).lt_or_eq with lower | same
        · have visited : up ∈ g.entry :: done := mem_of_rank_lt cut reachable' lower
          exact (List.mem_cons.mp visited).elim top unvisited.1
        · exact unvisited.2 (rank_injective reachable same).symm

theorem step (lags : idoms.Lags done) (round : idoms.Round k done)
    (cut : g.postorder.reverse = g.entry :: (done ++ node :: rest))
    (joined : idoms.join g.rank (g.explore.preds node) = .ok (some c)) (joins : idoms.Joins (g.explore.preds node) c)
    (higher : g.rank node < g.rank c) : Lags (idoms.set node.val (some c)) (done ++ [node]) := by
  have next := (round.step cut joins higher).approximates
  exact ⟨fun value notEntry _ common => lags.below_set round cut joined joins higher next value notEntry common,
    lags.through_set round cut joins next⟩

theorem steps {todo : List g.Node} (lags : idoms.Lags done) (round : idoms.Round k done)
    (cut : g.postorder.reverse = g.entry :: (done ++ todo ++ rest)) :
    ∃ next, idoms.pass g.explore g.rank todo = .ok next ∧ next.Round k (done ++ todo) ∧ next.Lags (done ++ todo) := by
  induction todo generalizing idoms done with
  | nil => exact ⟨idoms, rfl, by simpa using round, by simpa using lags⟩
  | cons node todo ih =>
    have here : g.postorder.reverse = g.entry :: (done ++ node :: (todo ++ rest)) := by
      rw [cut]
      simp
    obtain ⟨up, joined, joins, higher⟩ := round.exists_join here
    obtain ⟨next, passed, final, final'⟩ := ih (lags.step round here joined joins higher)
      (round.step here joins higher) (by rw [cut]; simp)
    rw [List.append_assoc] at final final'
    exact ⟨next, pass_cons joined passed, final, final'⟩

/-- At the end of a pass every entry lies on the chain of a predecessor. -/
theorem advance (lags : idoms.Lags g.postorder.reverse.tail) (approximates : idoms.Approximates) : idoms.Lags [] := by
  refine ⟨lags.below, fun {node up} value notEntry => ?_⟩
  obtain ⟨pred, member, filled, later, through⟩ := lags.through value notEntry
  have visited : node ∈ g.postorder.reverse.tail := mem_rpo_tail.mpr ⟨approximates.reachable value, notEntry⟩
  exact ⟨pred, member, filled, later, fun _ => through (.inl visited)⟩

end Lags

/-- The table after so many whole passes and the first steps of the next pass. -/
def moment (g : FlowGraph) (passes steps : Nat) : Except Fault (Idoms g) :=
  (· >>= pass g.explore g.rank g.postorder.reverse.tail)^[passes] (.ok (initial g)) >>=
    pass g.explore g.rank (g.postorder.reverse.tail.take steps)

def visited (g : FlowGraph) (passes steps : Nat) : List g.Node :=
  if passes = 0 then g.postorder.reverse.tail.take steps else g.postorder.reverse.tail

theorem moment_zero_right (g : FlowGraph) (passes : Nat) :
    moment g passes 0 = (· >>= pass g.explore g.rank g.postorder.reverse.tail)^[passes] (.ok (initial g)) :=
  bind_pure _

theorem moment_eq (g : FlowGraph) (passes steps : Nat) :
    moment g passes steps = moment g passes 0 >>= pass g.explore g.rank (g.postorder.reverse.tail.take steps) := by
  rw [moment_zero_right, moment]

theorem moment_succ_left (g : FlowGraph) (passes : Nat) :
    moment g (passes + 1) 0 = moment g passes 0 >>= pass g.explore g.rank g.postorder.reverse.tail := by
  rw [moment_zero_right, moment_zero_right, Function.iterate_succ_apply']

theorem moment_length (g : FlowGraph) (passes : Nat) :
    moment g passes g.postorder.reverse.tail.length = moment g (passes + 1) 0 := by
  rw [moment_eq, List.take_length, moment_succ_left]

theorem moment_succ_right {passes steps : Nat} {value : Option g.Node}
    (here : g.postorder.reverse.tail[steps]? = some node) (now : moment g passes steps = .ok idoms)
    (joined : idoms.join g.rank (g.explore.preds node) = .ok value) :
    moment g passes (steps + 1) = .ok (idoms.set node.val value) := by
  rw [moment_eq, bind_eq_ok] at now ⊢
  obtain ⟨before, whole, part⟩ := now
  refine ⟨before, whole, ?_⟩
  rw [List.take_add_one, here, pass, List.foldlM_append]
  exact bind_eq_ok.mpr ⟨idoms, part, pass_cons joined rfl⟩

theorem pass_of_notMem {nodes : List g.Node} {next : Idoms g} (passed : pass g.explore g.rank nodes idoms = .ok next)
    (apart : node ∉ nodes) : next[node] = idoms[node] := by
  induction nodes generalizing idoms with
  | nil =>
    cases passed
    rfl
  | cons first nodes ih =>
    rw [List.mem_cons, not_or] at apart
    rw [pass, List.foldlM_cons] at passed
    simp only [bind_eq_ok, pure_eq_ok] at passed
    obtain ⟨_, ⟨value, -, rfl⟩, passed⟩ := passed
    rw [ih passed apart.2, getElem_set, if_neg (Ne.symm apart.1)]

theorem cut_at {steps : Nat} (here : g.postorder.reverse.tail[steps]? = some node) :
    g.postorder.reverse = g.entry ::
      (g.postorder.reverse.tail.take steps ++ node :: g.postorder.reverse.tail.drop (steps + 1)) := by
  obtain ⟨inside, value⟩ := List.getElem?_eq_some_iff.mp here
  rw [← value, ← List.drop_eq_getElem_cons, List.take_append_drop]
  exact g.rpo_eq

theorem exists_moment (g : FlowGraph) (passes steps : Nat) : ∃ idoms, moment g passes steps = .ok idoms ∧
    idoms.Round (passes + 1) (g.postorder.reverse.tail.take steps) ∧
      idoms.Lags (g.postorder.reverse.tail.take steps) := by
  -- a part of a pass that starts with both
  have part {idoms : Idoms g} {k : Nat} (round : idoms.Round k []) (lags : idoms.Lags []) (steps : Nat) :
      ∃ next, idoms.pass g.explore g.rank (g.postorder.reverse.tail.take steps) = .ok next ∧
        next.Round k (g.postorder.reverse.tail.take steps) ∧ next.Lags (g.postorder.reverse.tail.take steps) := by
    have whole : g.postorder.reverse = g.entry ::
        ([] ++ g.postorder.reverse.tail.take steps ++ g.postorder.reverse.tail.drop steps) := by
      rw [List.nil_append, List.take_append_drop]
      exact g.rpo_eq
    exact lags.steps round whole
  have whole (passes : Nat) : ∃ idoms, moment g passes 0 = .ok idoms ∧ idoms.Round (passes + 1) [] ∧
      idoms.Lags [] := by
    induction passes with
    | zero => exact ⟨initial g, rfl, .first g, .first g⟩
    | succ passes ih =>
      obtain ⟨idoms, now, round, lags⟩ := ih
      obtain ⟨next, passed, final, final'⟩ := part round lags g.postorder.reverse.tail.length
      rw [List.take_length] at passed final final'
      exact ⟨next, by rw [moment_succ_left, now, ok_bind, passed], final.advance, final'.advance final.approximates⟩
  obtain ⟨idoms, now, round, lags⟩ := whole passes
  obtain ⟨next, passed, final⟩ := part round lags steps
  exact ⟨next, by rw [moment_eq, now, ok_bind, passed], final⟩

theorem moment_filled {passes steps : Nat} (now : moment g passes steps = .ok idoms) :
    idoms[node].isSome ↔ node = g.entry ∨ node ∈ visited g passes steps := by
  obtain ⟨_, now', round, -⟩ := exists_moment g passes steps
  cases now.symm.trans now'
  obtain ⟨before, whole, part⟩ := bind_eq_ok.mp ((moment_eq g passes steps).symm.trans now)
  constructor
  · intro filled
    by_cases entry : node = g.entry
    · exact .inl entry
    · right
      rw [visited]
      split
      · next zero =>
        by_contra unvisited
        subst zero
        cases whole
        rw [pass_of_notMem part unvisited, initial, getElem_set, if_neg (Ne.symm entry)] at filled
        simp at filled
      · exact mem_rpo_tail.mpr ⟨round.approximates.isReachable filled, entry⟩
  · rintro (rfl | member)
    · rw [round.approximates.root]
      rfl
    · by_cases visited : node ∈ g.postorder.reverse.tail.take steps
      · exact round.filled node visited
      · cases passes with
        | zero => exact absurd member visited
        | succ passes =>
          obtain ⟨_, last, round', -⟩ := exists_moment g passes g.postorder.reverse.tail.length
          rw [moment_length, whole] at last
          cases last
          rw [List.take_length] at round'
          rw [pass_of_notMem part visited]
          exact round'.filled node member

/-- Passes come to rest, after fewer passes than there are nodes. -/
theorem exists_rest (g : FlowGraph) : ∃ count < g.order, ∃ found, moment g count 0 = .ok found ∧
    (∀ k < count, moment g (k + 1) 0 ≠ moment g k 0) ∧ moment g (count + 1) 0 = moment g count 0 ∧
      (g.dominance g.explore).idoms = found.set g.entry.val none := by
  have positive : 0 < g.order := Nat.zero_lt_of_lt g.entry.isLt
  have exact' (more : Nat) : ∃ idoms, moment g (g.order - 1 + more) 0 = .ok idoms ∧ idoms.Exact := by
    obtain ⟨idoms, now, round, -⟩ := exists_moment g (g.order - 1 + more) 0
    exact ⟨idoms, now, round.exact (by omega)⟩
  obtain ⟨last, atLast, lastExact⟩ := exact' 0
  obtain ⟨next, atNext, nextExact⟩ := exact' 1
  have last_rests : moment g (g.order - 1 + 1) 0 = moment g (g.order - 1) 0 := by
    rw [atNext, nextExact.unique lastExact]
    exact atLast.symm
  have rests : ∃ k, moment g (k + 1) 0 = moment g k 0 := ⟨_, last_rests⟩
  have soon : Nat.find rests ≤ g.order - 1 := Nat.find_min' rests last_rests
  -- nothing changes any more from then on
  have stays (more : Nat) : moment g (Nat.find rests + more) 0 = moment g (Nat.find rests) 0 := by
    induction more with
    | zero => rfl
    | succ more ih => rw [← Nat.add_assoc, moment_succ_left, ih, ← moment_succ_left, Nat.find_spec rests]
  obtain ⟨found, -, table, exact'', -⟩ := g.dominance_eq
  refine ⟨Nat.find rests, by omega, last, ?_, fun k early => Nat.find_min rests early, Nat.find_spec rests, ?_⟩
  · rw [← stays (g.order - 1 - Nat.find rests), Nat.add_sub_cancel' soon]
    exact atLast
  · rw [table, exact''.unique lastExact]

/-- At every moment of the search for dominators the chains of the visited nodes rise to the entry, two of them meet
at their lowest common node, and a step fills an entry or lifts it; and the passes come to rest. -/
theorem passes_rise (g : FlowGraph) :
    (∀ passes steps, ∃ idoms, moment g passes steps = .ok idoms ∧
      (∀ node, idoms[node].isSome ↔ node = g.entry ∨ node ∈ visited g passes steps) ∧
      idoms[g.entry] = some g.entry ∧
      (∀ node up, idoms[node] = some up → node ≠ g.entry →
        g.rank node < g.rank up ∧ idoms[up].isSome ∧ idoms.Above up g.entry) ∧
      (∀ a b, idoms[a].isSome → idoms[b].isSome → ∃ c, idoms.meet g.rank (2 * g.order + 1) a b = some c ∧
        idoms.Above a c ∧ idoms.Above b c ∧ ∀ d, idoms.Above a d → idoms.Above b d → idoms.Above c d) ∧
      (∀ preds, ∃ joined, idoms.join g.rank preds = .ok joined ∧ ∀ found, joined = some found → idoms[found].isSome) ∧
      ∀ node, g.postorder.reverse.tail[steps]? = some node →
        (∀ pred ∈ g.explore.preds node, pred ∈ g.postorder) ∧
        ∃ up, idoms.join g.rank (g.explore.preds node) = .ok (some up) ∧
          moment g passes (steps + 1) = .ok (idoms.set node.val (some up)) ∧
          (idoms[node] = none ∨ idoms[node] = some up ∨ ∃ old, idoms[node] = some old ∧ g.rank old < g.rank up)) ∧
    (∀ passes, moment g passes g.postorder.reverse.tail.length = moment g (passes + 1) 0) ∧
    (∃ idoms, moment g 1 0 = .ok idoms ∧ ∀ node, g.IsReachable node → idoms[node].isSome) ∧
    ∃ count < g.order, ∃ found, moment g count 0 = .ok found ∧
      (∀ k < count, moment g (k + 1) 0 ≠ moment g k 0) ∧ moment g (count + 1) 0 = moment g count 0 ∧
      (g.dominance g.explore).idoms = found.set g.entry.val none := by
  refine ⟨fun passes steps => ?_, moment_length g, ?_, exists_rest g⟩
  · obtain ⟨idoms, now, round, lags⟩ := exists_moment g passes steps
    have approximates := round.approximates
    refine ⟨idoms, now, fun node => moment_filled now, approximates.root, fun node up value notEntry => ?_,
      fun a b first second => ?_, fun preds => ?_, fun node here => ?_⟩
    · obtain ⟨rises, filled⟩ := approximates.rises value notEntry
      exact ⟨rises, filled, approximates.above_entry filled⟩
    · have enough : (g.order - g.rank a) + (g.order - g.rank b) < 2 * g.order + 1 := by omega
      obtain ⟨c, met, above, above', -⟩ := approximates.meet_eq first second enough
      exact ⟨c, met, above, above', fun d => approximates.meet_lowest met⟩
    · rcases approximates.join_eq preds with ⟨missed, -⟩ | ⟨c, joined, joins⟩
      · exact ⟨none, missed, nofun⟩
      · refine ⟨some c, joined, ?_⟩
        rintro _ ⟨⟩
        exact joins.filled
    · have cut := cut_at here
      obtain ⟨reachable, notEntry⟩ := Round.visited cut
      obtain ⟨up, joined, joins, -⟩ := round.exists_join cut
      refine ⟨fun pred member => mem_postorder.mpr ((mem_explore_preds reachable).mp member).1, up, joined,
        moment_succ_right here now joined, ?_⟩
      cases value : idoms[node] with
      | none => exact .inl rfl
      | some old =>
        right
        have above := lags.le_join value notEntry joins
        have filled := approximates.above_filled (.single value) (Option.isSome_of_eq_some value)
        rcases (approximates.above_rank above).lt_or_eq with lower | same
        · exact .inr ⟨old, rfl, lower⟩
        · exact .inl (congrArg some (rank_injective (approximates.isReachable filled) same))
  · obtain ⟨idoms, now, -⟩ := exists_moment g 1 0
    refine ⟨idoms, now, fun node reachable => ?_⟩
    by_cases entry : node = g.entry
    · exact (moment_filled now).mpr (.inl entry)
    · exact (moment_filled now).mpr (.inr (mem_rpo_tail.mpr ⟨reachable, entry⟩))

/-- A loop with two ways in, of which a search finds the second one late. -/
abbrev crossing : FlowGraph where
  order := 4
  entry := 0
  succs node := [[1, 3], [2], [3], [2]].getD node.val []

theorem crossing_rises :
    crossing.postorder.reverse.tail[1]? = some 2 ∧ ∃ idoms up, moment crossing 1 1 = .ok idoms ∧
      idoms[(2 : crossing.Node)] = some 1 ∧ moment crossing 1 2 = .ok (idoms.set 2 (some up)) ∧
      crossing.rank 1 < crossing.rank up := by
  have here : crossing.postorder.reverse.tail[1]? = some 2 := by decide +kernel
  have value : ((moment crossing 1 1).toOption.map fun idoms => idoms[(2 : crossing.Node)]) = some (some 1) := by
    decide +kernel
  have lifted : ((moment crossing 1 2).toOption.map fun idoms => idoms[(2 : crossing.Node)]) ≠ some (some 1) := by
    decide +kernel
  obtain ⟨idoms, now, -, -, -, -, -, step⟩ := (passes_rise crossing).1 1 1
  obtain ⟨-, up, -, next, change⟩ := step 2 here
  replace value : idoms[(2 : crossing.Node)] = some 1 := by
    rw [now] at value
    exact Option.some.inj value
  have raised : (idoms.set 2 (some up))[(2 : crossing.Node)] = some up := (getElem_set _ 2 2 _).trans (if_pos rfl)
  refine ⟨here, idoms, up, now, value, next, ?_⟩
  rcases change with none | same | ⟨old, same, higher⟩
  · cases value.symm.trans none
  · refine absurd ?_ lifted
    rw [next]
    exact congrArg some (raised.trans (same.symm.trans value))
  · cases value.symm.trans same
    exact higher

end Idoms

end RegisterAllocator.FlowGraph
