import RegisterAllocator.Graph.Dominance
import RegisterAllocator.Proofs.DepthFirst
import RegisterAllocator.Proofs.Outcome

/-!
# Dominators

The passes find the dominators of every graph. Two things hold of the table of immediate dominators at every moment:
it is a tree that climbs towards the entry and overlooks no dominator (`Idoms.Approximates`), and after `k` passes the
entry of a node lies on every path to it with at most `k` edges (`Idoms.Tight`). A path without cycles has fewer edges
than there are nodes, so after as many passes as there are nodes the table is exact, and a pass that changes nothing
is as good as any number of them.
-/

namespace RegisterAllocator.FlowGraph

variable {g : FlowGraph} {a b c node up : g.Node}

/-- Every path from the entry to `b` goes through `a`. -/
def Dominates (g : FlowGraph) (a b : g.Node) : Prop := ∀ nodes, g.Path g.entry b nodes → a ∈ nodes

def StrictlyDominates (g : FlowGraph) (a b : g.Node) : Prop := a ≠ b ∧ g.Dominates a b

namespace Dominates

theorem refl (a : g.Node) : g.Dominates a a := fun _ path => path.mem_last

theorem entry (a : g.Node) : g.Dominates g.entry a := fun _ path => path.mem_start

theorem trans (first : g.Dominates a b) (second : g.Dominates b c) : g.Dominates a c := by
  intro nodes path
  obtain ⟨part, here, suffix⟩ := path.upTo (second nodes path)
  exact suffix.subset (first part here)

theorem eq_entry (dominates : g.Dominates a g.entry) : a = g.entry := List.mem_singleton.mp (dominates _ .single)

theorem antisymm (first : g.Dominates a b) (second : g.Dominates b a) (reachable : g.IsReachable b) : a = b := by
  obtain ⟨nodes, path⟩ := reachable
  obtain ⟨part, here, nodup, -⟩ := path.simple
  cases here with
  | single => exact first.eq_entry
  | step path edge =>
    rcases List.mem_cons.mp (first _ (path.step edge)) with same | earlier
    · exact same
    · -- `b` would be on the way to `a`, and so twice on the path
      obtain ⟨before, there, suffix⟩ := path.upTo earlier
      exact absurd (suffix.subset (second before there)) (List.nodup_cons.mp nodup).1

theorem isReachable (dominates : g.Dominates a b) (reachable : g.IsReachable b) : g.IsReachable a := by
  obtain ⟨nodes, path⟩ := reachable
  exact path.isReachable (dominates nodes path)

end Dominates

theorem StrictlyDominates.pred (dominates : g.StrictlyDominates a b) (edge : b ∈ g.succs c) : g.Dominates a c := by
  intro nodes path
  exact (List.mem_cons.mp (dominates.2 _ (path.step edge))).resolve_left dominates.1

namespace Idoms

variable {idoms : Idoms g}

theorem getElem_set (idoms : Idoms g) (node other : g.Node) (value : Option g.Node) :
    (idoms.set node.val value)[other] = if node = other then value else idoms[other] := by
  simp [set, Vector.getElem_setIfInBounds, Fin.ext_iff]

theorem filled_set (filled : idoms[a].isSome) : (idoms.set node.val (some c))[a].isSome := by
  rw [getElem_set]
  split
  · rfl
  · exact filled

/-- `c` is on the chain of `a`. -/
def Above (idoms : Idoms g) (a c : g.Node) : Prop := Relation.ReflTransGen (fun node up => idoms[node] = some up) a c

/-- What holds of a table while passes are made. -/
structure Approximates (idoms : Idoms g) : Prop where
  root : idoms[g.entry] = some g.entry
  reachable : ∀ {node up}, idoms[node] = some up → g.IsReachable node
  rises : ∀ {node up}, idoms[node] = some up → node ≠ g.entry → g.rank node < g.rank up ∧ idoms[up].isSome
  /-- No dominator is passed over on the way up. -/
  covers : ∀ {node up}, idoms[node] = some up → node ≠ g.entry → ∀ {a}, g.StrictlyDominates a node → g.Dominates a up

namespace Approximates

variable (approximates : idoms.Approximates)

include approximates

theorem isReachable (filled : idoms[node].isSome) : g.IsReachable node := by
  obtain ⟨up, value⟩ := Option.isSome_iff_exists.mp filled
  exact approximates.reachable value

theorem above_filled (above : idoms.Above a c) (filled : idoms[a].isSome) : idoms[c].isSome := by
  induction above with
  | refl => exact filled
  | @tail node up _ step ih =>
    by_cases entry : node = g.entry
    · subst entry
      rw [approximates.root] at step
      cases step
      exact ih
    · exact (approximates.rises step entry).2

theorem above_rank (above : idoms.Above a c) : g.rank a ≤ g.rank c := by
  induction above with
  | refl => exact Nat.le_refl _
  | @tail node up _ step ih =>
    by_cases entry : node = g.entry
    · subst entry
      rw [approximates.root] at step
      cases step
      exact ih
    · exact ih.trans (approximates.rises step entry).1.le

theorem above_of_dominates (filled : idoms[b].isSome) (dominates : g.Dominates a b) : idoms.Above b a := by
  induction rising : g.order - g.rank b using Nat.strong_induction_on generalizing b with
  | _ height ih =>
    by_cases same : a = b
    · subst same
      exact .refl
    · by_cases entry : b = g.entry
      · subst entry
        exact absurd dominates.eq_entry same
      · obtain ⟨up, value⟩ := Option.isSome_iff_exists.mp filled
        obtain ⟨higher, filled'⟩ := approximates.rises value entry
        have bound := rank_lt b (approximates.reachable value)
        have dominates' := approximates.covers value entry ⟨same, dominates⟩
        exact .head value (ih _ (by omega) filled' dominates' rfl)

theorem rank_le_entry (filled : idoms[a].isSome) : g.rank a ≤ g.rank g.entry :=
  approximates.above_rank (approximates.above_of_dominates filled (.entry a))

/-- Of two nodes the one left first can climb, and no common dominator is passed over. -/
theorem climb (filled : idoms[a].isSome) (other : idoms[b].isSome) (lower : g.rank a < g.rank b) :
    ∃ up, idoms[a] = some up ∧ g.rank a < g.rank up ∧ idoms[up].isSome ∧
      ∀ d, g.Dominates d a → g.Dominates d b → g.Dominates d up := by
  obtain ⟨up, value⟩ := Option.isSome_iff_exists.mp filled
  have notEntry : a ≠ g.entry := by
    rintro rfl
    exact absurd lower (approximates.rank_le_entry other).not_gt
  obtain ⟨higher, filled'⟩ := approximates.rises value notEntry
  refine ⟨up, value, higher, filled', fun d first second => ?_⟩
  refine approximates.covers value notEntry ⟨?_, first⟩
  -- a dominator of `b` is on the chain of `b`, which is above `a`
  rintro rfl
  exact absurd lower (approximates.above_rank (approximates.above_of_dominates other second)).not_gt

theorem meet_eq {fuel : Nat} (first : idoms[a].isSome) (second : idoms[b].isSome)
    (enough : (g.order - g.rank a) + (g.order - g.rank b) < fuel) :
    ∃ c, idoms.meet g.rank fuel a b = some c ∧ idoms.Above a c ∧ idoms.Above b c ∧
      ∀ d, g.Dominates d a → g.Dominates d b → g.Dominates d c := by
  induction fuel generalizing a b with
  | zero => omega
  | succ fuel ih =>
    have reachable := approximates.isReachable first
    have reachable' := approximates.isReachable second
    have bound := rank_lt a reachable
    have bound' := rank_lt b reachable'
    unfold meet
    split
    · next same =>
      subst same
      exact ⟨a, rfl, .refl, .refl, fun _ dominates _ => dominates⟩
    · next apart =>
      split
      · next lower =>
        obtain ⟨up, value, higher, filled, covers⟩ := approximates.climb first second lower
        obtain ⟨c, met, above, above', common⟩ := ih filled second (by omega)
        refine ⟨c, by rw [value]; exact met, .head value above, above', fun d there here => ?_⟩
        exact common d (covers d there here) here
      · next notLower =>
        have lower : g.rank b < g.rank a :=
          lt_of_le_of_ne (not_lt.mp notLower) fun same => apart (rank_injective reachable same.symm)
        obtain ⟨up, value, higher, filled, covers⟩ := approximates.climb second first lower
        obtain ⟨c, met, above, above', common⟩ := ih first filled (by omega)
        refine ⟨c, by rw [value]; exact met, above, .head value above', fun d there here => ?_⟩
        exact common d there (covers d here there)

end Approximates

/-- `c` is where the chains of the filled ones among `preds` meet. -/
structure Joins (idoms : Idoms g) (preds : List g.Node) (c : g.Node) : Prop where
  filled : idoms[c].isSome
  above : ∀ pred ∈ preds, idoms[pred].isSome → idoms.Above pred c
  common : ∀ d, (∀ pred ∈ preds, idoms[pred].isSome → g.Dominates d pred) → g.Dominates d c

theorem join_concat (preds : List g.Node) (pred : g.Node) : idoms.join g.rank (preds ++ [pred]) =
    idoms.join g.rank preds >>= fun found =>
      if idoms[pred].isNone then .ok found
      else match found with
        | none => .ok (some pred)
        | some node =>
          match idoms.meet g.rank (2 * g.order + 1) node pred with
          | some met => .ok (some met)
          | none => .error .brokenChain := by
  rw [join, List.foldlM_append]
  simp only [List.foldlM_cons, List.foldlM_nil, bind_pure]
  rfl

theorem Approximates.join_eq (approximates : idoms.Approximates) (preds : List g.Node) :
    (idoms.join g.rank preds = .ok none ∧ ∀ pred ∈ preds, idoms[pred] = none) ∨
      ∃ c, idoms.join g.rank preds = .ok (some c) ∧ idoms.Joins preds c := by
  induction preds using List.reverseRecOn with
  | nil => exact .inl ⟨rfl, nofun⟩
  | append_singleton preds pred ih =>
    rw [join_concat]
    by_cases empty : idoms[pred].isNone
    · have none := Option.isNone_iff_eq_none.mp empty
      rcases ih with ⟨missed, all⟩ | ⟨c, found, joins⟩
      · left
        refine ⟨by rw [missed, ok_bind, if_pos empty], fun other member => ?_⟩
        rcases List.mem_append.mp member with old | new
        · exact all other old
        · rw [List.mem_singleton.mp new, none]
      · right
        refine ⟨c, by rw [found, ok_bind, if_pos empty], joins.filled, fun other member filled => ?_, fun d dominates => ?_⟩
        · rcases List.mem_append.mp member with old | new
          · exact joins.above other old filled
          · rw [List.mem_singleton.mp new, none] at filled
            cases filled
        · exact joins.common d fun other old => dominates other (List.mem_append_left _ old)
    · have filled : idoms[pred].isSome := Option.isSome_iff_ne_none.mpr (by simpa using empty)
      right
      rcases ih with ⟨missed, all⟩ | ⟨c, found, joins⟩
      · rw [missed, ok_bind, if_neg empty]
        refine ⟨pred, rfl, filled, fun other member filled' => ?_, fun d dominates => ?_⟩
        · rcases List.mem_append.mp member with old | new
          · rw [all other old] at filled'
            cases filled'
          · rw [List.mem_singleton.mp new]
            exact .refl
        · exact dominates pred (by simp) filled
      · rw [found, ok_bind, if_neg empty]
        have enough : (g.order - g.rank c) + (g.order - g.rank pred) < 2 * g.order + 1 := by omega
        obtain ⟨met, here, above, above', common⟩ := approximates.meet_eq joins.filled filled enough
        simp only [here]
        refine ⟨met, rfl, approximates.above_filled above joins.filled, fun other member filled' => ?_,
          fun d dominates => ?_⟩
        · rcases List.mem_append.mp member with old | new
          · exact (joins.above other old filled').trans above
          · rw [List.mem_singleton.mp new]
            exact above'
        · apply common d
          · exact joins.common d fun other old => dominates other (List.mem_append_left _ old)
          · exact dominates pred (by simp) filled

/-- On every path of at most `k` nodes the entry of the last node lies on the path. -/
def Tight (idoms : Idoms g) (k : Nat) (node : g.Node) : Prop :=
  ∀ nodes, g.Path g.entry node nodes → nodes.length ≤ k → ∃ up, idoms[node] = some up ∧ up ∈ nodes

theorem Tight.mono {k l : Nat} (tight : idoms.Tight l node) (less : k ≤ l) : idoms.Tight k node :=
  fun nodes path short => tight nodes path (short.trans less)

/-- If the entries of all nodes lie on their short paths, so do their chains. -/
theorem Tight.above {k : Nat} (tight : ∀ node, idoms.Tight k node) (above : idoms.Above a c) {nodes : List g.Node}
    (path : g.Path g.entry a nodes) (short : nodes.length ≤ k) : c ∈ nodes := by
  induction above using Relation.ReflTransGen.head_induction_on generalizing nodes with
  | refl => exact path.mem_last
  | @head a up step _ ih =>
    obtain ⟨entry, value, member⟩ := tight a nodes path short
    rw [step] at value
    cases value
    obtain ⟨part, here, suffix⟩ := path.upTo member
    exact suffix.subset (ih here (suffix.length_le.trans short))

def initial (g : FlowGraph) : Idoms g := set (Vector.replicate g.order none) g.entry.val (some g.entry)

theorem pass_cons {value : Option g.Node} {nodes : List g.Node} {next : Idoms g}
    (joined : idoms.join g.rank (g.explore.preds node) = .ok value)
    (passed : pass g.explore g.rank nodes (idoms.set node.val value) = .ok next) :
    idoms.pass g.explore g.rank (node :: nodes) = .ok next := by
  rw [pass, List.foldlM_cons, joined, ok_bind, pure_bind]
  exact passed

/-- A moment of pass `k`: the pass has been over the nodes `done` and comes to the others next. -/
structure Round (idoms : Idoms g) (k : Nat) (done : List g.Node) : Prop where
  approximates : idoms.Approximates
  filled : ∀ node ∈ done, idoms[node].isSome
  tight : ∀ node, idoms.Tight k node
  tighter : ∀ node ∈ done, idoms.Tight (k + 1) node

namespace Round

variable {k : Nat} {done rest : List g.Node}

theorem first (g : FlowGraph) : (initial g).Round 1 [] := by
  have value (node : g.Node) : (initial g)[node] = if g.entry = node then some g.entry else none := by
    rw [initial, getElem_set]
    simp
  refine ⟨⟨?_, ?_, ?_, ?_⟩, nofun, ?_, nofun⟩
  · rw [value, if_pos rfl]
  · intro node up filled
    rw [value] at filled
    split at filled
    · next entry => exact entry ▸ entry_isReachable g
    · cases filled
  · intro node up filled other
    rw [value, if_neg (Ne.symm other)] at filled
    cases filled
  · intro node up filled other
    rw [value, if_neg (Ne.symm other)] at filled
    cases filled
  · intro node nodes path short
    cases path with
    | single => exact ⟨g.entry, by rw [value, if_pos rfl], List.mem_singleton_self _⟩
    | step path edge =>
      have member := List.length_pos_of_mem path.mem_last
      rw [List.length_cons] at short
      omega

theorem visited (cut : g.postorder.reverse = g.entry :: (done ++ node :: rest)) :
    g.IsReachable node ∧ node ≠ g.entry := by
  have nodup := List.nodup_reverse.mpr g.postorder_nodup
  have member : node ∈ g.postorder.reverse := by
    rw [cut]
    simp
  rw [cut] at nodup
  refine ⟨mem_postorder.mp (List.mem_reverse.mp member), ?_⟩
  rintro rfl
  exact (List.nodup_cons.mp nodup).1 (by simp)

theorem filled_of_rank_lt (round : idoms.Round k done)
    (cut : g.postorder.reverse = g.entry :: (done ++ node :: rest)) (found : g.IsReachable a)
    (later : g.rank node < g.rank a) : idoms[a].isSome := by
  have earlier : a ∈ g.entry :: done := mem_of_rank_lt cut found later
  rcases List.mem_cons.mp earlier with rfl | earlier
  · rw [round.approximates.root]
    rfl
  · exact round.filled a earlier

/-- One node of a pass: the chains of its predecessors meet, at a node left later. -/
theorem exists_join (round : idoms.Round k done) (cut : g.postorder.reverse = g.entry :: (done ++ node :: rest)) :
    ∃ up, idoms.join g.rank (g.explore.preds node) = .ok (some up) ∧ idoms.Joins (g.explore.preds node) up ∧
      g.rank node < g.rank up := by
  obtain ⟨reachable, notEntry⟩ := visited cut
  obtain ⟨pred, found, edge, later⟩ := exists_later_pred reachable notEntry
  have inPreds : pred ∈ g.explore.preds node := (mem_explore_preds reachable).mpr ⟨found, edge⟩
  have filled : idoms[pred].isSome := round.filled_of_rank_lt cut found later
  rcases round.approximates.join_eq (g.explore.preds node) with ⟨-, all⟩ | ⟨up, joined, joins⟩
  · rw [all pred inPreds] at filled
    cases filled
  · have above := joins.above pred inPreds filled
    exact ⟨up, joined, joins, Nat.lt_of_lt_of_le later (round.approximates.above_rank above)⟩

theorem step (round : idoms.Round k done) (cut : g.postorder.reverse = g.entry :: (done ++ node :: rest))
    (joins : idoms.Joins (g.explore.preds node) up) (higher : g.rank node < g.rank up) :
    Round (idoms.set node.val (some up)) k (done ++ [node]) := by
  obtain ⟨reachable, notEntry⟩ := visited cut
  have same {other : g.Node} (apart : other ≠ node) :
      (idoms.set node.val (some up))[other] = idoms[other] := by
    rw [getElem_set, if_neg (Ne.symm apart)]
  have here : (idoms.set node.val (some up))[node] = some up := by
    rw [getElem_set, if_pos rfl]
  have kept {l : Nat} {other : g.Node} (apart : other ≠ node) (tight : idoms.Tight l other) :
      Tight (idoms.set node.val (some up)) l other := by
    intro nodes path short
    rw [same apart]
    exact tight nodes path short
  -- a path to the node goes through a predecessor, and the new entry is on the chain of that
  have tighter : Tight (idoms.set node.val (some up)) (k + 1) node := by
    intro nodes path short
    refine ⟨up, here, ?_⟩
    cases path with
    | single => exact absurd rfl notEntry
    | @step pred _ nodes path edge =>
      rw [List.length_cons] at short
      obtain ⟨_, value, -⟩ := round.tight pred nodes path (by omega)
      have above := joins.above pred ((mem_explore_preds reachable).mpr ⟨⟨_, path⟩, edge⟩)
        (Option.isSome_of_eq_some value)
      exact List.mem_cons_of_mem _ (Tight.above round.tight above path (by omega))
  refine ⟨⟨?_, ?_, ?_, ?_⟩, ?_, ?_, ?_⟩
  · rw [same (Ne.symm notEntry)]
    exact round.approximates.root
  · intro other value filled
    by_cases apart : other = node
    · exact apart ▸ reachable
    · rw [same apart] at filled
      exact round.approximates.reachable filled
  · intro other value filled otherNotEntry
    by_cases apart : other = node
    · subst apart
      rw [here] at filled
      cases filled
      exact ⟨higher, filled_set joins.filled⟩
    · rw [same apart] at filled
      obtain ⟨rises, filled'⟩ := round.approximates.rises filled otherNotEntry
      exact ⟨rises, filled_set filled'⟩
  · intro other value filled otherNotEntry d strictly
    by_cases apart : other = node
    · subst apart
      rw [here] at filled
      cases filled
      apply joins.common
      intro pred member _
      exact strictly.pred ((mem_explore_preds reachable).mp member).2
    · rw [same apart] at filled
      exact round.approximates.covers filled otherNotEntry strictly
  · intro other member
    rcases List.mem_append.mp member with old | new
    · exact filled_set (round.filled other old)
    · rw [List.mem_singleton.mp new, here]
      rfl
  · intro other
    by_cases apart : other = node
    · rw [apart]
      exact tighter.mono (Nat.le_succ k)
    · exact kept apart (round.tight other)
  · intro other member
    by_cases apart : other = node
    · rw [apart]
      exact tighter
    · rcases List.mem_append.mp member with old | new
      · exact kept apart (round.tighter other old)
      · exact absurd (List.mem_singleton.mp new) apart

theorem steps {todo : List g.Node} (round : idoms.Round k done)
    (cut : g.postorder.reverse = g.entry :: (done ++ todo ++ rest)) :
    ∃ next, idoms.pass g.explore g.rank todo = .ok next ∧ next.Round k (done ++ todo) := by
  induction todo generalizing idoms done with
  | nil => exact ⟨idoms, rfl, by simpa using round⟩
  | cons node todo ih =>
    have here : g.postorder.reverse = g.entry :: (done ++ node :: (todo ++ rest)) := by
      rw [cut]
      simp
    obtain ⟨up, joined, joins, higher⟩ := round.exists_join here
    obtain ⟨next, passed, final⟩ := ih (round.step here joins higher) (by rw [cut]; simp)
    rw [List.append_assoc] at final
    exact ⟨next, pass_cons joined passed, final⟩

/-- The next pass starts where a pass ends. -/
theorem advance (round : idoms.Round k g.postorder.reverse.tail) : idoms.Round (k + 1) [] := by
  refine ⟨round.approximates, nofun, ?_, nofun⟩
  intro node nodes path short
  by_cases entry : node = g.entry
  · subst entry
    exact ⟨g.entry, round.approximates.root, path.mem_last⟩
  · exact round.tighter node (mem_rpo_tail.mpr ⟨⟨nodes, path⟩, entry⟩) nodes path short

theorem pass (round : idoms.Round k []) :
    ∃ next, idoms.pass g.explore g.rank g.postorder.reverse.tail = .ok next ∧ next.Round (k + 1) [] := by
  have whole : g.postorder.reverse = g.entry :: ([] ++ g.postorder.reverse.tail ++ []) := by
    rw [List.nil_append, List.append_nil]
    exact g.rpo_eq
  obtain ⟨next, passed, final⟩ := round.steps whole
  exact ⟨next, passed, final.advance⟩

/-- Passes that have come to rest are as good as any number of passes. -/
theorem resting (round : idoms.Round k [])
    (same : idoms.pass g.explore g.rank g.postorder.reverse.tail = .ok idoms) (more : Nat) :
    idoms.Round (k + more) [] := by
  induction more with
  | zero => exact round
  | succ more ih =>
    obtain ⟨next, passed, final⟩ := ih.pass
    cases same.symm.trans passed
    exact final

theorem settle (round : idoms.Round k []) (fuel : Nat) :
    ∃ final, idoms.settle g.explore g.rank g.postorder.reverse.tail fuel = .ok final ∧ final.Round (k + fuel) [] := by
  induction fuel generalizing idoms k with
  | zero => exact ⟨idoms, rfl, round⟩
  | succ fuel ih =>
    obtain ⟨next, passed, round'⟩ := round.pass
    rw [Idoms.settle, passed, ok_bind]
    split
    · next same => exact ⟨idoms, rfl, round.resting (same ▸ passed) _⟩
    · obtain ⟨final, settled, last⟩ := ih round'
      rw [Nat.add_right_comm] at last
      exact ⟨final, settled, last⟩

end Round

/-- The entry of every node is its immediate dominator. -/
structure Exact (idoms : Idoms g) : Prop where
  root : idoms[g.entry] = some g.entry
  unreachable : ∀ {node}, ¬ g.IsReachable node → idoms[node] = none
  immediate : ∀ {node}, g.IsReachable node → node ≠ g.entry → ∃ up, idoms[node] = some up ∧
    g.rank node < g.rank up ∧ g.Dominates up node ∧ ∀ a, g.StrictlyDominates a node → g.Dominates a up

theorem Round.exact {k : Nat} (round : idoms.Round k []) (enough : g.order ≤ k) : idoms.Exact where
  root := round.approximates.root
  unreachable {node} unreachable := by
    cases value : idoms[node] with
    | none => rfl
    | some up => exact absurd (round.approximates.reachable value) unreachable
  immediate {node} reachable notEntry := by
    have onSimple (nodes : List g.Node) (path : g.Path g.entry node nodes) (nodup : nodes.Nodup) :
        ∃ up, idoms[node] = some up ∧ up ∈ nodes := by
      have short : nodes.length ≤ g.order := by
        simpa using nodup.length_le_card
      exact round.tight node nodes path (short.trans enough)
    obtain ⟨nodes, path⟩ := reachable
    obtain ⟨part, here, nodup, -⟩ := path.simple
    obtain ⟨up, value, -⟩ := onSimple part here nodup
    refine ⟨up, value, (round.approximates.rises value notEntry).1, ?_, ?_⟩
    · intro nodes path
      obtain ⟨part, here, nodup, within⟩ := path.simple
      obtain ⟨other, value', member⟩ := onSimple part here nodup
      rw [value] at value'
      cases value'
      exact within member
    · intro a strictly
      exact round.approximates.covers value notEntry strictly

theorem strictly_of_rank (dominates : g.Dominates a b) (order : g.rank b < g.rank a) : g.StrictlyDominates a b := by
  refine ⟨?_, dominates⟩
  rintro rfl
  exact lt_irrefl _ order

theorem Exact.unique {other : Idoms g} (exact' : idoms.Exact) (exact'' : other.Exact) : idoms = other := by
  have same (node : g.Node) : idoms[node] = other[node] := by
    by_cases reachable : g.IsReachable node
    · by_cases entry : node = g.entry
      · rw [entry, exact'.root, exact''.root]
      · obtain ⟨up, value, rises, dominates, covers⟩ := exact'.immediate reachable entry
        obtain ⟨up', value', rises', dominates', covers'⟩ := exact''.immediate reachable entry
        have below := covers' up (strictly_of_rank dominates rises)
        have above := covers up' (strictly_of_rank dominates' rises')
        rw [value, value', below.antisymm above (dominates'.isReachable reachable)]
    · rw [exact'.unreachable reachable, exact''.unreachable reachable]
  apply Vector.ext
  intro i inside
  exact same ⟨i, inside⟩

end Idoms

theorem dominance_rpo (g : FlowGraph) : (g.dominance g.explore).rpo = g.postorder.reverse := by
  unfold dominance
  dsimp only
  split <;> rfl

/-- The table behind the dominance relation: it is found without a fault, it is exact, and a further pass changes
nothing. -/
theorem dominance_eq (g : FlowGraph) : ∃ found : Idoms g,
    (Idoms.initial g).settle g.explore g.rank g.postorder.reverse.tail (g.order * g.order + g.order + 1) = .ok found ∧
      g.dominance g.explore = { rpo := g.postorder.reverse, idoms := found.set g.entry.val none } ∧
      found.Exact ∧ found.pass g.explore g.rank g.postorder.reverse.tail = .ok found := by
  obtain ⟨found, settled, round⟩ := (Idoms.Round.first g).settle (g.order * g.order + g.order + 1)
  have exact' := round.exact (by omega)
  obtain ⟨next, passed, round'⟩ := round.pass
  have same := (round'.exact (by omega)).unique exact'
  have ranks : (fun node : g.Node => (Vector.ofFn fun node : g.Node => g.postorder.idxOf node)[node]) = g.rank := by
    funext node
    simp [rank]
  have table : g.findIdoms g.explore g.rank g.postorder.reverse = .ok (found.set g.entry.val none) := by
    rw [findIdoms]
    exact bind_eq_ok.mpr ⟨found, settled, rfl⟩
  refine ⟨found, settled, ?_, exact', same ▸ passed⟩
  rw [dominance, ranks, table]

namespace Dominance

variable {found : Idoms g} {d : Dominance g}

theorem contains_iff : (g.dominance g.explore).contains node = true ↔ g.IsReachable node := by
  rw [contains, dominance_rpo, List.contains_iff_mem, List.mem_reverse, mem_postorder]

theorem dominance_fault (g : FlowGraph) : (g.dominance g.explore).fault = none := by
  obtain ⟨found, -, table, -⟩ := g.dominance_eq
  rw [table]

theorem row_eq {α : Type} (value : α) : (g.dominance g.explore).row node value =
    if (g.dominance g.explore).contains node then .ok value else .error .missingRow := by
  simp only [row, dominance_fault]

theorem row_of_reachable {α : Type} (reachable : g.IsReachable node) (value : α) :
    (g.dominance g.explore).row node value = .ok value := by
  rw [row_eq, if_pos (contains_iff.mpr reachable)]

theorem row_eq_ok {α : Type} {value found : α} (row : (g.dominance g.explore).row node value = .ok found) :
    g.IsReachable node ∧ value = found := by
  rw [row_eq] at row
  split at row
  · next here => exact ⟨contains_iff.mp here, Except.ok.inj row⟩
  · cases row

theorem mem_chainUpTo (exact' : found.Exact) (table : d.idoms = found.set g.entry.val none) {fuel : Nat}
    (reachable : g.IsReachable node) (enough : g.order - g.rank node ≤ fuel) :
    a ∈ d.chainUpTo fuel node ↔ g.Dominates a node := by
  induction fuel generalizing node with
  | zero =>
    have bound := rank_lt node reachable
    omega
  | succ fuel ih =>
    have bound := rank_lt node reachable
    rw [chainUpTo, List.mem_cons, table, Idoms.getElem_set]
    by_cases entry : node = g.entry
    · subst entry
      rw [if_pos rfl]
      constructor
      · rintro (rfl | none)
        · exact .refl _
        · cases none
      · intro dominates
        exact .inl dominates.eq_entry
    · obtain ⟨up, value, rises, dominates, covers⟩ := exact'.immediate reachable entry
      rw [if_neg (Ne.symm entry), value]
      dsimp only
      rw [ih (dominates.isReachable reachable) (by omega)]
      constructor
      · rintro (rfl | higher)
        · exact .refl _
        · exact higher.trans dominates
      · intro dominated
        by_cases same : a = node
        · exact .inl same
        · exact .inr (covers a ⟨same, dominated⟩)

theorem chain_of_unreachable (exact' : found.Exact) (table : d.idoms = found.set g.entry.val none)
    (unreachable : ¬ g.IsReachable node) : d.chain node = [node] := by
  have notEntry : g.entry ≠ node := by
    rintro rfl
    exact unreachable (entry_isReachable g)
  have none : d.idoms[node] = none := by
    rw [table, Idoms.getElem_set, if_neg notEntry, exact'.unreachable unreachable]
  have single (fuel : Nat) : d.chainUpTo (fuel + 1) node = [node] := by
    rw [chainUpTo, none]
  rw [chain, ← Nat.sub_add_cancel (Nat.zero_lt_of_lt g.entry.isLt)]
  exact single _

end Dominance

namespace NodeLists

variable (lists : NodeLists g)

theorem getElem_push (owner node other : g.Node) :
    (lists.push owner node)[other] = if owner = other then lists[other] ++ [node] else lists[other] := by
  by_cases same : owner = other
  · subst same
    simp [push]
  · simp [push, Fin.ext_iff.not.mp same, same]

theorem getElem_empty (node : g.Node) : (empty g)[node] = [] := by simp [empty]

theorem getElem_children (idoms : Idoms g) (rpo : List g.Node) (up : g.Node) :
    (children idoms rpo)[up] = rpo.filter fun node => idoms[node] = some up := by
  induction rpo using List.reverseRecOn with
  | nil => exact getElem_empty up
  | append_singleton rpo node ih =>
    rw [children, List.foldl_append, List.foldl_cons, List.foldl_nil, ← children, List.filter_append, ← ih]
    simp only [List.filter_cons, List.filter_nil]
    cases value : idoms[node] with
    | none => simp
    | some idom =>
      dsimp only
      rw [getElem_push]
      by_cases same : idom = up <;> simp [same]

end NodeLists

/-- The dominance relation of every graph: which nodes it answers for, which nodes dominate which, and the tree of
immediate dominators. -/
theorem dominance_correct (g : FlowGraph) :
    let d := g.dominance g.explore
    (∀ node, d.contains node = true ↔ g.IsReachable node) ∧
    (∀ a b, g.IsReachable b → (d.dominates a b = true ↔ g.Dominates a b)) ∧
    (∀ a b, ¬ g.IsReachable b → (d.dominates a b = true ↔ a = b)) ∧
    d.idom g.entry = .ok none ∧
    (∀ node, g.IsReachable node → node ≠ g.entry → ∃ up, d.idom node = .ok (some up) ∧
      g.StrictlyDominates up node ∧ ∀ a, g.StrictlyDominates a node → g.Dominates a up) ∧
    (∀ up, g.IsReachable up → ∃ list, d.children up = .ok list ∧ list.Nodup ∧ list.Sublist g.postorder.reverse ∧
      ∀ node, node ∈ list ↔ d.idom node = .ok (some up)) ∧
    ∃ found : Idoms g, d.idoms = found.set g.entry.val none ∧
      found.pass g.explore g.postorder.idxOf g.postorder.reverse.tail = .ok found := by
  obtain ⟨found, -, table, exact', resting⟩ := g.dominance_eq
  have idoms : (g.dominance g.explore).idoms = found.set g.entry.val none := by rw [table]
  have other {node : g.Node} (notEntry : node ≠ g.entry) : (g.dominance g.explore).idoms[node] = found[node] := by
    rw [idoms, Idoms.getElem_set, if_neg (Ne.symm notEntry)]
  dsimp only
  refine ⟨fun node => Dominance.contains_iff, fun a b reachable => ?_, fun a b unreachable => ?_, ?_,
    fun node reachable notEntry => ?_, fun up reachable => ?_, found, idoms, resting⟩
  · rw [Dominance.dominates, List.contains_iff_mem]
    exact Dominance.mem_chainUpTo exact' idoms reachable (Nat.sub_le _ _)
  · rw [Dominance.dominates, List.contains_iff_mem, Dominance.chain_of_unreachable exact' idoms unreachable,
      List.mem_singleton]
  · rw [Dominance.idom, Dominance.row_of_reachable (entry_isReachable g), idoms, Idoms.getElem_set, if_pos rfl]
  · obtain ⟨up, value, rises, dominates, covers⟩ := exact'.immediate reachable notEntry
    exact ⟨up, by rw [Dominance.idom, Dominance.row_of_reachable reachable, other notEntry, value],
      Idoms.strictly_of_rank dominates rises, covers⟩
  · refine ⟨_, Dominance.row_of_reachable reachable _, ?_, ?_, fun node => ?_⟩
    · rw [NodeLists.getElem_children, dominance_rpo]
      exact (List.nodup_reverse.mpr g.postorder_nodup).filter _
    · rw [NodeLists.getElem_children, dominance_rpo]
      exact List.filter_sublist
    · rw [NodeLists.getElem_children, List.mem_filter, dominance_rpo, List.mem_reverse, mem_postorder,
        decide_eq_true_eq]
      constructor
      · rintro ⟨here, value⟩
        rw [Dominance.idom, Dominance.row_of_reachable here, value]
      · exact Dominance.row_eq_ok

/-- A loop with two ways in, a repeated edge, a node that is its own successor, an edge back to the entry, and a node
that no path leads to. -/
abbrev tangle : FlowGraph where
  order := 5
  entry := 0
  succs node := [[1, 2, 1], [2], [1, 3], [3, 0], [1]].getD node.val []

theorem tangle_path_first : tangle.Path tangle.entry 1 [1, 0] :=
  .step .single (by decide : (1 : tangle.Node) ∈ tangle.succs 0)

theorem tangle_path_second : tangle.Path tangle.entry 2 [2, 0] :=
  .step .single (by decide : (2 : tangle.Node) ∈ tangle.succs 0)

theorem tangle_path_third : tangle.Path tangle.entry 3 [3, 2, 0] :=
  tangle_path_second.step (by decide : (3 : tangle.Node) ∈ tangle.succs 2)

theorem tangle_reachable_ne {node : tangle.Node} (reachable : tangle.IsReachable node) : node ≠ 4 := by
  have closed : ∀ node : tangle.Node, node ≠ 4 → ∀ next ∈ tangle.succs node, next ≠ 4 := by decide
  exact reachable.induction (by decide) closed

theorem tangle_dominance :
    let d := tangle.dominance tangle.explore
    tangle.IsReachable 3 ∧ (3 : tangle.Node) ≠ tangle.entry ∧ ¬ tangle.IsReachable 4 ∧
      d.dominates 2 3 = true ∧ d.dominates 1 3 = false ∧ d.dominates 1 4 = false ∧
      ∃ up, d.idom 3 = .ok (some up) ∧ tangle.Dominates 2 up := by
  obtain ⟨-, dominates, apart, -, immediate, -⟩ := dominance_correct tangle
  have reachable : tangle.IsReachable 3 := ⟨_, tangle_path_third⟩
  have unreachable : ¬ tangle.IsReachable 4 := fun found => tangle_reachable_ne found rfl
  have notEntry : (3 : tangle.Node) ≠ tangle.entry := by decide
  have through : tangle.Dominates 2 3 := by
    -- the only edges to node 3 come from node 2 and from itself
    have only (node : tangle.Node) : 3 ∈ tangle.succs node → node = 2 ∨ node = 3 := by
      revert node
      decide
    intro nodes path
    generalize last : (3 : tangle.Node) = node at path
    induction path with
    | single => exact absurd last notEntry
    | step path edge ih =>
      subst last
      apply List.mem_cons_of_mem
      rcases only _ edge with rfl | rfl
      · exact path.mem_last
      · exact ih rfl
  refine ⟨reachable, notEntry, unreachable, (dominates 2 3 reachable).mpr through, ?_, ?_, ?_⟩
  · refine Bool.eq_false_iff.mpr fun all => ?_
    exact absurd ((dominates 1 3 reachable).mp all _ tangle_path_third) (by decide)
  · exact Bool.eq_false_iff.mpr fun same => absurd ((apart 1 4 unreachable).mp same) (by decide)
  · obtain ⟨up, found, -, covers⟩ := immediate 3 reachable notEntry
    exact ⟨up, found, covers 2 ⟨by decide, through⟩⟩

end RegisterAllocator.FlowGraph
