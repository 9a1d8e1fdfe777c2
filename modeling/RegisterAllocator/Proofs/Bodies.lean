import RegisterAllocator.Machine.Layout
import RegisterAllocator.Proofs.Reachability
import RegisterAllocator.Proofs.Stored

/-!
# Bodies of stored functions

What the body of a function has to do with the sequences that a machine stands for: its blocks are those of the layout
in order, their instructions those of the code with handles of blocks replaced by positions, and control goes from the
end of a block to the next one (`Formed.body_eq`).
-/

namespace RegisterAllocator

namespace Inst

variable {ε τ τ' : Type}

/-- Looking up the target leaves the registers of an instruction alone. -/
structure Retargeted (find : τ → Except ε τ') (inst : Inst τ) (inst' : Inst τ') : Prop where
  uses : inst'.uses = inst.uses
  defs : inst'.defs = inst.defs
  copy : inst'.copy? = inst.copy?
  fallsThrough : inst'.fallsThrough = inst.fallsThrough
  targets : List.Forall₂ (fun target target' => find target = .ok target') inst.targets inst'.targets

theorem retargeted {find : τ → Except ε τ'} {inst : Inst τ} {inst' : Inst τ'}
    (found : inst.mapTargetM find = .ok inst') : Retargeted find inst inst' := by
  cases inst with
  | jump target =>
    simp only [mapTargetM, bind_eq_ok, pure_eq_ok] at found
    obtain ⟨target', located, rfl⟩ := found
    exact ⟨rfl, rfl, rfl, rfl, .cons located .nil⟩
  | branch op rs1 rs2 target =>
    simp only [mapTargetM, bind_eq_ok, pure_eq_ok] at found
    obtain ⟨target', located, rfl⟩ := found
    exact ⟨rfl, rfl, rfl, rfl, .cons located .nil⟩
  | _ =>
    cases found
    exact ⟨rfl, rfl, rfl, rfl, .nil⟩

theorem exists_mapTargetM_eq_ok {find : τ → Except ε τ'} {inst : Inst τ}
    (each : ∀ target ∈ inst.targets, ∃ target', find target = .ok target') :
    ∃ inst', inst.mapTargetM find = .ok inst' := by
  cases inst with
  | jump target =>
    obtain ⟨target', located⟩ := each target (by simp [targets])
    exact ⟨jump target', by simp only [mapTargetM, located]; rfl⟩
  | branch op rs1 rs2 target =>
    obtain ⟨target', located⟩ := each target (by simp [targets])
    exact ⟨branch op rs1 rs2 target', by simp only [mapTargetM, located]; rfl⟩
  | _ => exact ⟨_, rfl⟩

end Inst

namespace Machine

def blockInsts (m : Machine) (b : BlockId) : Except Fault (List (Inst BlockId)) := do (← m.code b).mapM m.inst

variable {m : Machine} {code : BlockId → List InstId} {layout : FuncId → List BlockId} {f : FuncId} {body : Body}

theorem Formed.layout_eq (formed : m.Formed code layout) {blocks : List BlockId} (laid : m.layout f = .ok blocks) :
    blocks = layout f := by
  have stored : (Chained.ends? (ν := BlockId) m f).isSome := by
    simp only [Machine.layout, Chain.toList, Chain.Cursor.start, bind_eq_ok, Chain.ends_eq_ok] at laid
    obtain ⟨_, ⟨_, stored, _⟩, _⟩ := laid
    rw [stored]
    rfl
  rw [Machine.layout, Chain.toList_linked formed.layout stored] at laid
  exact (Except.ok.inj laid).symm

theorem Formed.layout_ok (formed : m.Formed code layout) {node : FuncNode} (found : m.func f = .ok node) :
    m.layout f = .ok (layout f) :=
  Chain.toList_linked formed.layout (by simp [Chained.ends?, func_eq_ok.mp found])

theorem layout_ne_nil (found : m.body f = .ok body) {blocks : List BlockId} (laid : m.layout f = .ok blocks) :
    blocks ≠ [] := by
  rintro rfl
  simp only [Machine.body, bind_eq_ok, laid] at found
  obtain ⟨_, -, _, -, _, -, _, graph, -⟩ := found
  simp only [flowGraph, laid, ok_bind] at graph
  cases graph

theorem Formed.code_eq (formed : m.Formed code layout) {b : BlockId} {ids : List InstId} (coded : m.code b = .ok ids) :
    ids = code b := by
  have stored : (Chained.ends? (ν := InstId) m b).isSome := by
    simp only [Machine.code, Chain.toList, Chain.Cursor.start, bind_eq_ok, Chain.ends_eq_ok] at coded
    obtain ⟨_, ⟨_, stored, _⟩, _⟩ := coded
    rw [stored]
    rfl
  rw [Machine.code, Chain.toList_linked formed.code stored] at coded
  exact (Except.ok.inj coded).symm

theorem Formed.code_ok (formed : m.Formed code layout) {b : BlockId} (member : b ∈ layout f) :
    m.code b = .ok (code b) := by
  obtain ⟨_, _, _, linked⟩ := formed.layout.exists_links member
  obtain ⟨node, stored, -⟩ := Option.map_eq_some_iff.mp linked
  exact Chain.toList_linked formed.code (by simp [Chained.ends?, stored])

/-- The block `block` of a body with the given layout is what the handle `b` names. -/
structure Shows (m : Machine) (layout : List BlockId) (ids : List InstId) (b : BlockId) (block : Block) : Prop where
  label : m.label b = .ok block.label
  insts : List.Forall₂ (fun i inst => ∃ stored, m.inst i = .ok stored ∧
    stored.mapTargetM (position layout) = .ok inst) ids block.insts

theorem Formed.codes_eq (formed : m.Formed code layout) {blocks : List BlockId} {ids : List (List InstId)}
    (coded : List.Forall₂ (fun b ids => m.code b = .ok ids) blocks ids) : ids = blocks.map code := by
  induction coded with
  | nil => rfl
  | cons first _ ih => rw [List.map_cons, formed.code_eq first, ih]

theorem shows_of_read {all blocks : List BlockId} {insts : List (List (Inst BlockId))} {shown : List Block}
    (read : List.Forall₂ (fun ids insts => List.Forall₂ (fun i inst => m.inst i = .ok inst) ids insts)
      (blocks.map code) insts)
    (located : List.Forall₂ (fun (pair : BlockId × List (Inst BlockId)) block =>
      ∃ insts, List.Forall₂ (fun inst inst' => inst.mapTargetM (position all) = .ok inst') pair.2 insts ∧
        ∃ label, m.label pair.1 = .ok label ∧ { label, insts } = block) (blocks.zip insts) shown) :
    List.Forall₂ (fun b block => Shows m all (code b) b block) blocks shown := by
  induction blocks generalizing insts shown with
  | nil =>
    cases located
    exact .nil
  | cons b blocks ih =>
    cases read with
    | cons readFirst readRest =>
      cases located with
      | cons first rest =>
        obtain ⟨targeted, targets, label, labelled, rfl⟩ := first
        exact .cons ⟨labelled, forall₂_comp readFirst targets⟩ (ih readRest rest)

theorem map_idxOf_self {α : Type} [DecidableEq α] {list : List α} (nodup : list.Nodup) :
    list.map list.idxOf = List.range list.length := by
  apply List.ext_getElem
  · simp
  · intro k _ _
    simp [nodup.idxOf_getElem]

theorem Formed.body_shows (formed : m.Formed code layout) (found : m.body f = .ok body) :
    m.layout f = .ok (layout f) ∧ m.instList f = .ok ((layout f).flatMap code) ∧
      List.Forall₂ (fun b block => Shows m (layout f) (code b) b block) (layout f) body.blocks := by
  simp only [Machine.body, bind_eq_ok, pure_eq_ok, mapM_eq_ok] at found
  obtain ⟨blocks, laid, ids, coded, insts, read, -, -, -, -, shown, located, exits, -, rfl⟩ := found
  cases formed.layout_eq laid
  have whole := formed.codes_eq coded
  subst whole
  refine ⟨laid, ?_, shows_of_read read located⟩
  rw [instList, laid, ok_bind, mapM_eq_ok.mpr coded]
  rfl

theorem position_eq_ok {blocks : List BlockId} (nodup : blocks.Nodup) {b : BlockId} {k : Nat} :
    position blocks b = .ok k ↔ blocks[k]? = some b := by
  have found : position blocks b = .ok k ↔ blocks.idxOf? b = some k := by
    unfold position
    cases blocks.idxOf? b <;> simp
  rw [found, List.idxOf?_eq_some_iff, List.getElem?_eq_some_iff]
  refine exists_congr fun bound => and_iff_left_of_imp fun here j less there => ?_
  have same := (nodup.getElem_inj_iff).mp (there.trans here.symm)
  omega

theorem Formed.fallsThrough_eq (formed : m.Formed code layout) {all : List BlockId} {b : BlockId} {block : Block}
    {falls : Bool} (shown : Shows m all (code b) b block) (left : m.fallsThrough b = .ok falls) :
    falls = block.fallsThrough := by
  simp only [fallsThrough, codeEnds, bind_eq_ok, Chain.ends_eq_ok] at left
  obtain ⟨found, stored, left⟩ := left
  rw [formed.code.ends b found stored] at left
  dsimp only at left
  unfold Block.fallsThrough
  cases last : (code b).getLast? with
  | none =>
    have empty : block.insts = [] := by
      have length := shown.insts.length_eq
      rw [List.getLast?_eq_none_iff.mp last] at length
      exact List.length_eq_zero_iff.mp length.symm
    rw [last] at left
    rw [empty]
    exact (Except.ok.inj left).symm
  | some i =>
    rw [List.getLast?_eq_getElem?] at last
    obtain ⟨inst, located, stored, read, target⟩ := forall₂_getElem? shown.insts last
    rw [List.getLast?_eq_getElem?, ← shown.insts.length_eq, located]
    rw [List.getLast?_eq_getElem?, last, map_eq_ok] at left
    obtain ⟨stored', read', rfl⟩ := left
    rw [read] at read'
    cases read'
    exact (Inst.retargeted target).fallsThrough.symm

theorem Formed.exit_eq (formed : m.Formed code layout) {all : List BlockId} {b : BlockId} {block : Block} {k : Nat}
    {next : Option BlockId} (shown : Shows m all (code b) b block) (located : (layout f)[k]? = some b)
    (left : m.exit? b = .ok next) : next = if block.fallsThrough then (layout f)[k + 1]? else none := by
  simp only [exit?, bind_eq_ok] at left
  obtain ⟨falls, fell, left⟩ := left
  rw [formed.fallsThrough_eq shown fell] at left
  split at left
  · next falls =>
    rw [if_pos falls]
    simp only [blockLinks, bind_eq_ok, Chain.links_eq_ok, pure_eq_ok] at left
    obtain ⟨place, found, rfl⟩ := left
    have split : layout f = (layout f).take k ++ b :: (layout f).drop (k + 1) := by
      obtain ⟨bound, rfl⟩ := List.getElem?_eq_some_iff.mp located
      simp
    rw [formed.layout.links f _ b _ split] at found
    cases found
    simp
  · next falls =>
    rw [if_neg falls]
    cases left
    rfl

theorem Formed.code_disjoint (formed : m.Formed code layout) {b c : BlockId} {i : InstId} (inB : i ∈ code b)
    (inC : i ∈ code c) : b = c := by
  obtain ⟨_, _, _, found⟩ := formed.code.exists_links inB
  exact Option.some.inj ((formed.code.owner_eq found).mpr inC)

theorem Formed.layout_disjoint (formed : m.Formed code layout) {b : BlockId} {g : FuncId} (inF : b ∈ layout f)
    (inG : b ∈ layout g) : f = g := by
  obtain ⟨_, _, _, found⟩ := formed.layout.exists_links inF
  exact Option.some.inj ((formed.layout.owner_eq found).mpr inG)

theorem Formed.outside (formed : m.Formed code layout) {g : FuncId} (other : g ≠ f) {b : BlockId} (inG : b ∈ layout g)
    {i : InstId} (inCode : i ∈ code b) : i ∉ (layout f).flatMap code := by
  intro inside
  obtain ⟨c, inF, inCode'⟩ := List.mem_flatMap.mp inside
  cases formed.code_disjoint inCode inCode'
  exact other (formed.layout_disjoint inG inF)

theorem Formed.nodup_insts (formed : m.Formed code layout) (f : FuncId) : ((layout f).flatMap code).Nodup :=
  List.nodup_flatMap.mpr ⟨fun b _ => formed.code.nodup b, (formed.layout.nodup f).imp fun differ _ inB inC =>
    differ (formed.code_disjoint inB inC)⟩

theorem length_insts {all blocks : List BlockId} {shown : List Block}
    (shows : List.Forall₂ (fun b block => Shows m all (code b) b block) blocks shown) :
    (blocks.flatMap code).length = (shown.flatMap Block.insts).length := by
  induction shows with
  | nil => rfl
  | cons first _ ih => simp only [List.flatMap_cons, List.length_append, ih, first.insts.length_eq]

theorem exit?_eq {blocks : List Block} {k : Nat} {block : Block} (located : blocks[k]? = some block) :
    Block.exit? blocks k = if block.fallsThrough ∧ k + 1 < blocks.length then some (k + 1) else none := by
  simp only [Block.exit?, located, Option.bind_eq_bind, Option.bind_some]
  split <;> simp_all [guard, failure]

theorem Formed.exits_eq (formed : m.Formed code layout) {shown : List Block} {exits : List (Option Nat)}
    (shows : List.Forall₂ (fun b block => Shows m (layout f) (code b) b block) (layout f) shown)
    (left : List.Forall₂ (fun b exit => ∃ next, m.exit? b = .ok next ∧
      next.mapM (position (layout f)) = .ok exit) (layout f) exits) :
    exits = (List.range shown.length).map (Block.exit? shown) := by
  have nodup := formed.layout.nodup f
  -- Position by position: what a block exits to is looked up by handle on one side and by position on the other.
  apply List.ext_getElem?
  intro k
  cases located : (layout f)[k]? with
  | none =>
    have beyond := List.getElem?_eq_none_iff.mp located
    rw [List.getElem?_eq_none (left.length_eq ▸ beyond),
      List.getElem?_eq_none (by simpa [shows.length_eq] using beyond)]
  | some b =>
    obtain ⟨block, place, shown'⟩ := forall₂_getElem? shows located
    obtain ⟨exit, found, next, leaves, placed⟩ := forall₂_getElem? left located
    have bound : k < shown.length := (List.getElem?_eq_some_iff.mp place).1
    rw [formed.exit_eq shown' located leaves] at placed
    rw [found, List.getElem?_map, List.getElem?_range bound, Option.map_some, exit?_eq place]
    by_cases falls : block.fallsThrough = true
    · rw [if_pos falls] at placed
      cases after : (layout f)[k + 1]? with
      | none =>
        have beyond := List.getElem?_eq_none_iff.mp after
        rw [after] at placed
        rw [shows.length_eq] at beyond
        rw [if_neg (by omega)]
        cases placed
        rfl
      | some c =>
        have within := (List.getElem?_eq_some_iff.mp after).1
        rw [after] at placed
        rw [shows.length_eq] at within
        rw [if_pos ⟨falls, within⟩]
        have here := (position_eq_ok nodup).mpr after
        simp only [Option.mapM_some, here] at placed
        cases placed
        rfl
    · rw [if_neg falls] at placed
      rw [if_neg (fun both => falls both.1)]
      cases placed
      rfl

/-- The body of a function of a machine that stands for sequences: control goes from the end of a block to the next
block, and no instruction has two numbers. -/
theorem Formed.body_eq (formed : m.Formed code layout) (found : m.body f = .ok body) :
    body = Body.ofBlocks body.blocks := by
  have shows := (formed.body_shows found).2.2
  simp only [Machine.body, bind_eq_ok, pure_eq_ok, mapM_eq_ok] at found
  obtain ⟨blocks, laid, ids, coded, insts, read, -, -, -, -, shown, located, exits, left, rfl⟩ := found
  cases formed.layout_eq laid
  have whole := formed.codes_eq coded
  subst whole
  have nodup : ((layout f).map code).flatten.Nodup := formed.nodup_insts f
  have length : ((layout f).map code).flatten.length = (shown.flatMap Block.insts).length := length_insts shows
  simp only [Body.ofBlocks, Body.mk.injEq, true_and]
  exact ⟨formed.exits_eq shows left, by rw [map_idxOf_self nodup, length]⟩

theorem Formed.targets_lt (formed : m.Formed code layout) (found : m.body f = .ok body) :
    ∀ block ∈ body.blocks, ∀ inst ∈ block.insts, ∀ target ∈ inst.targets, target < body.size := by
  intro block inBody inst inBlock target inTargets
  have shows := (formed.body_shows found).2.2
  obtain ⟨b, -, shown⟩ := forall₂_mem_right shows inBody
  obtain ⟨i, -, stored, -, retargeted⟩ := forall₂_mem_right shown.insts inBlock
  obtain ⟨c, -, located⟩ := forall₂_mem_right (Inst.retargeted retargeted).targets inTargets
  rw [position_eq_ok (formed.layout.nodup f)] at located
  rw [Body.size, ← shows.length_eq]
  exact (List.getElem?_eq_some_iff.mp located).1

end Machine

/-! ## When a body can be read -/

theorem FlowGraph.val_of_node? {order number : Nat} {node : Fin order} (found : node? order number = some node) :
    node.val = number := by
  unfold node? at found
  split at found
  · cases found
    rfl
  · cases found

namespace Machine

variable {m : Machine} {code : BlockId → List InstId} {layout : FuncId → List BlockId} {f : FuncId}

/-- The stored code of a function is closed: its instructions can be read, and their targets are blocks of the
function. -/
def Closed (m : Machine) (code : BlockId → List InstId) (layout : List BlockId) : Prop :=
  ∀ b ∈ layout, ∀ i ∈ code b, ∃ inst, m.inst i = .ok inst ∧ ∀ target ∈ inst.targets, target ∈ layout

theorem Formed.block_stored (formed : m.Formed code layout) {b : BlockId} (member : b ∈ layout f) :
    ∃ node, m.blocks.get? b.slot = some node := by
  obtain ⟨_, _, _, linked⟩ := formed.layout.exists_links member
  obtain ⟨node, stored, -⟩ := Option.map_eq_some_iff.mp linked
  exact ⟨node, stored⟩

theorem Formed.inst_ok (formed : m.Formed code layout) {b : BlockId} {i : InstId} (member : i ∈ code b) :
    ∃ inst, m.inst i = .ok inst := by
  obtain ⟨_, _, _, linked⟩ := formed.code.exists_links member
  obtain ⟨node, stored, -⟩ := Option.map_eq_some_iff.mp linked
  exact ⟨node.inst, inst_eq_ok.mpr (by rw [stored]; rfl)⟩

theorem Formed.exit_ok (formed : m.Formed code layout) (closed : m.Closed code (layout f)) {b : BlockId}
    (member : b ∈ layout f) : ∃ next, m.exit? b = .ok next ∧ ∀ c ∈ next, c ∈ layout f := by
  obtain ⟨node, stored⟩ := formed.block_stored member
  have ends : m.codeEnds b = .ok node.code := Chain.ends_eq_ok.mpr (by simp [Chained.ends?, stored])
  have falls : ∃ falls, m.fallsThrough b = .ok falls := by
    simp only [fallsThrough, ends, ok_bind]
    split
    · next last found =>
      have shape := formed.code.ends b node.code (Chain.ends_eq_ok.mp ends)
      rw [shape] at found
      obtain ⟨inst, read, -⟩ := closed b member last (List.mem_of_getLast? found)
      exact ⟨inst.fallsThrough, map_eq_ok.mpr ⟨inst, read, rfl⟩⟩
    · exact ⟨true, rfl⟩
  obtain ⟨falls, left⟩ := falls
  obtain ⟨pre, post, split⟩ := List.append_of_mem member
  have place : m.blockLinks b = .ok { next := post.head?, prev := pre.getLast?, owner := some f } :=
    Chain.links_eq_ok.mpr (formed.layout.links f pre b post split)
  cases falls with
  | true =>
    refine ⟨post.head?, ?_, fun c next => ?_⟩
    · simp only [exit?, left, place, ok_bind]
      rfl
    · rw [split]
      exact List.mem_append_right _ (List.mem_cons_of_mem _ (List.mem_of_head? next))
  | false =>
    refine ⟨none, ?_, nofun⟩
    simp only [exit?, left, ok_bind]
    rfl

theorem Formed.succs_ok (formed : m.Formed code layout) (closed : m.Closed code (layout f)) {b : BlockId}
    (member : b ∈ layout f) : ∃ succs, m.succs b = .ok succs ∧ ∀ c ∈ succs, c ∈ layout f := by
  obtain ⟨next, exits, inLayout⟩ := formed.exit_ok closed member
  obtain ⟨targets, read⟩ : ∃ targets, (code b).mapM (fun i => Inst.targets <$> m.inst i) = .ok targets := by
    apply exists_mapM_eq_ok
    intro i inCode
    obtain ⟨inst, read, -⟩ := closed b member i inCode
    exact ⟨inst.targets, map_eq_ok.mpr ⟨inst, read, rfl⟩⟩
  refine ⟨targets.flatten ++ next.toList, ?_, fun c inSuccs => ?_⟩
  · simp only [succs, formed.code_ok member, ok_bind, read, exits]
    rfl
  · rcases List.mem_append.mp inSuccs with target | last
    · obtain ⟨list, inTargets, inList⟩ := List.mem_flatten.mp target
      obtain ⟨i, inCode, found⟩ := forall₂_mem_right (mapM_eq_ok.mp read) inTargets
      obtain ⟨inst, read, inside⟩ := closed b member i inCode
      rw [read, map_eq_ok] at found
      obtain ⟨_, same, rfl⟩ := found
      cases same
      exact inside c inList
    · exact inLayout c (Option.mem_toList.mp last)

theorem Formed.flowGraph_ok (formed : m.Formed code layout) (closed : m.Closed code (layout f))
    (laid : m.layout f = .ok (layout f)) (filled : layout f ≠ []) : ∃ g, m.flowGraph f = .ok g := by
  have entry : 0 < (layout f).length ∧ 0 < (m.graphBlocks (layout f)).length := by
    have first := List.length_pos_iff.mpr filled
    refine ⟨first, ?_⟩
    rw [graphBlocks, List.length_append]
    omega
  -- The nodes of the function's own blocks come first, and their rows can be read.
  have row {k : Nat} (inside : k < (layout f).length) : ∃ succs, ((m.graphBlocks (layout f)).map m.succs)[k]? =
      some (.ok succs) ∧ ∀ c ∈ succs, (m.graphBlocks (layout f)).idxOf c < (layout f).length := by
    obtain ⟨succs, read, inLayout⟩ := formed.succs_ok closed (List.getElem_mem inside)
    refine ⟨succs, ?_, fun c member => ?_⟩
    · rw [List.getElem?_map, graphBlocks, List.getElem?_append_left inside, List.getElem?_eq_getElem inside,
        Option.map_some, read]
    · rw [graphBlocks, List.idxOf_append_of_mem (inLayout c member)]
      exact List.idxOf_lt_length_of_mem (inLayout c member)
  simp only [flowGraph, laid, ok_bind, dif_pos entry]
  split
  · next fault found =>
    obtain ⟨node, visited, failed⟩ := List.exists_of_findSome?_eq_some found
    have inside : node.val < (layout f).length := by
      refine @FlowGraph.walk_closed _ (fun node => node.val < (layout f).length) ?_ _ _ _ ?_ ?_ node
        (List.mem_reverse.mp visited)
      · intro node inside next member
        obtain ⟨succs, here, within⟩ := row inside
        simp only [FlowGraph.ofLists, List.getElem?_toArray, List.getElem?_map, here] at member
        obtain ⟨_, numbers, numbered⟩ := List.mem_filterMap.mp member
        obtain ⟨c, inSuccs, rfl⟩ := List.mem_map.mp numbers
        rw [FlowGraph.val_of_node? numbered]
        exact within c inSuccs
      · intro node member
        rw [List.mem_singleton.mp member]
        exact entry.1
      · nofun
    obtain ⟨succs, here, -⟩ := row inside
    rw [here] at failed
    cases failed
  · exact ⟨_, rfl⟩

theorem Formed.body_ok (formed : m.Formed code layout) (closed : m.Closed code (layout f))
    (laid : m.layout f = .ok (layout f)) (filled : layout f ≠ []) : ∃ body, m.body f = .ok body := by
  have located {b : BlockId} (member : b ∈ layout f) : ∃ k, position (layout f) b = .ok k := by
    obtain ⟨k, here⟩ := List.mem_iff_getElem?.mp member
    exact ⟨k, (position_eq_ok (formed.layout.nodup f)).mpr here⟩
  obtain ⟨ids, coded⟩ : ∃ ids, (layout f).mapM m.code = .ok ids :=
    exists_mapM_eq_ok fun b member => ⟨_, formed.code_ok member⟩
  have whole := formed.codes_eq (mapM_eq_ok.mp coded)
  obtain ⟨insts, read⟩ : ∃ insts, ids.mapM (List.mapM m.inst) = .ok insts := by
    apply exists_mapM_eq_ok
    intro list inIds
    rw [whole] at inIds
    obtain ⟨b, member, rfl⟩ := List.mem_map.mp inIds
    apply exists_mapM_eq_ok
    intro i inCode
    obtain ⟨inst, found, -⟩ := closed b member i inCode
    exact ⟨inst, found⟩
  obtain ⟨g, graph⟩ := formed.flowGraph_ok closed laid filled
  obtain ⟨checked, check⟩ : ∃ checked, (layout f).reverse.mapM (fun b => do
      (← m.succs b).mapM (position (layout f))) = .ok checked := by
    apply exists_mapM_eq_ok
    intro b member
    obtain ⟨succs, found, inLayout⟩ := formed.succs_ok closed (List.mem_reverse.mp member)
    rw [found, ok_bind]
    exact exists_mapM_eq_ok fun c inSuccs => located (inLayout c inSuccs)
  obtain ⟨exits, left⟩ : ∃ exits, (layout f).mapM (fun b => do (← m.exit? b).mapM (position (layout f))) =
      .ok exits := by
    apply exists_mapM_eq_ok
    intro b member
    obtain ⟨next, found, inLayout⟩ := formed.exit_ok closed member
    rw [found, ok_bind]
    cases next with
    | none => exact ⟨none, rfl⟩
    | some c =>
      obtain ⟨k, here⟩ := located (inLayout c rfl)
      exact ⟨some k, by simp [Option.mapM_some, here]⟩
  obtain ⟨blocks, shown⟩ : ∃ blocks, ((layout f).zip insts).mapM (fun row => do
      let insts ← row.2.mapM (Inst.mapTargetM (position (layout f)))
      return ({ label := ← m.label row.1, insts } : Block)) = .ok blocks := by
    apply exists_mapM_eq_ok
    rintro ⟨b, list⟩ member
    obtain ⟨inLayout, inInsts⟩ := List.of_mem_zip member
    obtain ⟨node, stored⟩ := formed.block_stored inLayout
    have label : m.label b = .ok node.label := map_eq_ok.mpr ⟨node, Pool.get_eq_ok.mpr stored, rfl⟩
    obtain ⟨targeted, found⟩ : ∃ targeted, list.mapM (Inst.mapTargetM (position (layout f))) = .ok targeted := by
      obtain ⟨handles, inIds, listed⟩ := forall₂_mem_right (mapM_eq_ok.mp read) inInsts
      rw [whole] at inIds
      obtain ⟨c, inLayout, rfl⟩ := List.mem_map.mp inIds
      apply exists_mapM_eq_ok
      intro inst inList
      obtain ⟨i, inCode, found⟩ := forall₂_mem_right (mapM_eq_ok.mp listed) inList
      obtain ⟨_, found', inside⟩ := closed c inLayout i inCode
      rw [found] at found'
      cases found'
      exact Inst.exists_mapTargetM_eq_ok fun target inTargets => located (inside target inTargets)
    simp only [found, label, ok_bind]
    exact ⟨_, rfl⟩
  simp only [Machine.body, bind_eq_ok, pure_eq_ok]
  exact ⟨_, _, laid, _, coded, _, read, _, graph, _, check, _, shown, _, left, rfl⟩

end Machine

end RegisterAllocator
