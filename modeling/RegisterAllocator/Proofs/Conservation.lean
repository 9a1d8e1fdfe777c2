import RegisterAllocator.Proofs.Loaded
import RegisterAllocator.Proofs.Simulation
import RegisterAllocator.Proofs.Weaving

/-!
# Conservation of meaning

A block means the same before and after allocation (`allocation_conserves_blocks`): started on states that agree on
what is live, the code before and the code after go through the same instructions with the same values, and end in
states that agree again. The code afterwards is the one that the allocation gives (`Machine.Formed.allocate_code`).
-/

namespace RegisterAllocator

/-! ## Stored blocks -/

theorem Allocation.copy?_of_dropped {a : Allocation} {p : Patch} {reg : Reg} (found : a.dropped? p = some reg) :
    p.inst.copy? = some (reg, reg) := by
  simp only [dropped?] at found
  split at found
  · simp only [Patch.identity?, Option.bind_eq_bind, Option.bind_eq_some_iff, Option.guard_eq_some', pure,
      Option.some.injEq] at found
    obtain ⟨_, _, _, _, ⟨dst, src⟩, copies, _, same, rfl⟩ := found
    dsimp only at same
    rw [copies, same]
  · cases found

namespace Machine

/-- The instruction of a handle, marked by whether the handle is one of the given ones. -/
def markedInst (m : Machine) (own : List InstId) (i : InstId) : Except Fault (Bool × Inst BlockId) := do
  return (decide (i ∈ own), ← m.inst i)

def markedInsts (m : Machine) (own : List InstId) (b : BlockId) : Except Fault (List (Bool × Inst BlockId)) := do
  (← m.code b).mapM (m.markedInst own)

variable {start m : Machine} {code : BlockId → List InstId} {layout : FuncId → List BlockId} {f : FuncId} {body : Body}

theorem markedInst_eq_ok {own : List InstId} {i : InstId} {inst : Inst BlockId} (found : m.inst i = .ok inst) :
    m.markedInst own i = .ok (decide (i ∈ own), inst) := by
  simp only [markedInst, found]
  rfl

theorem Holds.marked {name : Nat → BlockId} {ids own : List InstId} {insts : List (Inst Nat)}
    (holds : m.Holds name ids insts) (others : ∀ i ∈ ids, i ∉ own) :
    List.Forall₂ (fun i marked => m.markedInst own i = .ok marked) ids
      ((insts.map (Inst.mapTarget name)).map (Prod.mk false)) := by
  induction holds with
  | nil => exact .nil
  | @cons i inst ids insts first _ ih =>
    refine .cons ?_ (ih fun j member => others j (List.mem_cons_of_mem _ member))
    rw [markedInst_eq_ok first, decide_eq_false (others i List.mem_cons_self)]

theorem map_mapTarget_flatMap (name : Nat → BlockId) {transfers : List Transfer} {access : Transfer → List (Inst Nat)}
    {access' : Transfer → List (Inst BlockId)} (same : ∀ u, (access u).map (Inst.mapTarget name) = access' u) :
    (transfers.flatMap access).map (Inst.mapTarget name) = transfers.flatMap access' := by
  rw [List.map_flatMap]
  exact List.flatMap_congr fun u _ => same u

theorem Woven.replaced (formed : start.Formed code layout) {name : Nat → BlockId} {patch : InstId → Patch}
    {gone : List InstId} {lead trail : InstId → List InstId}
    (woven : Woven start code layout f name patch gone lead trail m) {i : InstId}
    (member : i ∈ (layout f).flatMap code) {a : Allocation} {p : Patch} {loads stores : List Transfer}
    (carries : p.Carries a.plan.slots a.plan.slots loads stores) (renamed : patch i = p.rename a.rename)
    (dropped : i ∈ gone ↔ (a.dropped? (patch i)).isSome) :
    ∃ marked, List.Forall₂ (fun j marked => m.markedInst ((layout f).flatMap code) j = .ok marked)
        (piece lead trail gone i) marked ∧ Replaced a.plan.slots a.rename name p.source marked := by
  have stands := woven.stands i member
  have new (j : InstId) (around : j ∈ lead i ++ trail i) : j ∉ (layout f).flatMap code := fun own =>
    woven.new_ne formed member around own rfl
  have inst : (p.rename a.rename).inst.mapTarget name = ((p.source.mapTarget name).mapUses
      (a.rename ∘ substitute loads)).mapDefs (a.rename ∘ substitute stores) := by
    rw [carries.inst_renamed, Inst.mapTarget_mapDefs, Inst.mapTarget_mapUses]
  rw [renamed] at stands dropped
  have before := stands.before.marked fun j inLead => new j (List.mem_append_left _ inLead)
  have after := stands.after.marked fun j inTrail => new j (List.mem_append_right _ inTrail)
  rw [show (p.rename a.rename).before = p.before from rfl, carries.before,
    map_mapTarget_flatMap name fun _ => Inst.map_mapTarget_loadSlot ..] at before
  rw [show (p.rename a.rename).after = p.after from rfl, carries.after,
    map_mapTarget_flatMap name fun _ => Inst.map_mapTarget_storeSlot ..] at after
  by_cases out : i ∈ gone
  · refine ⟨_, List.rel_append (List.rel_append before (?_ : List.Forall₂ _ _ [])) after, p, loads, stores, [], rfl,
      carries, rfl, .inr ⟨rfl, ?_⟩⟩
    · rw [if_pos out]
      exact .nil
    · obtain ⟨reg, found⟩ := Option.isSome_iff_exists.mp (dropped.mp out)
      refine ⟨reg, ?_⟩
      rw [← inst, Inst.copy?_mapTarget]
      exact Allocation.copy?_of_dropped found
  · refine ⟨_, List.rel_append (List.rel_append before
      (?_ : List.Forall₂ _ _ [(true, (p.rename a.rename).inst.mapTarget name)])) after, p, loads, stores, _, rfl,
      carries, rfl, .inl (by rw [inst])⟩
    rw [if_neg out]
    refine .cons ?_ .nil
    rw [markedInst_eq_ok (stands.inst out), decide_eq_true member]

/-- After a successful allocation every block holds, in order, what stands in place of its instructions. -/
theorem Formed.allocated_blocks (formed : start.Formed code layout) (found : start.body f = .ok body) {node : FuncNode}
    (stored : start.func f = .ok node) {config : Config} {planned : Machine}
    (complete : (Allocation.make config body node.frame).plan.ending = .complete)
    (plan_ok : start.applyPlan f ((layout f).flatMap code).toArray (Allocation.make config body node.frame).plan =
      .ok planned)
    (result_ok : planned.applyResult f ((layout f).flatMap code).toArray (Allocation.make config body node.frame) =
      .ok m) :
    m.layout f = .ok (layout f) ∧ ∀ (position : Nat) b (block : Block), (layout f)[position]? = some b →
      body.blocks[position]? = some block → ∃ codes,
        m.markedInsts ((layout f).flatMap code) b = .ok codes.flatten ∧
        List.Forall₂ (Replaced (Allocation.make config body node.frame).plan.slots
          (Allocation.make config body node.frame).rename (nameAt (layout f))) block.insts codes := by
  have plain := formed.body_eq found
  obtain ⟨blocks, all⟩ := formed.holds_body found
  obtain ⟨patch, gone, lead, trail, woven, patched⟩ := allocation_woven formed found stored complete plan_ok result_ok
  have replaced : List.Forall₂ (fun i inst => ∃ marked,
      List.Forall₂ (fun j marked => m.markedInst ((layout f).flatMap code) j = .ok marked)
        (piece lead trail gone i) marked ∧
        Replaced (Allocation.make config body node.frame).plan.slots (Allocation.make config body node.frame).rename
          (nameAt (layout f)) inst marked) ((layout f).flatMap code) body.insts := by
    refine List.forall₂_iff_get.mpr ⟨all.length_eq, fun n inIds inBody => ?_⟩
    have located := List.getElem?_eq_getElem inIds
    obtain ⟨here, dropped⟩ := patched n _ located
    obtain ⟨p, loads, stores, planned, source, carries⟩ := (spills_planned plain complete).patches n _
      (List.getElem?_eq_getElem inBody)
    rw [make_getElem?_patches plain complete, planned, Option.map_some, Option.some.injEq] at here
    have result := woven.replaced formed (List.mem_of_getElem? located) carries here.symm dropped
    rwa [source] at result
  have parts := forall₂_flatMap (blocks.imp fun b block holds => holds.length_eq) replaced
  constructor
  · exact woven.layout_ok stored
  · intro position b block laid inBody
    obtain ⟨_, same, part⟩ := forall₂_getElem? parts laid
    rw [inBody] at same
    cases same
    obtain ⟨codes, marked, replaced⟩ := forall₂_factor part
    refine ⟨codes, ?_, replaced⟩
    rw [markedInsts, woven.formed.code_ok (List.mem_of_getElem? laid), ok_bind, mapM_eq_ok, List.flatMap_def]
    exact List.rel_flatten (List.forall₂_map_left_iff.mpr marked)

end Machine

/-! ## The code afterwards -/

theorem Allocation.rebuild_flatMap {a : Allocation} {code : BlockId → List InstId} {layout : List BlockId}
    {blocks : List Block} (sizes : List.Forall₂ (fun b block => (code b).length = block.insts.length) layout blocks)
    (patch : InstId → Patch) (rest : List Patch) :
    List.Forall₂ (fun b block => block.insts = (code b).flatMap fun i => a.codeOf (patch i)) layout
      (a.rebuild blocks ((layout.flatMap code).map patch ++ rest)) := by
  induction sizes with
  | nil => exact .nil
  | @cons b block layout blocks first _ ih =>
    have size : ((code b).map patch).length = block.insts.length := by rw [List.length_map, first]
    rw [rebuild, List.flatMap_cons, List.map_append, List.append_assoc, List.take_left' size, List.drop_left' size]
    exact .cons (List.flatMap_map ..) ih

namespace Machine

/-- A function has the given blocks, whose branches lead to positions. -/
def HasCode (m : Machine) (f : FuncId) (blocks : List Block) : Prop :=
  ∃ layout, m.layout f = .ok layout ∧ List.Forall₂ (fun b block =>
    m.blockInsts b = .ok (block.insts.map (Inst.mapTarget (nameAt layout)))) layout blocks

variable {start m : Machine} {code : BlockId → List InstId} {layout : FuncId → List BlockId} {f : FuncId} {body : Body}

theorem Stands.holds_piece {name : Nat → BlockId} {patch : InstId → Patch} {gone : List InstId}
    {lead trail : InstId → List InstId} {i : InstId}
    (stands : Stands start m name i (i ∈ gone) (patch i) (lead i) (trail i)) {a : Allocation}
    (dropped : i ∈ gone ↔ (a.dropped? (patch i)).isSome) :
    m.Holds name (piece lead trail gone i) (a.codeOf (patch i)) := by
  apply (stands.before.append _).append stands.after
  by_cases out : i ∈ gone
  · rw [if_pos out, if_pos (dropped.mp out)]
    exact .nil
  · rw [if_neg out, if_neg fun here => out (dropped.mpr here)]
    exact .cons (stands.inst out) .nil

theorem Formed.allocated_code (formed : start.Formed code layout) (found : start.body f = .ok body) {node : FuncNode}
    (stored : start.func f = .ok node) {config : Config} {planned : Machine}
    (complete : (Allocation.make config body node.frame).plan.ending = .complete)
    (plan_ok : start.applyPlan f ((layout f).flatMap code).toArray (Allocation.make config body node.frame).plan =
      .ok planned)
    (result_ok : planned.applyResult f ((layout f).flatMap code).toArray (Allocation.make config body node.frame) =
      .ok m) : m.HasCode f (Allocation.make config body node.frame).result := by
  obtain ⟨patch, gone, lead, trail, woven, patched⟩ := allocation_woven formed found stored complete plan_ok result_ok
  obtain ⟨rest, patches⟩ :
      ((layout f).flatMap code).map patch <+: (Allocation.make config body node.frame).patches := by
    rw [List.prefix_iff_getElem?]
    intro n bound
    rw [List.length_map] at bound
    rw [List.getElem_map]
    exact (patched n _ (List.getElem?_eq_getElem bound)).1
  have sizes := (formed.holds_body found).1.imp fun b block holds => holds.length_eq
  have rebuilt := Allocation.rebuild_flatMap (a := Allocation.make config body node.frame) sizes patch rest
  rw [patches] at rebuilt
  have inBlocks (b : BlockId) (member : b ∈ layout f) : m.blockInsts b = .ok (((code b).flatMap fun i =>
      (Allocation.make config body node.frame).codeOf (patch i)).map (Inst.mapTarget (nameAt (layout f)))) := by
    rw [blockInsts, woven.formed.code_ok member, ok_bind, mapM_eq_ok]
    apply List.forall₂_map_right_iff.mpr
    apply List.rel_flatMap (R := fun i j => m.Holds (nameAt (layout f)) (piece lead trail gone i)
      ((Allocation.make config body node.frame).codeOf (patch j))) _ fun _ _ holds => holds
    apply List.forall₂_same.mpr
    intro i inCode
    have inFunc : i ∈ (layout f).flatMap code := List.mem_flatMap.mpr ⟨b, member, inCode⟩
    obtain ⟨n, located⟩ := List.mem_iff_getElem?.mp inFunc
    exact (woven.stands i inFunc).holds_piece (patched n i located).2
  refine ⟨layout f, woven.layout_ok stored, ?_⟩
  exact ((List.forall₂_and_left _ _).mpr ⟨inBlocks, rebuilt⟩).imp fun b block ⟨inBlock, same⟩ => same ▸ inBlock

theorem Formed.allocate_code (formed : m.Formed code layout) {node : FuncNode} (stored : m.func f = .ok node)
    (body_ok : m.body f = .ok body) {config : Config} {done : Allocated} {choice : Choice}
    (allocated : m.allocate config f = .ok done) (success : done.outcome = .ok choice) :
    (Allocation.make config body node.frame).plan.ending = .complete ∧
      done.machine.HasCode f (Allocation.make config body node.frame).result ∧
      choice = (Allocation.make config body node.frame).choice := by
  obtain ⟨laid, listed, -⟩ := formed.body_shows body_ok
  obtain ⟨other, stored', ⟨bare, -, -⟩ |
      ⟨other, ids, planned, other_ok, ids_ok, complete, plan_ok, result_ok, rfl⟩⟩ := allocate_ok allocated success
  -- A function without blocks has no body.
  · have ends := formed.layout.ends f other.layout (by simp [Chained.ends?, func_eq_ok.mp stored'])
    rw [ends, List.head?_eq_none_iff] at bare
    exact absurd bare (layout_ne_nil body_ok laid)
  rw [stored] at stored'
  cases stored'
  rw [body_ok] at other_ok
  cases other_ok
  rw [listed] at ids_ok
  cases ids_ok
  exact ⟨complete, formed.allocated_code body_ok stored complete plan_ok result_ok, rfl⟩

end Machine

/-! ## Conservation -/

/-- Marked code does what other code does: from states that agree on `live` both get to states that agree on `out`. -/
def Refines {τ : Type} (place : Reg → Reg ⊕ UInt64) (live out : Reg → Prop) (insts : List (Inst τ))
    (code : List (Bool × Inst τ)) : Prop :=
  ∀ (V : Type) [DecidableEq V] (μ : Meaning V τ) (s t : State V τ), Agree place live s t →
    ∃ t', μ.run code t = some t' ∧ Agree place out (μ.exec s insts) t'

/-- Every block of a function does after an allocation what it did before. The instructions that the function had before
are executed as such, all others as spill code. -/
def Machine.Conserves (before after : Machine) (f : FuncId) (body : Body) (place : Reg → Reg ⊕ UInt64) : Prop :=
  ∃ layout ids, before.layout f = .ok layout ∧ before.instList f = .ok ids ∧ after.layout f = .ok layout ∧
    ∀ (position : Nat) b, layout[position]? = some b → ∃ insts code,
      before.blockInsts b = .ok insts ∧ after.markedInsts ids b = .ok code ∧
      Refines place (body.LiveIn position) (body.LiveOut position) insts code

theorem Agree.mono {V τ : Type} {place : Reg → Reg ⊕ UInt64} {live live' : Reg → Prop} {s t : State V τ}
    (agree : Agree place live s t) (fewer : ∀ reg, live' reg → live reg) : Agree place live' s t :=
  ⟨agree.trace, fun reg here => agree.live reg (fewer reg here), agree.reserved⟩

/-- Every state after an allocation stands for one before it. -/
theorem exists_agree {V τ : Type} (choice : Choice) (live : Reg → Prop) (t : State V τ) :
    ∃ s, Agree choice.place live s t :=
  ⟨{ t with regs := fun reg => t.read (choice.place reg) }, rfl, fun _ _ => rfl, fun _ _ _ => rfl⟩

/-- Allocation conserves what the blocks of a function mean, for every source that can be read and every function whose
code leaves the withheld registers and the stack pointer alone. -/
theorem allocation_conserves_blocks {source : String} {m : Machine} {f : FuncId} {body : Body} {config : Config}
    {done : Machine.Allocated} {choice : Choice} (read : Source.read source = .ok m) (body_ok : m.body f = .ok body)
    (spared : ∀ inst ∈ body.insts, inst.Spared) (allocated : m.allocate config f = .ok done)
    (success : done.outcome = .ok choice) : m.Conserves done.machine f body choice.place := by
  obtain ⟨code, layout, formed⟩ := Source.read_wellFormed read
  obtain ⟨laid, listed, -⟩ := formed.body_shows body_ok
  obtain ⟨blocks, -⟩ := formed.holds_body body_ok
  obtain ⟨node, stored, ⟨bare, same, rfl⟩ |
      ⟨other, ids, planned, other_ok, ids_ok, complete, plan_ok, result_ok, rfl⟩⟩ :=
    Machine.allocate_ok allocated success
  -- A function without blocks is left as it is.
  · have ends := formed.layout.ends f node.layout (by simp [Chained.ends?, Machine.func_eq_ok.mp stored])
    rw [ends, List.head?_eq_none_iff] at bare
    exact ⟨layout f, _, laid, listed, same ▸ laid, fun position b located => by rw [bare] at located; cases located⟩
  rw [body_ok] at other_ok
  cases other_ok
  rw [listed] at ids_ok
  cases ids_ok
  have plain := formed.body_eq body_ok
  obtain ⟨laid', conserved⟩ := formed.allocated_blocks body_ok stored complete plan_ok result_ok
  refine ⟨layout f, _, laid, listed, laid', fun position b located => ?_⟩
  obtain ⟨block, inBody, holds⟩ := forall₂_getElem? blocks located
  obtain ⟨codes, marked, replaced⟩ := conserved position b block located inBody
  refine ⟨block.insts.map (Inst.mapTarget (Machine.nameAt (layout f))), codes.flatten, ?_, marked, ?_⟩
  · rw [Machine.blockInsts, formed.code_ok (List.mem_of_getElem? located), ok_bind, mapM_eq_ok]
    exact List.forall₂_map_right_iff.mpr holds
  · intro V _ μ s t agree
    have named : ∀ inst ∈ block.insts, inst ∈ body.insts := fun inst member =>
      List.mem_flatMap.mpr ⟨block, List.mem_of_getElem? inBody, member⟩
    have unscratched (pre post : List (Inst Nat)) (split : block.insts = pre ++ post) (reg : Reg)
        (live : Live (body.LiveOut position) post reg) : ∀ scratch ∈ PhysReg.scratchRegs, reg ≠ .phys scratch := by
      obtain ⟨inst, inBody, reads⟩ := body.read_of_live inBody split live.2
      exact (spared inst inBody).unscratched reads
    obtain ⟨t', run, agree⟩ := agree_block μ replaced (make_placing plain complete)
      (fun inst member => spared inst (named inst member))
      (fun pre inst post split => make_apart plain complete spared inBody split) unscratched
      (agree.mono fun reg ⟨tracked, live⟩ => body.liveIn_of_liveBefore inBody tracked live)
    refine ⟨t', run, agree.mono fun reg live => ⟨?_, live⟩⟩
    obtain ⟨out, outs, member⟩ := live
    exact Liveness.tracked_of_outs outs member

/-- A function that keeps a constant while its argument is live, and copies the sum to where it is returned. -/
def constantAdded : String := ".func f\nli $r0, 1\nadd $r1, $r0, a0\nadd $r1, $r1, $r0\nmv a0, $r1\nret a0\n"

/-- With one register to hand out the constant goes to the stack, and the copy is taken out. -/
theorem constant_added_conserved :
    ∃ m body done choice, Source.read constantAdded = .ok m ∧ m.body ⟨0⟩ = .ok body ∧
      (∀ inst ∈ body.insts, inst.Spared) ∧ m.allocate { registerLimit := some 1 } ⟨0⟩ = .ok done ∧
      done.outcome = .ok choice ∧ choice.place (.virt ⟨0, .general⟩) = .inr 0 ∧
      choice.place (.virt ⟨1, .general⟩) = .inl (.phys (.x 10)) ∧ choice.stats.movesRemoved = 1 ∧
      (∀ t : State Nat BlockId, ∃ s, Agree choice.place (body.LiveIn 0) s t) ∧
      m.Conserves done.machine ⟨0⟩ body choice.place := by
  have run : (do
      let m ← (Source.read constantAdded).toOption
      let body ← (m.body ⟨0⟩).toOption
      let done ← (m.allocate { registerLimit := some 1 } ⟨0⟩).toOption
      let choice ← done.outcome.toOption
      return decide ((∀ inst ∈ body.insts, inst.Spared) ∧ choice.place (.virt ⟨0, .general⟩) = .inr 0 ∧
        choice.place (.virt ⟨1, .general⟩) = .inl (.phys (.x 10)) ∧ choice.stats.movesRemoved = 1)) = some true := by
    decide +kernel
  simp only [bind, Option.bind_eq_some_iff, toOption_eq_some, pure, Option.some.injEq, decide_eq_true_eq] at run
  obtain ⟨m, read, body, body_ok, done, allocated, choice, success, spared, constant, sum, removed⟩ := run
  exact ⟨m, body, done, choice, read, body_ok, spared, allocated, success, constant, sum, removed,
    exists_agree choice (body.LiveIn 0), allocation_conserves_blocks read body_ok spared allocated success⟩

end RegisterAllocator
