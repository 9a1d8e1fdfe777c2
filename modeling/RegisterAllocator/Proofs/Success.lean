import RegisterAllocator.Proofs.Exhaustion
import RegisterAllocator.Proofs.Frontiers
import RegisterAllocator.Proofs.Loaded
import RegisterAllocator.Proofs.Weaving

/-!
# Allocation succeeds

For a function that is ready the spill plan is complete, so the allocation can be carried out (`Formed.allocate_ready`),
and it leaves the other functions as they are. Functions can therefore be allocated one after the other (`Awaits.run`),
and scratch registers never run out (`scratch_never_runs_out`).
-/

namespace RegisterAllocator

theorem make_fault (config : Config) (body : Body) (frame : UInt64) :
    (Allocation.make config body frame).fault = none := by
  have search : (Allocation.make config body frame).search.fault = none :=
    ((SearchState.finish_reachable _).sound (@problem_proper config body frame)).fault
  rw [Allocation.fault, search, Option.or_none]
  exact FlowGraph.flowFault_eq_none body

/-! ## Functions that are ready -/

namespace Machine

variable {start m : Machine} {code : BlockId → List InstId} {layout : FuncId → List BlockId} {f : FuncId}
  {name : Nat → BlockId} {patch : InstId → Patch} {gone : List InstId} {lead trail : InstId → List InstId}
  {body : Body} {config : Config}

theorem Ready.closed {blocks : List BlockId} (ready : m.Ready code blocks f) : m.Closed code blocks :=
  fun b member i inCode => by
    obtain ⟨inst, found, -, inside⟩ := ready.insts b member i inCode
    exact ⟨inst, found, inside⟩

theorem exists_func {external : Bool} {frame : UInt64} (traits : m.traits? f = some (external, frame)) :
    ∃ node, m.func f = .ok node ∧ node.external = external ∧ node.frame = frame := by
  obtain ⟨node, stored, same⟩ := Option.map_eq_some_iff.mp traits
  cases same
  exact ⟨node, func_eq_ok.mpr stored, rfl, rfl⟩

theorem Formed.head_isNone (formed : m.Formed code layout) {node : FuncNode} (stored : m.func f = .ok node)
    (filled : layout f ≠ []) : node.layout.head.isNone = false := by
  have shape := formed.layout.ends f node.layout (by simp [Chained.ends?, func_eq_ok.mp stored])
  rw [shape, Option.isNone_eq_false_iff]
  exact List.isSome_head?.mpr filled

theorem Formed.body_typed (formed : m.Formed code layout) (ready : m.Ready code (layout f) f)
    (found : m.body f = .ok body) : ∀ inst ∈ body.insts, inst.Typed := by
  intro inst member
  obtain ⟨block, inBlocks, inBlock⟩ := List.mem_flatMap.mp member
  obtain ⟨b, inLayout, shown⟩ := forall₂_mem_right (formed.body_shows found).2.2 inBlocks
  obtain ⟨i, inCode, stored, read, located⟩ := forall₂_mem_right shown.insts inBlock
  obtain ⟨_, read', typed, -⟩ := ready.insts b inLayout i inCode
  cases read.symm.trans read'
  exact typed.mapTargetM located

theorem Ready.frame_lt {blocks : List BlockId} (ready : m.Ready code blocks f) {node : FuncNode}
    (stored : m.func f = .ok node) : node.frame.toNat < 2 ^ 63 := by
  obtain ⟨frame, traits, signed⟩ := ready.framed
  obtain ⟨_, stored', -, rfl⟩ := exists_func traits
  cases stored.symm.trans stored'
  exact signed

theorem Formed.plan_complete (formed : m.Formed code layout) (ready : m.Ready code (layout f) f)
    (found : m.body f = .ok body) {node : FuncNode} (stored : m.func f = .ok node) :
    (Allocation.make config body node.frame).plan.ending = .complete := by
  apply SpillPlan.make_complete (formed.body_eq found) (LiveRanges.spans_ofBody body) (formed.body_typed ready found)
  · exact @spills_nodup config body node.frame
  · exact ready.frame_lt stored

theorem Woven.ready_kept (formed : start.Formed code layout)
    (woven : Woven start code layout f name patch gone lead trail m) {g : FuncId} (other : g ≠ f)
    (ready : start.Ready code (layout g) g) :
    m.Ready (fun b => (code b).flatMap (piece lead trail gone)) (layout g) g := by
  refine ready.kept (by rw [traits?, traits?, woven.otherFuncs g other]) (fun b inG => ?_) fun b inG i inCode inst =>
    (woven.others i (formed.outside other inG inCode)).2.2.2 inst
  -- nothing stands around an instruction of another function, so its blocks have the code that they had
  have alone : ∀ i ∈ code b, piece lead trail gone i = [i] := by
    intro i inCode
    obtain ⟨noLead, noTrail, stays, -⟩ := woven.others i (formed.outside other inG inCode)
    simp [piece, noLead, noTrail, stays]
  rw [List.flatMap_congr alone, List.flatMap_singleton']

theorem Formed.allocate_ready (formed : m.Formed code layout) (ready : m.Ready code (layout f) f) (config : Config) :
    ∃ done choice code', m.allocate config f = .ok done ∧ done.outcome = .ok choice ∧
      done.machine.Formed code' layout ∧ ∀ g, g ≠ f → done.machine.traits? g = m.traits? g ∧
        (m.Ready code (layout g) g → done.machine.Ready code' (layout g) g) := by
  obtain ⟨frame, traits, -⟩ := ready.framed
  obtain ⟨node, stored, -, -⟩ := exists_func traits
  have laid := formed.layout_ok stored
  obtain ⟨body, found⟩ := formed.body_ok ready.closed laid ready.filled
  have listed := (formed.body_shows found).2.1
  have complete : (Allocation.make config body node.frame).plan.ending = .complete :=
    formed.plan_complete ready found stored
  obtain ⟨planned, last, plan_ok, result_ok, patch, gone, lead, trail, woven, -⟩ :=
    formed.exists_allocated found stored complete
  obtain ⟨done, choice, allocated, success, rfl⟩ : ∃ done choice, m.allocate config f = .ok done ∧
      done.outcome = .ok choice ∧ done.machine = last := by
    simp only [allocate, stored, ok_bind, formed.head_isNone stored ready.filled, Bool.false_eq_true, if_false, found,
      listed, make_fault, carryOut, plan_ok, complete, result_ok]
    exact ⟨_, _, rfl, rfl, rfl⟩
  refine ⟨done, choice, _, allocated, success, woven.formed, fun g other => ⟨?_, woven.ready_kept formed other⟩⟩
  rw [traits?, traits?, woven.otherFuncs g other]

/-! ## All functions -/

/-- The functions of a list are external or ready. -/
structure Awaits (m : Machine) (code : BlockId → List InstId) (layout : FuncId → List BlockId) (fs : List FuncId) :
    Prop where
  formed : m.Formed code layout
  each : ∀ f ∈ fs, ∃ external frame, m.traits? f = some (external, frame) ∧
    (external = true ∨ m.Ready code (layout f) f)

theorem funcIds_eq (m : Machine) : m.funcIds = (m.funcs.toList.map Prod.fst).map FuncId.mk := by
  rw [List.map_map]
  rfl

theorem funcIds_nodup (m : Machine) : m.funcIds.Nodup := by
  rw [funcIds_eq]
  exact m.funcs.toList_nodup.map fun _ _ => FuncId.mk.inj

theorem mem_funcIds : f ∈ m.funcIds ↔ ∃ node, m.func f = .ok node := by
  simp only [funcIds_eq, List.mem_map, exists_exists_and_eq_and, func_eq_ok]
  constructor
  · rintro ⟨⟨slot, node⟩, stored, rfl⟩
    exact ⟨node, Pool.mem_toList.mp stored⟩
  · rintro ⟨node, stored⟩
    exact ⟨(f.slot, node), Pool.mem_toList.mpr stored, rfl⟩

theorem Loaded.awaits (loaded : m.Loaded code layout) : m.Awaits code layout m.funcIds := by
  refine ⟨loaded.formed, fun f member => ?_⟩
  obtain ⟨node, stored⟩ := mem_funcIds.mp member
  have traits : m.traits? f = some (node.external, node.frame) := by
    rw [traits?, func_eq_ok.mp stored]
    rfl
  exact ⟨_, _, traits, loaded.ready _ _ _ traits⟩

/-- Functions that are external or ready can be allocated one after the other, and then the others can. -/
theorem Awaits.run {fs others : List FuncId} (awaits : m.Awaits code layout (fs ++ others))
    (once : (fs ++ others).Nodup) (a : Allocator) :
    ∃ report choices code', a.runFunctions m fs = .ok report ∧ report.outcome = .ok choices ∧
      report.machine.Awaits code' layout others := by
  -- over the functions in front; each step changes the machine, its code and the counts of the allocator
  induction fs generalizing m a code with
  | nil => exact ⟨_, _, code, rfl, rfl, awaits⟩
  | cons f rest ih =>
    obtain ⟨absent, once⟩ := List.nodup_cons.mp once
    obtain ⟨external, frame, traits, ready⟩ := awaits.each f List.mem_cons_self
    obtain ⟨node, stored, rfl, -⟩ := exists_func traits
    have left : m.Awaits code layout (rest ++ others) :=
      ⟨awaits.formed, fun g member => awaits.each g (List.mem_cons_of_mem _ member)⟩
    simp only [Allocator.runFunctions, stored, ok_bind]
    by_cases external : node.external = true
    · rw [if_pos external]
      exact ih left once a
    · rw [if_neg external]
      obtain ⟨done, choice, code', allocated, success, formed, kept⟩ :=
        awaits.formed.allocate_ready (ready.resolve_left external) a.config
      have next : done.machine.Awaits code' layout (rest ++ others) := by
        refine ⟨formed, fun g member => ?_⟩
        have other : g ≠ f := fun same => absent (same ▸ member)
        obtain ⟨external, frame, traits, ready⟩ := left.each g member
        exact ⟨external, frame, (kept g other).1.trans traits, ready.imp_right (kept g other).2⟩
      obtain ⟨report, choices, code'', ran, outcome, final⟩ := ih next once { a with total := a.total.add choice.stats }
      simp only [Allocator.runFunction, allocated, ok_bind, success, pure_bind, ran]
      exact ⟨_, _, code'', rfl, by rw [outcome]; rfl, final⟩

theorem Loaded.run (loaded : m.Loaded code layout) (a : Allocator) :
    ∃ report choices, a.run m = .ok report ∧ report.outcome = .ok choices := by
  have awaits : m.Awaits code layout (m.funcIds ++ []) := by
    rw [List.append_nil]
    exact loaded.awaits
  obtain ⟨report, choices, -, ran, outcome, -⟩ := awaits.run (by rw [List.append_nil]; exact m.funcIds_nodup) a
  exact ⟨report, choices, ran, outcome⟩

end Machine

/-! ## Scratch registers -/

theorem SpillPlan.exists_reload {live : LiveRanges} {body : Body} {frame : UInt64} {regs : List VirtReg}
    (plain : body = .ofBlocks body.blocks) (spans : live.Spans body) (typed : ∀ inst ∈ body.insts, inst.Typed)
    (once : regs.Nodup) (complete : (make live body frame regs).ending = .complete) {v : VirtReg} (new : v ∉ regs)
    {n : Nat} {inst : Inst Nat} (located : body.insts[n]? = some inst) (used : .virt v ∈ inst.uses) :
    ∃ p, (make live body frame regs).patches[n]? = some p ∧ p.source = inst ∧ ∀ offset, ∃ data address,
      p.reloadRegs? v offset = some (data, address) ∧ p.Free v.file data ∧
        (v.file = .float → slotFits offset = false → p.Free .general address) := by
  have planned := make_planned plain spans once complete
  obtain ⟨p, loads, stores, found, rfl, carries⟩ := planned.patches n inst located
  rw [← planned.slots] at new
  exact ⟨p, found, rfl, carries.exists_reloadRegs (typed _ (List.mem_of_getElem? located)) new used⟩

/-- Scratch registers never run out on the code of a source text. Every run of the allocator succeeds; and whatever
registers of a function go to the stack, in whatever order and with whatever frame, no reload fails: while an
instruction reads a register `v` that is not yet on the stack, a scratch register is free for the value of `v`, and
another one for the address if the value is float and the slot is out of reach. -/
theorem scratch_never_runs_out {source : String} {m : Machine} (read : Source.read source = .ok m) :
    (∀ a : Allocator, ∃ report choices, a.run m = .ok report ∧ report.outcome = .ok choices) ∧
    ∀ f node, m.func f = .ok node → node.external = false → ∃ body, m.body f = .ok body ∧
      ∀ frame regs, regs.Nodup →
        ((SpillPlan.make (liveRanges body) body frame regs).ending = .complete ∨
          (SpillPlan.make (liveRanges body) body frame regs).ending = .overflow) ∧
        ((SpillPlan.make (liveRanges body) body frame regs).ending = .complete →
          ∀ v, v ∉ regs → ∀ (n : Nat) inst, body.insts[n]? = some inst → .virt v ∈ inst.uses →
            ∃ p, (SpillPlan.make (liveRanges body) body frame regs).patches[n]? = some p ∧ p.source = inst ∧
              ∀ offset, ∃ data address, p.reloadRegs? v offset = some (data, address) ∧ p.Free v.file data ∧
                (v.file = .float → slotFits offset = false → p.Free .general address)) := by
  obtain ⟨code, layout, loaded⟩ := Source.read_loaded read
  have formed := loaded.formed
  refine ⟨loaded.run, fun f node known internal => ?_⟩
  have ready := loaded.ready_of_func known internal
  obtain ⟨body, found⟩ := formed.body_ok ready.closed (formed.layout_ok known) ready.filled
  have plain := formed.body_eq found
  have spans := LiveRanges.spans_ofBody body
  have typed := formed.body_typed ready found
  refine ⟨body, found, fun frame regs once => ⟨SpillPlan.make_ending plain spans typed once, ?_⟩⟩
  intro complete v new n inst located used
  exact SpillPlan.exists_reload plain spans typed once complete new located used

/-- An instruction that reads a float scratch register itself and two registers besides, in a frame beyond reach. -/
def crowded : String := ".func f\n.frame 4096\nfmadd.d $f3, $f1, $f2, ft0\nfsd $f3, 0($r0)\nret\n"

/-- When one register is reloaded there, two of three float scratch registers are in use, and there is one for the
other register. -/
theorem crowded_reloads :
    ∃ m body p, Source.read crowded = .ok m ∧ m.body ⟨0⟩ = .ok body ∧
      (SpillPlan.make (liveRanges body) body 4096 [⟨1, .float⟩]).patches[0]? = some p ∧ p.taken = [.f 1] ∧
      .phys (.f 0) ∈ p.inst.uses ∧ slotFits 4104 = false ∧
      (∃ data address, p.reloadRegs? ⟨2, .float⟩ 4104 = some (data, address) ∧ p.Free .float data ∧
        p.Free .general address) ∧
      ∀ a : Allocator, ∃ report choices, a.run m = .ok report ∧ report.outcome = .ok choices := by
  have run : (do
      let m ← (Source.read crowded).toOption
      let node ← (m.func ⟨0⟩).toOption
      let body ← (m.body ⟨0⟩).toOption
      let inst ← body.insts[0]?
      let p ← (SpillPlan.make (liveRanges body) body 4096 [⟨1, .float⟩]).patches[0]?
      return decide (node.external = false ∧ (SpillPlan.make (liveRanges body) body 4096 [⟨1, .float⟩]).ending = .complete ∧
        .virt ⟨2, .float⟩ ∈ inst.uses ∧ p.taken = [.f 1] ∧ .phys (.f 0) ∈ p.inst.uses)) = some true := by
    decide +kernel
  simp only [bind, Option.bind_eq_some_iff, toOption_eq_some, pure, Option.some.injEq, decide_eq_true_eq] at run
  obtain ⟨m, read, node, known, body, found, inst, located, p, patched, internal, complete, used, taken, explicit⟩ :=
    run
  obtain ⟨runs, planned⟩ := scratch_never_runs_out read
  obtain ⟨body', found', reloads⟩ := planned _ node known internal
  cases found.symm.trans found'
  obtain ⟨p', patched', -, free⟩ :=
    (reloads 4096 [⟨1, .float⟩] (by simp)).2 complete ⟨2, .float⟩ (by simp) 0 inst located used
  cases patched.symm.trans patched'
  have far : slotFits 4104 = false := by decide
  obtain ⟨data, address, chosen, value, beyond⟩ := free 4104
  exact ⟨m, body, p, read, found, patched, taken, explicit, far, ⟨data, address, chosen, value, beyond rfl far⟩, runs⟩

end RegisterAllocator
