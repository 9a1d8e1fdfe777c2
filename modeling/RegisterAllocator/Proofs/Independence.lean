import RegisterAllocator.Proofs.Completeness
import RegisterAllocator.Proofs.Contents
import RegisterAllocator.Proofs.Success

/-!
# Functions are allocated independently

Allocating the registers of one function touches no other (`Formed.allocate_untouched`), and what becomes of the
function itself follows from its own contents (`Formed.allocate_content`). Whatever the order in which the functions
of a machine are allocated, they therefore end up the same (`Formed.run_outlook`).
-/

namespace RegisterAllocator

def Allocation.record (a : Allocation) (node : FuncNode) : FuncNode :=
  { node with
    frame := a.plan.frame, saved := a.assignment.foldl (fun saved row => Machine.placeSaved row.2 saved) node.saved }

theorem SpillStep.record_of_moves {steps : List SpillStep} (moves : .grow ∉ steps) (node : FuncNode) :
    steps.foldl record node = node := by
  induction steps with
  | nil => rfl
  | cons step rest ih =>
    obtain ⟨here, later⟩ := not_or.mp (mt List.mem_cons.mpr moves)
    rw [List.foldl_cons]
    cases step with
    | grow => exact absurd rfl here
    | reload | writeBack => exact ih later

/-- The steps of a plan make the frame as large as the plan says. -/
theorem SpillPlan.make_record {live : LiveRanges} {body : Body} {frame : UInt64} {regs : List VirtReg}
    (complete : (make live body frame regs).ending = .complete) {node : FuncNode} (start : node.frame = frame) :
    (make live body frame regs).steps.foldl SpillStep.record node =
      { node with frame := (make live body frame regs).frame } := by
  induction regs using List.reverseRecOn with
  | nil =>
    cases start
    rfl
  | append_singleton regs reg ih =>
    rw [make_concat] at complete ⊢
    obtain ⟨before, -, _, _, loads, _, stores, -, reloaded, writtenBack, result⟩ := spill_ok complete
    rw [result, List.foldl_append, List.foldl_append, List.foldl_append, ih before,
      SpillStep.record_of_moves (grow_notMem_writeBacks writtenBack),
      SpillStep.record_of_moves (grow_notMem_reloads reloaded)]
    rfl

namespace Machine

variable {m m' : Machine} {code code' : BlockId → List InstId} {layout : FuncId → List BlockId} {f : FuncId}
  {c : Content} {body : Body} {config : Config} {done : Allocated} {choice : Choice}

/-! ## Records -/

/-- The machine `m'` has the function records of `m` and has given out the same virtual registers. -/
structure Recorded (m m' : Machine) : Prop where
  funcs : m'.funcs = m.funcs
  nextVirt : m'.nextVirt = m.nextVirt

theorem Recorded.trans {m₁ m₂ m₃ : Machine} (first : Recorded m₁ m₂) (second : Recorded m₂ m₃) : Recorded m₁ m₃ :=
  ⟨second.funcs.trans first.funcs, second.nextVirt.trans first.nextVirt⟩

theorem recorded_of_edits (edits : Chain.Edits InstId BlockId m m') : Recorded m m' := by
  induction edits with
  | refl => exact ⟨rfl, rfl⟩
  | @links t i place _ ih =>
    refine ih.trans ?_
    simp only [Chained.setLinks]
    split <;> exact ⟨rfl, rfl⟩
  | @ends t b found _ ih =>
    refine ih.trans ?_
    simp only [Chained.setEnds]
    split <;> exact ⟨rfl, rfl⟩

theorem addInsts_recorded (m : Machine) (insts : List (Inst BlockId)) : Recorded m (m.addInsts insts).1 := by
  induction insts generalizing m with
  | nil => exact ⟨rfl, rfl⟩
  | cons inst rest ih => exact (show Recorded m (m.addInst inst).1 from ⟨rfl, rfl⟩).trans (ih _)

theorem insertBefore_recorded {i : InstId} {insts : List (Inst BlockId)} (inserted : m.insertBefore i insts = .ok m') :
    Recorded m m' := by
  refine foldlM_invariant (P := Recorded m) (fun s new t recorded stepped => ?_) (addInsts_recorded m insts) inserted
  exact recorded.trans (recorded_of_edits (Chain.insertBefore_edits stepped))

theorem insertAfter_recorded {i : InstId} {insts : List (Inst BlockId)} (inserted : m.insertAfter i insts = .ok m') :
    Recorded m m' := by
  obtain ⟨last, folded, rfl⟩ := map_eq_ok.mp inserted
  refine foldlM_invariant (P := fun s : Machine × InstId => Recorded m s.1) (fun s new t recorded stepped => ?_)
    (addInsts_recorded m insts) folded
  simp only [bind_eq_ok, pure_eq_ok] at stepped
  obtain ⟨next, linked, rfl⟩ := stepped
  exact recorded.trans (recorded_of_edits (Chain.insertAfter_edits linked))

theorem modifyInst_recorded {i : InstId} {change : Inst BlockId → Inst BlockId}
    (modified : m.modifyInst i change = .ok m') : Recorded m m' := by
  simp only [modifyInst, bind_eq_ok, pure_eq_ok] at modified
  obtain ⟨_, -, rfl⟩ := modified
  exact ⟨rfl, rfl⟩

theorem removeInst_recorded {i : InstId} (removed : m.removeInst i = .ok m') : Recorded m m' := by
  simp only [removeInst, freeInst, bind_eq_ok, pure_eq_ok] at removed
  obtain ⟨_, unlinked, _, -, rfl⟩ := removed
  exact (recorded_of_edits (Chain.unlink_edits unlinked)).trans ⟨rfl, rfl⟩

theorem modifyFunc_ok {node : FuncNode} {change : FuncNode → FuncNode} (stored : m.func f = .ok node)
    (modified : m.modifyFunc f change = .ok m') : m'.func f = .ok (change node) ∧ m'.nextVirt = m.nextVirt := by
  simp only [modifyFunc, bind_eq_ok, pure_eq_ok, Pool.modify_eq_ok] at modified
  obtain ⟨_, ⟨_, found, rfl⟩, rfl⟩ := modified
  rw [func_eq_ok.mp stored] at found
  cases found
  refine ⟨func_eq_ok.mpr ?_, rfl⟩
  simp [Pool.get?_set, func_eq_ok.mp stored]

theorem applyStep_record {node : FuncNode} (stored : m.func f = .ok node) {ids : Array InstId} {step : SpillStep}
    (applied : applyStep f ids m step = .ok m') :
    m'.func f = .ok (step.record node) ∧ m'.nextVirt = m.nextVirt := by
  cases step with
  | grow =>
    simp only [applyStep, growFrame, stored, ok_bind, bind_eq_ok] at applied
    obtain ⟨frame, extended, modified⟩ := applied
    rw [extendFrame] at extended
    split at extended <;> cases extended
    exact modifyFunc_ok stored modified
  | reload t =>
    simp only [applyStep, bind_eq_ok] at applied
    obtain ⟨_, -, _, modified, inserted⟩ := applied
    have recorded := (modifyInst_recorded modified).trans (insertBefore_recorded inserted)
    exact ⟨(func_congr recorded.funcs).trans stored, recorded.nextVirt⟩
  | writeBack t =>
    simp only [applyStep, bind_eq_ok] at applied
    obtain ⟨_, -, _, modified, inserted⟩ := applied
    have recorded := (modifyInst_recorded modified).trans (insertAfter_recorded inserted)
    exact ⟨(func_congr recorded.funcs).trans stored, recorded.nextVirt⟩

theorem applySteps_record {node : FuncNode} (stored : m.func f = .ok node) {ids : Array InstId} {steps : List SpillStep}
    (applied : steps.foldlM (applyStep f ids) m = .ok m') :
    m'.func f = .ok (steps.foldl SpillStep.record node) ∧ m'.nextVirt = m.nextVirt := by
  induction steps generalizing m node with
  | nil =>
    cases applied
    exact ⟨stored, rfl⟩
  | cons step rest ih =>
    rw [List.foldlM_cons, bind_eq_ok] at applied
    obtain ⟨next, first, applied⟩ := applied
    obtain ⟨stored, same⟩ := applyStep_record stored first
    obtain ⟨stored, same'⟩ := ih stored applied
    exact ⟨stored, same'.trans same⟩

theorem placeWeb_record {node : FuncNode} (stored : m.func f = .ok node) {ids : Array InstId} {w : Web} {home : PhysReg}
    (placed : m.placeWeb f ids w home = .ok m') :
    m'.func f = .ok { node with saved := placeSaved home node.saved } ∧ m'.nextVirt = m.nextVirt := by
  simp only [placeWeb, bind_eq_ok] at placed
  obtain ⟨replaced, replace_ok, saved⟩ := placed
  have recorded : Recorded m replaced := by
    refine foldlM_invariant (fun _ _ _ recorded stepped => ?_) ⟨rfl, rfl⟩ replace_ok
    simp only [bind_eq_ok] at stepped
    obtain ⟨_, -, modified⟩ := stepped
    exact recorded.trans (modifyInst_recorded modified)
  obtain ⟨stored, same⟩ := modifyFunc_ok ((func_congr recorded.funcs).trans stored) saved
  exact ⟨stored, same.trans recorded.nextVirt⟩

theorem placeWebs_record {node : FuncNode} (stored : m.func f = .ok node) {ids : Array InstId}
    {rows : List (Web × PhysReg)} (placed : rows.foldlM (fun m (w, home) => m.placeWeb f ids w home) m = .ok m') :
    m'.func f = .ok { node with saved := rows.foldl (fun saved row => placeSaved row.2 saved) node.saved } ∧
      m'.nextVirt = m.nextVirt := by
  induction rows generalizing m node with
  | nil =>
    cases placed
    exact ⟨stored, rfl⟩
  | cons row rest ih =>
    rw [List.foldlM_cons, bind_eq_ok] at placed
    obtain ⟨next, first, placed⟩ := placed
    obtain ⟨stored, same⟩ := placeWeb_record stored first
    obtain ⟨stored, same'⟩ := ih stored placed
    exact ⟨stored, same'.trans same⟩

theorem applied_record {node : FuncNode} (stored : m.func f = .ok node) {ids : Array InstId}
    {planned : Machine} (complete : (Allocation.make config body node.frame).plan.ending = .complete)
    (plan_ok : m.applyPlan f ids (Allocation.make config body node.frame).plan = .ok planned)
    (result_ok : planned.applyResult f ids (Allocation.make config body node.frame) = .ok m') :
    m'.func f = .ok ((Allocation.make config body node.frame).record node) ∧ m'.nextVirt = m.nextVirt := by
  simp only [applyResult, bind_eq_ok] at result_ok
  obtain ⟨placed, place_ok, drop_ok⟩ := result_ok
  obtain ⟨stored, first⟩ := applySteps_record stored plan_ok
  rw [show (Allocation.make config body node.frame).plan.steps.foldl SpillStep.record node = _ from
    SpillPlan.make_record complete rfl] at stored
  obtain ⟨stored, second⟩ := placeWebs_record stored place_ok
  have dropping : Recorded placed m' := by
    refine foldlM_invariant (fun _ _ _ recorded stepped => ?_) ⟨rfl, rfl⟩ drop_ok
    simp only [bind_eq_ok] at stepped
    obtain ⟨_, -, removed⟩ := stepped
    exact recorded.trans (removeInst_recorded removed)
  refine ⟨(func_congr dropping.funcs).trans (stored.trans ?_), by rw [dropping.nextVirt, second, first]⟩
  rw [Allocation.record, Allocation.assignment, Problem.assignment, List.foldl_map]
  rfl

/-! ## One function -/

/-- A function is the same in the machine `m'`: its record, its blocks with their labels, and its instructions with
their text. -/
structure Untouched (m m' : Machine) (f : FuncId) : Prop where
  func : m'.func f = m.func f
  layout : m'.layout f = m.layout f
  code : ∀ blocks, m.layout f = .ok blocks → ∀ b ∈ blocks, m'.label b = m.label b ∧ m'.code b = m.code b
  insts : ∀ ids, m.instList f = .ok ids → ∀ i ∈ ids, m'.inst i = m.inst i ∧ m'.instText i = m.instText i

theorem Untouched.content (untouched : m.Untouched m' f) (held : m.content f = .ok c) : m'.content f = .ok c := by
  obtain ⟨stored, laid, read⟩ := content_eq_ok.mp held
  obtain ⟨ids, coded⟩ : ∃ ids, c.layout.mapM m.code = .ok ids := by
    refine exists_mapM_eq_ok fun b member => ?_
    obtain ⟨_, -, here⟩ := forall₂_mem_left read member
    obtain ⟨own, coded, -⟩ := bind_eq_ok.mp here
    exact ⟨own, coded⟩
  have listed : m.instList f = .ok ids.flatten := by rw [instList, laid, ok_bind, coded]; rfl
  have same : ∀ b ∈ c.layout, m'.blockInsts b = m.blockInsts b := by
    intro b member
    obtain ⟨own, among, here⟩ := forall₂_mem_left (mapM_eq_ok.mp coded) member
    rw [blockInsts, blockInsts, (untouched.code _ laid b member).2, here, ok_bind, ok_bind]
    exact mapM_congr fun i inOwn => (untouched.insts _ listed i (List.mem_flatten.mpr ⟨own, among, inOwn⟩)).1
  simp only [← held, Machine.content, untouched.func, untouched.layout, stored, laid, ok_bind, mapM_congr same]

theorem Woven.untouched {name : Nat → BlockId} {patch : InstId → Patch} {gone : List InstId}
    {lead trail : InstId → List InstId} (formed : m.Formed code layout)
    (woven : Woven m code layout f name patch gone lead trail m') (labels : ∀ b, m'.label b = m.label b) {g : FuncId}
    (other : g ≠ f) {node : FuncNode} (stored : m.func g = .ok node) : m.Untouched m' g := by
  have same : m'.func g = m.func g := by rw [func, func, Pool.get, Pool.get, woven.otherFuncs g other]
  have laid := formed.layout_ok stored
  have listed : m.instList g = .ok ((layout g).flatMap code) := by
    rw [instList, laid, ok_bind, mapM_eq_ok.mpr (List.forall₂_map_right_iff.mpr (List.forall₂_same.mpr fun b member =>
      formed.code_ok member))]
    rfl
  have kept (i : InstId) (inFunc : i ∈ (layout g).flatMap code) : piece lead trail gone i = [i] ∧
      m'.inst i = m.inst i := by
    obtain ⟨b, member, inCode⟩ := List.mem_flatMap.mp inFunc
    obtain ⟨noLead, noTrail, stays, read⟩ := woven.others i (formed.outside other member inCode)
    obtain ⟨inst, found⟩ := formed.inst_ok inCode
    exact ⟨by simp [piece, noLead, noTrail, stays], (read inst found).trans found.symm⟩
  refine ⟨same, (woven.formed.layout_ok (same.trans stored)).trans laid.symm, fun blocks here b member => ?_,
    fun ids here i member => ?_⟩
  · cases laid.symm.trans here
    refine ⟨labels b, ?_⟩
    rw [woven.formed.code_ok member, formed.code_ok member, List.flatMap_congr (g := fun i => [i]) fun i inCode =>
      (kept i (List.mem_flatMap.mpr ⟨b, member, inCode⟩)).1, List.flatMap_singleton']
  · cases listed.symm.trans here
    have read := (kept i member).2
    exact ⟨read, by rw [instText, instText, read, funext labels]⟩

theorem Formed.allocate_untouched (formed : m.Formed code layout) (allocated : m.allocate config f = .ok done)
    (success : done.outcome = .ok choice) :
    done.machine.nextVirt = m.nextVirt ∧ (∀ b, done.machine.label b = m.label b) ∧
      done.machine.funcIds = m.funcIds ∧
      ∀ g node, g ≠ f → m.func g = .ok node → m.Untouched done.machine g := by
  obtain ⟨node, stored, ⟨-, same, -⟩ | ⟨body, ids, planned, body_ok, ids_ok, complete, plan_ok, result_ok, -⟩⟩ :=
    allocate_ok allocated success
  -- A function without blocks is left alone.
  · rw [same]
    exact ⟨rfl, fun _ => rfl, rfl, fun g node _ _ => ⟨rfl, rfl, fun _ _ _ _ => ⟨rfl, rfl⟩, fun _ _ _ _ => ⟨rfl, rfl⟩⟩⟩
  · cases (formed.body_shows body_ok).2.1.symm.trans ids_ok
    obtain ⟨patch, gone, lead, trail, woven, -⟩ := allocation_woven formed body_ok stored complete plan_ok result_ok
    have labels (b : BlockId) : done.machine.label b = m.label b := label_congr (woven.labels b)
    refine ⟨(applied_record stored complete plan_ok result_ok).2, labels, ?_, fun g node other stored =>
      woven.untouched formed labels other stored⟩
    rw [funcIds_eq, funcIds_eq, Pool.map_fst_toList_congr fun slot => woven.funcs ⟨slot⟩]

/-- What an allocation makes of the contents of its function. -/
def Content.allocated (c : Content) (a : Allocation) : Content where
  node := a.record c.node
  layout := c.layout
  code := a.result.map fun block => block.insts.map (Inst.mapTarget (nameAt c.layout))

theorem Formed.allocate_content (formed : m.Formed code layout) (held : m.content f = .ok c)
    (body_ok : m.body f = .ok body) (allocated : m.allocate config f = .ok done) (success : done.outcome = .ok choice) :
    choice = (Allocation.make config body c.node.frame).choice ∧
      done.machine.content f = .ok (c.allocated (Allocation.make config body c.node.frame)) ∧
      ∃ code', done.machine.Formed code' layout ∧ done.machine.Closed code' (layout f) := by
  have stored := (content_eq_ok.mp held).1
  obtain ⟨-, ⟨blocks, laid, coded⟩, chosen⟩ := formed.allocate_code stored body_ok allocated success
  obtain ⟨_, stored', ⟨bare, -, -⟩ | ⟨_, ids, planned, body_ok', ids_ok, complete, plan_ok, result_ok, -⟩⟩ :=
    allocate_ok allocated success
  · cases stored.symm.trans stored'
    have filled := formed.head_isNone stored (layout_ne_nil body_ok (formed.layout_ok stored))
    rw [bare] at filled
    cases filled
  cases stored.symm.trans stored'
  cases body_ok.symm.trans body_ok'
  cases (formed.body_shows body_ok).2.1.symm.trans ids_ok
  obtain ⟨code', _, formed', -, closed, -⟩ := formed.allocated_plain body_ok stored complete plan_ok result_ok
  cases formed'.layout_eq laid
  rw [← formed.content_layout held] at laid coded
  refine ⟨chosen, content_eq_ok.mpr ⟨(applied_record stored complete plan_ok result_ok).1, laid, ?_⟩, code', formed', closed⟩
  exact List.forall₂_map_right_iff.mpr coded

/-! ## Functions one after the other -/

/-- What is chosen for a function and what becomes of it, according to its contents. -/
def outlook (m : Machine) (config : Config) (f : FuncId) : Except Fault (Choice × Content) := do
  let c ← m.content f
  let a := Allocation.make config (← m.body f) c.node.frame
  return (a.choice, c.allocated a)

variable {after : Content}

theorem outlook_eq_ok : m.outlook config f = .ok (choice, after) ↔ ∃ c body, m.content f = .ok c ∧
    m.body f = .ok body ∧ (Allocation.make config body c.node.frame).choice = choice ∧
      c.allocated (Allocation.make config body c.node.frame) = after := by
  simp only [outlook, bind_eq_ok, pure_eq_ok, Prod.mk.injEq, exists_and_left]

theorem Formed.outlook_congr (formed : m.Formed code layout) (formed' : m'.Formed code' layout)
    (held : m.content f = .ok c) (held' : m'.content f = .ok c) (labels : ∀ b, m'.label b = m.label b)
    (expected : m.outlook config f = .ok (choice, after)) : m'.outlook config f = .ok (choice, after) := by
  obtain ⟨_, body, same, body_ok, chosen, became⟩ := outlook_eq_ok.mp expected
  cases held.symm.trans same
  have closed := (formed'.closed_iff held').mpr ((formed.closed_iff held).mp (formed.closed_of_body body_ok))
  obtain ⟨stored, laid, -⟩ := content_eq_ok.mp held
  have filled := layout_ne_nil body_ok (formed.layout_ok stored)
  obtain ⟨body', body_ok'⟩ := formed'.body_ok closed (formed'.layout_ok (content_eq_ok.mp held').1) filled
  cases formed.body_congr formed' held held' labels body_ok body_ok'
  exact outlook_eq_ok.mpr ⟨c, _, held', body_ok', chosen, became⟩

/-- The machine `m'` has the functions and labels of `m`. The functions `fs` have new contents, all others their own. -/
structure Reaches (m m' : Machine) (layout : FuncId → List BlockId) (fs : List FuncId) (after : FuncId → Content) :
    Prop where
  formed : ∃ code, m'.Formed code layout
  labels : ∀ b, m'.label b = m.label b
  funcIds : m'.funcIds = m.funcIds
  mine : ∀ f ∈ fs, m'.content f = .ok (after f)
  others : ∀ f ∉ fs, ∀ c, m.content f = .ok c → m'.content f = .ok c

theorem runFunctions_cons_ok {a : Allocator} {rest : List FuncId} {node : FuncNode} (stored : m.func f = .ok node)
    (internal : node.external = false) {report : Allocator.Report (List (FuncId × Choice))}
    {choices : List (FuncId × Choice)} (ran : a.runFunctions m (f :: rest) = .ok report)
    (success : report.outcome = .ok choices) :
    ∃ done choice others choices', m.allocate a.config f = .ok done ∧ done.outcome = .ok choice ∧
      Allocator.runFunctions { a with total := a.total.add choice.stats } done.machine rest = .ok others ∧
      others.outcome = .ok choices' ∧ choices = (f, choice) :: choices' ∧ report.machine = others.machine ∧
      report.allocator = others.allocator := by
  simp only [Allocator.runFunctions, Allocator.runFunction, stored, ok_bind, internal, Bool.false_eq_true, if_false,
    bind_eq_ok, pure_eq_ok] at ran
  obtain ⟨_, ⟨done, allocated, rfl⟩, ran⟩ := ran
  cases outcome : done.outcome with
  | error exhausted =>
    simp only [outcome] at ran
    cases ran
    cases success
  | ok choice =>
    simp only [outcome, bind_eq_ok, pure_eq_ok] at ran
    obtain ⟨others, ran, rfl⟩ := ran
    obtain ⟨choices', success', rfl⟩ := map_eq_ok.mp success
    exact ⟨done, choice, others, choices', allocated, outcome, ran, success', rfl, rfl, rfl⟩

/-- Functions that are allocated one after the other fare as each would on its own. -/
theorem Formed.run_outlook (formed : m.Formed code layout) {a : Allocator} {fs : List FuncId}
    {choice : FuncId → Choice} {after : FuncId → Content} (once : fs.Nodup)
    (internal : ∀ f ∈ fs, ∃ node, m.func f = .ok node ∧ node.external = false)
    (expected : ∀ f ∈ fs, m.outlook a.config f = .ok (choice f, after f))
    {report : Allocator.Report (List (FuncId × Choice))} {choices : List (FuncId × Choice)}
    (ran : a.runFunctions m fs = .ok report) (success : report.outcome = .ok choices) :
    choices = fs.map (fun f => (f, choice f)) ∧
      report.allocator.total = fs.foldl (fun total f => total.add (choice f).stats) a.total ∧
      m.Reaches report.machine layout fs after := by
  -- over the order; the rest of it is run on the machine that the first function leaves
  induction fs generalizing m code a report choices with
  | nil =>
    cases ran
    cases success
    exact ⟨rfl, rfl, ⟨code, formed⟩, fun _ => rfl, rfl, nofun, fun _ _ _ => id⟩
  | cons f rest ih =>
    obtain ⟨absent, once⟩ := List.nodup_cons.mp once
    obtain ⟨node, stored, inner⟩ := internal f List.mem_cons_self
    obtain ⟨done, chosen, others, choices, allocated, outcome, ran, success', rfl, machine, allocator⟩ :=
      runFunctions_cons_ok stored inner ran success
    obtain ⟨c, body, held, body_ok, same, became⟩ := outlook_eq_ok.mp (expected f List.mem_cons_self)
    obtain ⟨rfl, mine, code', formed', -⟩ := formed.allocate_content held body_ok allocated outcome
    obtain ⟨-, labels, ids, untouched⟩ := formed.allocate_untouched allocated outcome
    have kept (g : FuncId) (other : g ≠ f) (c : Content) (held : m.content g = .ok c) :
        done.machine.content g = .ok c :=
      (untouched g c.node other (content_eq_ok.mp held).1).content held
    have apart (g : FuncId) (member : g ∈ rest) : g ≠ f := fun same => absent (same ▸ member)
    have internal' : ∀ g ∈ rest, ∃ node, done.machine.func g = .ok node ∧ node.external = false := by
      intro g member
      obtain ⟨node, stored, inner⟩ := internal g (List.mem_cons_of_mem _ member)
      exact ⟨node, (untouched g node (apart g member) stored).func.trans stored, inner⟩
    have expected' : ∀ g ∈ rest, done.machine.outlook a.config g = .ok (choice g, after g) := by
      intro g member
      have own := expected g (List.mem_cons_of_mem _ member)
      obtain ⟨_, _, held, -⟩ := outlook_eq_ok.mp own
      exact formed.outlook_congr formed' held (kept g (apart g member) _ held) labels own
    obtain ⟨rfl, total, reaches⟩ := ih (a := { a with total := a.total.add (choice f).stats }) formed' once internal'
      expected' (same ▸ ran) success'
    rw [machine, allocator]
    refine ⟨by rw [List.map_cons, same], total, reaches.formed, fun b => (reaches.labels b).trans (labels b),
      reaches.funcIds.trans ids, fun g member => ?_, fun g outside c held => ?_⟩
    · rcases List.mem_cons.mp member with rfl | member
      · exact reaches.others g absent _ (became ▸ mine)
      · exact reaches.mine g member
    · obtain ⟨other, outside⟩ := not_or.mp (List.mem_cons.not.mp outside)
      exact reaches.others g outside c (kept g other c held)

end Machine

/-! ## Orders -/

theorem Stats.add_right_comm (a b c : Stats) : (a.add b).add c = (a.add c).add b := by
  simp only [add, Nat.add_right_comm]

namespace Machine

variable {m : Machine} {f : FuncId} {fs gs : List FuncId}

def isInternal (m : Machine) (f : FuncId) : Bool := (m.funcs.get? f.slot).any fun node => !node.external

def Order (m : Machine) (fs : List FuncId) : Prop := fs.Perm (m.funcIds.filter m.isInternal)

instance (m : Machine) (fs : List FuncId) : Decidable (m.Order fs) := inferInstanceAs (Decidable (fs.Perm _))

theorem isInternal_iff : m.isInternal f = true ↔ ∃ node, m.func f = .ok node ∧ node.external = false := by
  simp [isInternal, func_eq_ok, Option.any_eq_true]

theorem Order.nodup (order : m.Order fs) : fs.Nodup := order.nodup_iff.mpr (m.funcIds_nodup.filter _)

theorem Order.mem_iff (order : m.Order fs) :
    f ∈ fs ↔ ∃ node, m.func f = .ok node ∧ node.external = false := by
  rw [List.Perm.mem_iff order, List.mem_filter, isInternal_iff, mem_funcIds]
  constructor
  · exact fun ⟨_, inner⟩ => inner
  · exact fun ⟨node, stored, inner⟩ => ⟨⟨node, stored⟩, node, stored, inner⟩

theorem Reaches.content {layout : FuncId → List BlockId} {after : FuncId → Content} {m' : Machine} {c : Content}
    (reaches : m.Reaches m' layout fs after) (held : m.content f = .ok c) :
    m'.content f = .ok (if f ∈ fs then after f else c) := by
  split
  · next member => exact reaches.mine f member
  · next outside => exact reaches.others f outside c held

theorem Reaches.text_congr {code : BlockId → List InstId} {layout : FuncId → List BlockId}
    {after : FuncId → Content} {m₁ m₂ : Machine} (formed : m.Formed code layout)
    (first : m.Reaches m₁ layout fs after) (second : m.Reaches m₂ layout gs after) (same : ∀ f, f ∈ gs ↔ f ∈ fs) :
    m₂.text = m₁.text := by
  obtain ⟨_, formed₁⟩ := first.formed
  obtain ⟨_, formed₂⟩ := second.formed
  have funcs : m.funcIds.mapM m₂.funcText = m.funcIds.mapM m₁.funcText := by
    refine mapM_congr fun f member => ?_
    obtain ⟨node, stored⟩ := mem_funcIds.mp member
    obtain ⟨_, held⟩ := formed.content_ok stored
    have held₂ := second.content held
    simp only [same] at held₂
    exact formed₁.funcText_congr formed₂ (first.content held) held₂ fun b =>
      (second.labels b).trans (first.labels b).symm
  rw [text, text, first.funcIds, second.funcIds, funcs]

theorem Reaches.text_ok {code : BlockId → List InstId} {layout : FuncId → List BlockId} {after : FuncId → Content}
    {m' : Machine} (formed : m.Formed code layout) (reaches : m.Reaches m' layout fs after) (order : m.Order fs)
    (closed : ∀ f ∈ fs, (after f).Closed) : ∃ listing, m'.text = .ok listing := by
  obtain ⟨_, formed'⟩ := reaches.formed
  obtain ⟨texts, listed⟩ : ∃ texts, m.funcIds.mapM m'.funcText = .ok texts := by
    refine exists_mapM_eq_ok fun f member => ?_
    obtain ⟨node, stored⟩ := mem_funcIds.mp member
    obtain ⟨_, held⟩ := formed.content_ok stored
    by_cases inOrder : f ∈ fs
    · have held' := reaches.mine f inOrder
      exact formed'.funcText_ok (content_eq_ok.mp held').1 (.inr ((formed'.closed_iff held').mpr (closed f inOrder)))
    · have external : node.external = true := by
        by_contra inner
        exact inOrder (order.mem_iff.mpr ⟨node, stored, by simpa using inner⟩)
      exact formed'.funcText_ok (content_eq_ok.mp (reaches.others f inOrder _ held)).1 (.inl external)
  exact ⟨_, by rw [text, reaches.funcIds, listed]; rfl⟩

theorem Loaded.run_order {code : BlockId → List InstId} {layout : FuncId → List BlockId} (loaded : m.Loaded code layout)
    (order : m.Order fs) (a : Allocator) :
    ∃ report choices, a.runFunctions m fs = .ok report ∧ report.outcome = .ok choices := by
  have awaits : m.Awaits code layout (fs ++ []) := by
    refine ⟨loaded.formed, fun f member => ?_⟩
    rw [List.append_nil] at member
    obtain ⟨node, stored, -⟩ := order.mem_iff.mp member
    exact loaded.awaits.each f (mem_funcIds.mpr ⟨node, stored⟩)
  obtain ⟨report, choices, -, ran, success, -⟩ := awaits.run (by rw [List.append_nil]; exact order.nodup) a
  exact ⟨report, choices, ran, success⟩

/-- A function on its own can be allocated and has the outlook that its contents give. -/
theorem Loaded.exists_outlook {code : BlockId → List InstId} {layout : FuncId → List BlockId}
    (loaded : m.Loaded code layout) (config : Config) (f : FuncId) (internal : m.isInternal f = true) :
    ∃ choice after, m.outlook config f = .ok (choice, after) ∧ after.Closed ∧
      ∃ done, m.allocate config f = .ok done ∧ done.outcome = .ok choice := by
  have formed := loaded.formed
  obtain ⟨node, stored, inner⟩ := isInternal_iff.mp internal
  have ready := loaded.ready_of_func stored inner
  obtain ⟨body, body_ok⟩ := formed.body_ok ready.closed (formed.layout_ok stored) ready.filled
  obtain ⟨_, held⟩ := formed.content_ok stored
  obtain ⟨done, choice, _, allocated, success, -⟩ := formed.allocate_ready ready config
  obtain ⟨rfl, became, _, formed', closed⟩ := formed.allocate_content held body_ok allocated success
  exact ⟨_, _, outlook_eq_ok.mpr ⟨_, body, held, body_ok, rfl, rfl⟩, (formed'.closed_iff became).mp closed, done,
    allocated, success⟩

end Machine

/-- Functions are allocated independently. Allocating one function of a source text leaves all others as they are, and
the virtual registers given out. In whatever order the functions are allocated, each gets the choice that it gets if it
is the only one, the listing is the same, and so are the counts. -/
theorem functions_allocated_independently {source : String} {m : Machine} (read : Source.read source = .ok m)
    (a : Allocator) :
    (∀ f report choice, a.runFunction m f = .ok report → report.outcome = .ok choice →
      report.machine.nextVirt = m.nextVirt ∧
        ∀ g node, g ≠ f → m.func g = .ok node → m.Untouched report.machine g) ∧
    ∃ (choice : FuncId → Choice) (listing : String) (total : Stats),
      (∀ f node, m.func f = .ok node → node.external = false → ∃ report, a.runFunction m f = .ok report ∧
        report.outcome = .ok (choice f)) ∧
      ∀ fs, m.Order fs → ∃ report, a.runFunctions m fs = .ok report ∧
        report.outcome = .ok (fs.map fun f => (f, choice f)) ∧ report.machine.text = .ok listing ∧
        report.allocator.total = total := by
  obtain ⟨code, layout, loaded⟩ := Source.read_loaded read
  have formed := loaded.formed
  constructor
  · intro f report choice ran success
    simp only [Allocator.runFunction, bind_eq_ok, pure_eq_ok] at ran
    obtain ⟨done, allocated, rfl⟩ := ran
    obtain ⟨counted, -, -, untouched⟩ := formed.allocate_untouched allocated success
    exact ⟨counted, untouched⟩
  · have : Nonempty Choice := ⟨{}⟩
    have : Nonempty Machine.Content := ⟨⟨{ label := "", external := true }, [], []⟩⟩
    choose! choice after expected closed alone using loaded.exists_outlook a.config
    have runs (fs : List FuncId) (order : m.Order fs) : ∃ report, a.runFunctions m fs = .ok report ∧
        report.outcome = .ok (fs.map fun f => (f, choice f)) ∧
        report.allocator.total = fs.foldl (fun total f => total.add (choice f).stats) a.total ∧
        m.Reaches report.machine layout fs after := by
      obtain ⟨report, choices, ran, outcome⟩ := loaded.run_order order a
      obtain ⟨rfl, total, reaches⟩ := formed.run_outlook order.nodup (fun f => order.mem_iff.mp)
        (fun f member => expected f (Machine.isInternal_iff.mpr (order.mem_iff.mp member))) ran outcome
      exact ⟨report, ran, outcome, total, reaches⟩
    -- every order is compared with that of the slots
    have slots : m.Order (m.funcIds.filter m.isInternal) := .refl _
    obtain ⟨report, -, -, counted, reaches⟩ := runs _ slots
    obtain ⟨listing, listed⟩ := reaches.text_ok formed slots fun f member =>
      closed f (Machine.isInternal_iff.mpr (slots.mem_iff.mp member))
    refine ⟨choice, listing, report.allocator.total, fun f node stored inner => ?_, fun fs order => ?_⟩
    · obtain ⟨done, allocated, success⟩ := alone f (Machine.isInternal_iff.mpr ⟨node, stored, inner⟩)
      exact ⟨_, by rw [Allocator.runFunction, allocated]; rfl, success⟩
    · obtain ⟨report', ran, outcome, total, reaches'⟩ := runs fs order
      refine ⟨report', ran, outcome, ?_, ?_⟩
      · rw [reaches.text_congr formed reaches' fun f => order.mem_iff.trans slots.mem_iff.symm, listed]
      · rw [total, counted]
        exact List.Perm.foldl_eq' order (fun f _ g _ total => Stats.add_right_comm ..) _

/-- Two functions that each keep a constant while their argument is live. -/
def constantsAdded : String :=
  ".func f\nli $r0, 1\nadd $r1, $r0, a0\nadd $r1, $r1, $r0\nmv a0, $r1\nret a0\n" ++
    ".func g\nli $r2, 2\nadd $r3, $r2, a0\nadd $r3, $r3, $r2\nmv a0, $r3\nret a0\n"

/-- With one register to hand out both functions need spill code, which is stored in the order in which they are
allocated. -/
theorem constants_added_independently :
    ∃ (m : Machine) (report report' : Allocator.Report (List (FuncId × Choice))) (choice : FuncId → Choice),
      Source.read constantsAdded = .ok m ∧ m.Order [⟨0⟩, ⟨1⟩] ∧ m.Order [⟨1⟩, ⟨0⟩] ∧
      Allocator.runFunctions { config := { registerLimit := some 1 } } m [⟨0⟩, ⟨1⟩] = .ok report ∧
      Allocator.runFunctions { config := { registerLimit := some 1 } } m [⟨1⟩, ⟨0⟩] = .ok report' ∧
      report.machine.instList ⟨0⟩ ≠ report'.machine.instList ⟨0⟩ ∧
      report.outcome = .ok [(⟨0⟩, choice ⟨0⟩), (⟨1⟩, choice ⟨1⟩)] ∧
      report'.outcome = .ok [(⟨1⟩, choice ⟨1⟩), (⟨0⟩, choice ⟨0⟩)] ∧
      report.machine.text = report'.machine.text ∧ report.allocator.total = report'.allocator.total := by
  have run : (do
      let m ← (Source.read constantsAdded).toOption
      let report ← (Allocator.runFunctions { config := { registerLimit := some 1 } } m [⟨0⟩, ⟨1⟩]).toOption
      let report' ← (Allocator.runFunctions { config := { registerLimit := some 1 } } m [⟨1⟩, ⟨0⟩]).toOption
      return decide (m.Order [⟨0⟩, ⟨1⟩] ∧ m.Order [⟨1⟩, ⟨0⟩] ∧ (report.machine.instList ⟨0⟩).toOption ≠
        (report'.machine.instList ⟨0⟩).toOption)) = some true := by
    decide +kernel
  simp only [bind, Option.bind_eq_some_iff, toOption_eq_some, pure, Option.some.injEq, decide_eq_true_eq] at run
  obtain ⟨m, read, report, ran, report', ran', order, order', differ⟩ := run
  obtain ⟨-, choice, listing, total, -, same⟩ :=
    functions_allocated_independently read { config := { registerLimit := some 1 } }
  obtain ⟨_, again, outcome, listed, counted⟩ := same _ order
  cases ran.symm.trans again
  obtain ⟨_, again, outcome', listed', counted'⟩ := same _ order'
  cases ran'.symm.trans again
  exact ⟨m, report, report', choice, read, order, order', ran, ran', fun same => differ (by rw [same]), outcome, outcome',
    listed.trans listed'.symm, counted.trans counted'.symm⟩

end RegisterAllocator
