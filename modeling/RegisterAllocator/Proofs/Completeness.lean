import RegisterAllocator.Proofs.Conservation
import RegisterAllocator.Proofs.Progress
import RegisterAllocator.Proofs.Success

/-!
# Completeness of allocation

A successful allocation gives every virtual register that the function's instructions name one place, a register or a
slot, and no other virtual register gets one (`make_covers`). Afterwards the function names physical registers only, so
a further allocation finds nothing to do and leaves the machine as it is (`allocate_physical`).
-/

namespace RegisterAllocator

/-! ## Virtual registers in instructions -/

namespace Inst

variable {τ τ' : Type} {inst : Inst τ}

def Mentions (inst : Inst τ) (v : VirtReg) : Prop := .virt v ∈ inst.uses ∨ .virt v ∈ inst.defs

def Physical (inst : Inst τ) : Prop := ∀ v, ¬inst.Mentions v

theorem mentions_mapTarget (h : τ → τ') {v : VirtReg} : (inst.mapTarget h).Mentions v ↔ inst.Mentions v := by
  rw [Mentions, uses_mapTarget, defs_mapTarget, Mentions]

theorem physical_mapTarget (h : τ → τ') : (inst.mapTarget h).Physical ↔ inst.Physical :=
  forall_congr' fun _ => not_congr (mentions_mapTarget h)

theorem physical_renamed {f g : Reg → Reg} (steadyF : Steady f) (steadyG : Steady g)
    (reads : ∀ reg ∈ inst.uses, ∃ phys : PhysReg, f reg = phys)
    (writes : ∀ reg ∈ inst.defs, ∃ phys : PhysReg, g reg = phys) : ((inst.mapUses f).mapDefs g).Physical := by
  intro v mentioned
  rcases mentioned with member | member
  · rw [uses_mapDefs, uses_mapUses steadyF] at member
    obtain ⟨reg, uses, renamed⟩ := List.mem_map.mp member
    obtain ⟨phys, found⟩ := reads reg uses
    cases renamed.symm.trans found
  · rw [defs_mapDefs steadyG, defs_mapUses] at member
    obtain ⟨reg, defs, renamed⟩ := List.mem_map.mp member
    obtain ⟨phys, found⟩ := writes reg defs
    cases renamed.symm.trans found

@[simp] theorem targets_mapUses (f : Reg → Reg) : (inst.mapUses f).targets = inst.targets := by cases inst <;> rfl

@[simp] theorem targets_mapDefs (f : Reg → Reg) : (inst.mapDefs f).targets = inst.targets := by cases inst <;> rfl

@[simp] theorem targets_mapTarget (h : τ → τ') : (inst.mapTarget h).targets = inst.targets.map h := by
  cases inst <;> rfl

theorem accessSlot_plain {access : Reg → Imm12 → Inst τ} {address : PhysReg} {offset : UInt64}
    (plain : ∀ (base : PhysReg) offset, (access base offset).Physical ∧ (access base offset).targets = [])
    (member : inst ∈ accessSlot access address offset) : inst.Physical ∧ inst.targets = [] := by
  unfold accessSlot at member
  split at member
  · rw [List.mem_singleton.mp member]
    exact plain _ _
  · simp only [List.mem_cons, List.not_mem_nil, or_false] at member
    rcases member with rfl | rfl | rfl
    · exact ⟨fun v => by simp [Mentions, uses, defs], rfl⟩
    · exact ⟨fun v => by simp [Mentions, uses, defs], rfl⟩
    · exact plain _ _

theorem loadSlot_plain {data address : PhysReg} {offset : UInt64} (member : inst ∈ loadSlot data address offset) :
    inst.Physical ∧ inst.targets = [] := by
  apply accessSlot_plain _ member
  intro base offset
  exact ⟨fun v => by simp [Mentions, uses, defs], rfl⟩

theorem storeSlot_plain {data address : PhysReg} {offset : UInt64} (member : inst ∈ storeSlot data address offset) :
    inst.Physical ∧ inst.targets = [] := by
  apply accessSlot_plain _ member
  intro base offset
  exact ⟨fun v => by simp [Mentions, uses, defs], rfl⟩

end Inst

/-! ## Virtual registers with places -/

def Body.Mentions (body : Body) (v : VirtReg) : Prop := ∃ inst ∈ body.insts, inst.Mentions v

/-- A choice gives every virtual register of a set one place, and no other one any. -/
structure Choice.Covers (choice : Choice) (named : VirtReg → Prop) : Prop where
  assignedOnce : (choice.assignment.map Prod.fst).Nodup
  slotsOnce : (choice.slots.map Prod.fst).Nodup
  placed : ∀ v, named v ↔ v ∈ choice.assignment.map Prod.fst ∨ v ∈ choice.slots.map Prod.fst
  apart : ∀ v ∈ choice.assignment.map Prod.fst, v ∉ choice.slots.map Prod.fst

section

variable {config : Config} {body : Body} {frame : UInt64}

theorem mem_webs {v : VirtReg} :
    (∃ (web : Nat) (w : Web), (Allocation.make config body frame).problem.webs[web]? = some w ∧ w.reg = v) ↔
      body.Mentions v := by
  have listed : (∃ (web : Nat) (w : Web), (Allocation.make config body frame).problem.webs[web]? = some w ∧
      w.reg = v) ↔ v ∈ (Allocation.make config body frame).problem.webs.toList.map Web.reg := by
    rw [List.mem_map]
    constructor
    · rintro ⟨web, w, known, same⟩
      exact ⟨w, List.mem_of_getElem? (Array.getElem?_toList.trans known), same⟩
    · rintro ⟨w, member, same⟩
      obtain ⟨web, known⟩ := List.mem_iff_getElem?.mp member
      exact ⟨web, w, Array.getElem?_toList.symm.trans known, same⟩
  have virtual {reg : Reg} : reg.virt? = some v ↔ reg = .virt v := by cases reg <;> simp [Reg.virt?]
  rw [listed, webs_regs]
  simp only [List.mem_filterMap, virtual, exists_eq_right, RegSet.mem_toList, Liveness.mem_regs]
  exact and_iff_right rfl

theorem placed_of_web {web : Nat} {w : Web} (known : (Allocation.make config body frame).problem.webs[web]? = some w) :
    (∃ reg, (w.reg, reg) ∈ (Allocation.make config body frame).assignment) ∨
      w.reg ∈
        (Allocation.make config body frame).problem.spills (Allocation.make config body frame).search.decisions := by
  obtain ⟨n, reached, empty⟩ := SearchState.finish_drained (@problem_proper config body frame)
  have sound := reached.reachable.sound problem_proper
  by_cases done : (SearchState.finish (Allocation.make config body frame).problem).stage web = .done
  · have bound : web < (Allocation.make config body frame).problem.webs.size := (Array.getElem?_eq_some_iff.mp known).1
    have onStack := ((reached.books problem_proper).1.onStack web).mpr ⟨bound, done⟩
    exact .inr (mem_spills.mpr ⟨web, w, onStack, known, rfl⟩)
  · obtain ⟨reg, home⟩ := SearchState.home_of_drained sound empty done
    exact .inl ⟨reg, mem_assignment.mpr ⟨web, w, known, rfl, home⟩⟩

theorem make_covers (complete : (Allocation.make config body frame).plan.ending = .complete) :
    (Allocation.make config body frame).choice.Covers body.Mentions := by
  have balanced := make_balanced complete
  have slots (v : VirtReg) : v ∈ (Allocation.make config body frame).slots.map Prod.fst ↔
      v ∈ (Allocation.make config body frame).problem.spills (Allocation.make config body frame).search.decisions := by
    rw [slots_perm complete |>.mem_iff]
  refine ⟨balanced.assignedOnce, balanced.slotsOnce, fun v => ?_, fun v assigned onStack => ?_⟩
  · rw [← @mem_webs config body frame, Allocation.choice_assignment, Allocation.choice_slots, slots]
    constructor
    · rintro ⟨web, w, known, rfl⟩
      apply (placed_of_web known).imp _ id
      rintro ⟨reg, member⟩
      exact List.mem_map.mpr ⟨_, member, rfl⟩
    · rintro (assigned | onStack)
      · obtain ⟨⟨v, reg⟩, member, rfl⟩ := List.mem_map.mp assigned
        obtain ⟨web, w, known, same, -⟩ := mem_assignment.mp member
        exact ⟨web, w, known, same⟩
      · obtain ⟨web, w, -, known, same⟩ := mem_spills.mp onStack
        exact ⟨web, w, known, same⟩
  · rw [Allocation.choice_slots, slots] at onStack
    obtain ⟨⟨v, reg⟩, member, rfl⟩ := List.mem_map.mp assigned
    exact not_assigned_of_spilled onStack member

end

/-! ## Code without virtual registers -/

theorem Replaced.plain {τ : Type} {slots : List (VirtReg × UInt64)} {rename : Reg → Reg} {name : Nat → τ}
    {inst : Inst Nat} {code : List (Bool × Inst τ)} (replaced : Replaced slots rename name inst code)
    (steady : Inst.Steady rename)
    (placed : ∀ v, inst.Mentions v → v ∈ slots.map Prod.fst ∨ ∃ reg : PhysReg, rename (.virt v) = reg) :
    ∀ marked ∈ code, marked.2.Physical ∧ ∀ target ∈ marked.2.targets, target ∈ inst.targets.map name := by
  obtain ⟨p, loads, stores, own, rfl, carries, rfl, kept⟩ := replaced
  -- A transfer moves a register on the stack; a register that no transfer moves is renamed.
  have moved {transfers : List Transfer} (once : (transfers.map Transfer.reg).Nodup) {named : List Reg}
      (each : ∀ v offset, (∃ t ∈ transfers, t.reg = v ∧ t.offset = offset) ↔ (v, offset) ∈ slots ∧ .virt v ∈ named)
      (mentioned : ∀ v, .virt v ∈ named → p.source.Mentions v) (reg : Reg) (member : reg ∈ named) :
      ∃ phys : PhysReg, (rename ∘ substitute transfers) reg = phys := by
    cases reg with
    | phys reg => exact ⟨reg, steady reg⟩
    | virt v =>
      by_cases onStack : v ∈ slots.map Prod.fst
      · obtain ⟨⟨v, offset⟩, slot, rfl⟩ := List.mem_map.mp onStack
        obtain ⟨t, transferred, rfl, -⟩ := (each v offset).mpr ⟨slot, member⟩
        refine ⟨t.data, ?_⟩
        rw [Function.comp_apply, substitute_of_mem once transferred]
        exact steady t.data
      · rw [Function.comp_apply, substitute_of_not_moved]
        · exact (placed v (mentioned v member)).resolve_left onStack
        · rintro t transferred rfl
          exact onStack (List.mem_map.mpr ⟨_, ((each t.reg t.offset).mp ⟨t, transferred, rfl, rfl⟩).1, rfl⟩)
  have still (transfers : List Transfer) : Inst.Steady (rename ∘ substitute transfers) := fun reg => steady reg
  intro marked member
  rw [List.mem_append, List.mem_append] at member
  rcases member with (member | member) | member
  · obtain ⟨inst, loaded, rfl⟩ := List.mem_map.mp member
    obtain ⟨t, -, inSlot⟩ := List.mem_flatMap.mp loaded
    obtain ⟨physical, nowhere⟩ := Inst.loadSlot_plain inSlot
    exact ⟨physical, by simp [nowhere]⟩
  · rcases kept with rfl | ⟨rfl, -⟩
    · rw [List.mem_singleton.mp member]
      refine ⟨?_, by simp⟩
      apply Inst.physical_renamed (still loads) (still stores)
      · rw [Inst.uses_mapTarget]
        exact moved carries.loadsOnce carries.loaded fun v => .inl
      · rw [Inst.defs_mapTarget]
        exact moved carries.storesOnce carries.stored fun v => .inr
    · cases member
  · obtain ⟨inst, stored, rfl⟩ := List.mem_map.mp member
    obtain ⟨t, -, inSlot⟩ := List.mem_flatMap.mp stored
    obtain ⟨physical, nowhere⟩ := Inst.storeSlot_plain inSlot
    exact ⟨physical, by simp [nowhere]⟩

section

variable {config : Config} {body : Body} {frame : UInt64}

theorem make_placed (complete : (Allocation.make config body frame).plan.ending = .complete) {v : VirtReg}
    (mentioned : body.Mentions v) : v ∈ (Allocation.make config body frame).plan.slots.map Prod.fst ∨
      ∃ reg : PhysReg, (Allocation.make config body frame).rename (.virt v) = reg := by
  rcases ((make_covers complete).placed v).mp mentioned with assigned | onStack
  · obtain ⟨⟨v, reg⟩, member, rfl⟩ := List.mem_map.mp assigned
    exact .inr ⟨reg, rename_eq.mpr member⟩
  · rw [Allocation.choice_slots, (slots_perm complete).mem_iff] at onStack
    exact .inl (plan_slots complete ▸ onStack)

end

namespace Machine

variable {start m : Machine} {code : BlockId → List InstId} {layout : FuncId → List BlockId} {f : FuncId} {body : Body}

/-- After a successful allocation the code of the function is closed and names physical registers only. -/
theorem Formed.allocated_plain (formed : start.Formed code layout) (found : start.body f = .ok body) {node : FuncNode}
    (stored : start.func f = .ok node) {config : Config} {planned : Machine}
    (complete : (Allocation.make config body node.frame).plan.ending = .complete)
    (plan_ok : start.applyPlan f ((layout f).flatMap code).toArray (Allocation.make config body node.frame).plan =
      .ok planned)
    (result_ok : planned.applyResult f ((layout f).flatMap code).toArray (Allocation.make config body node.frame) =
      .ok m) :
    ∃ code' node', m.Formed code' layout ∧ m.func f = .ok node' ∧ m.Closed code' (layout f) ∧
      ∀ b ∈ layout f, ∀ i ∈ code' b, ∀ inst, m.inst i = .ok inst → inst.Physical := by
  obtain ⟨patch, gone, lead, trail, woven, -⟩ := allocation_woven formed found stored complete plan_ok result_ok
  obtain ⟨-, replaced⟩ := formed.allocated_blocks found stored complete plan_ok result_ok
  have blocks := (formed.holds_body found).1
  have plain (b : BlockId) (member : b ∈ layout f) (i : InstId)
      (inCode : i ∈ (code b).flatMap (piece lead trail gone)) : ∃ inst, m.inst i = .ok inst ∧ inst.Physical ∧
        ∀ target ∈ inst.targets, target ∈ layout f := by
    obtain ⟨position, located⟩ := List.mem_iff_getElem?.mp member
    obtain ⟨block, inBody, -⟩ := forall₂_getElem? blocks located
    obtain ⟨codes, marks, pieces⟩ := replaced position b block located inBody
    rw [markedInsts, woven.formed.code_ok member, ok_bind, mapM_eq_ok] at marks
    obtain ⟨k, here⟩ := List.mem_iff_getElem?.mp inCode
    obtain ⟨marked, inCodes, read⟩ := forall₂_getElem? marks here
    obtain ⟨piece, inPieces, inPiece⟩ := List.mem_flatten.mp (List.mem_of_getElem? inCodes)
    obtain ⟨source, inBlock, replaces⟩ := forall₂_mem_right pieces inPieces
    have inInsts : source ∈ body.insts :=
      List.mem_flatMap.mpr ⟨block, List.mem_of_getElem? inBody, inBlock⟩
    obtain ⟨physical, targets⟩ := replaces.plain (fun _ => rfl)
      (fun v mentioned => make_placed complete ⟨source, inInsts, mentioned⟩) marked inPiece
    simp only [markedInst, bind_eq_ok, pure_eq_ok] at read
    obtain ⟨inst, stored, rfl⟩ := read
    refine ⟨inst, stored, physical, fun target inTargets => ?_⟩
    obtain ⟨place, inSource, rfl⟩ := List.mem_map.mp (targets target inTargets)
    have bound := formed.targets_lt found block (List.mem_of_getElem? inBody) source inBlock place inSource
    rw [Body.size, ← blocks.length_eq] at bound
    rw [nameAt, List.getElem?_eq_getElem bound]
    exact List.getElem_mem bound
  obtain ⟨node', stored'⟩ : ∃ node', m.funcs.get? f.slot = some node' := by
    have known := woven.funcs f
    rw [func_eq_ok.mp stored] at known
    exact Option.isSome_iff_exists.mp known
  refine ⟨_, node', woven.formed, func_eq_ok.mpr stored', fun b member i inCode => ?_,
    fun b member i inCode inst read => ?_⟩
  · obtain ⟨inst, read, -, targets⟩ := plain b member i inCode
    exact ⟨inst, read, targets⟩
  · obtain ⟨_, read', physical, -⟩ := plain b member i inCode
    rw [read] at read'
    cases read'
    exact physical

end Machine

/-! ## Allocation once more -/

theorem SearchState.finish_bare {p : Problem} (bare : p.webs = #[]) : (finish p).trace = [] := by
  simp [finish, start, bare, run, step?, dequeue?, Ticket.pop?]

/-- An allocation that changes nothing. -/
structure Allocation.Idle (a : Allocation) : Prop where
  steps : a.plan.steps = []
  ending : a.plan.ending = .complete
  homed : a.homed = []
  assignment : a.assignment = []
  slots : a.slots = []
  drops : a.drops = []
  stats : a.stats = {}

theorem Inst.Physical.not_copy {τ : Type} {inst : Inst τ} (physical : inst.Physical) {dst src : Reg}
    (copies : inst.copy? = some (dst, src)) : (dst.isVirt || src.isVirt) = false := by
  obtain ⟨writes, reads⟩ := copy?_eq_some copies
  have written : dst ∈ inst.defs := by simp [writes]
  cases dst with
  | virt v => exact absurd (.inr written) (physical v)
  | phys =>
    cases src with
    | virt v => exact absurd (.inl reads) (physical v)
    | phys => rfl

theorem Inst.Physical.not_dropped {inst : Inst Nat} (physical : inst.Physical) :
    (Patch.ofInst inst).identity? = none := by
  have source : (Patch.ofInst inst).source = inst := rfl
  rw [Patch.identity?, source]
  cases copies : inst.copy? with
  | none => rfl
  | some copy =>
    simp only [Option.bind_eq_bind, Option.bind_some, physical.not_copy copies]
    rfl

theorem make_idle {config : Config} {body : Body} {frame : UInt64} (physical : ∀ inst ∈ body.insts, inst.Physical) :
    (Allocation.make config body frame).Idle := by
  have bare : (Allocation.make config body frame).problem.webs = #[] := by
    apply Array.eq_empty_of_size_eq_zero
    by_contra some
    have known := Array.getElem?_eq_getElem (Nat.pos_of_ne_zero some)
    obtain ⟨inst, member, mentioned⟩ := (@mem_webs config body frame _).mp ⟨0, _, known, rfl⟩
    exact physical inst member _ mentioned
  have decisions : (Allocation.make config body frame).search.decisions = [] := by
    have trace : (Allocation.make config body frame).search.trace = [] := SearchState.finish_bare bare
    rw [SearchState.decisions, trace]
    rfl
  have plan : (Allocation.make config body frame).plan = { patches := (body.insts.map .ofInst).toArray, frame } := by
    have made : (Allocation.make config body frame).plan = .make (liveRanges body) body frame
      ((Allocation.make config body frame).problem.spills (Allocation.make config body frame).search.decisions) := rfl
    rw [made, decisions]
    rfl
  have homed : (Allocation.make config body frame).homed = [] := by
    simp [Allocation.homed, Problem.homed, bare]
  have assignment : (Allocation.make config body frame).assignment = [] :=
    (congrArg (List.map _) homed).trans List.map_nil
  have drops : (Allocation.make config body frame).drops = [] := by
    rw [Allocation.drops, List.filterMap_eq_nil_iff]
    rintro ⟨p, number⟩ numbered
    obtain ⟨cell, -, located⟩ := List.mem_filterMap.mp (List.fst_mem_of_mem_zipIdx numbered)
    rw [Allocation.placed, homed, List.foldl_nil, plan] at located
    obtain ⟨inst, inBody, rfl⟩ : ∃ inst ∈ body.insts, Patch.ofInst inst = p :=
      List.mem_map.mp (List.mem_of_getElem? (List.getElem?_toArray.symm.trans located))
    rw [Option.map_eq_none_iff, Allocation.dropped?]
    split
    · exact (physical inst inBody).not_dropped
    · rfl
  refine ⟨by rw [plan], by rw [plan], homed, assignment, ?_, drops, ?_⟩
  · rw [Allocation.slots, plan]
    rfl
  · rw [Allocation.stats, decisions, bare, assignment, drops, plan]
    rfl

namespace Machine

variable {m : Machine} {f : FuncId} {ids : List InstId}

/-- Allocating a function that names physical registers only changes nothing. -/
theorem allocate_physical {node : FuncNode} (found : m.func f = .ok node) {body : Body} (body_ok : m.body f = .ok body)
    (listed : m.instList f = .ok ids) (physical : ∀ inst ∈ body.insts, inst.Physical) (config : Config) :
    ∃ again, m.allocate config f = .ok again ∧ again.machine = m ∧ again.outcome = .ok {} := by
  have idle := @make_idle config body node.frame physical
  have planned : m.applyPlan f ids.toArray (Allocation.make config body node.frame).plan = .ok m := by
    rw [applyPlan, idle.steps]
    rfl
  have result : m.applyResult f ids.toArray (Allocation.make config body node.frame) = .ok m := by
    rw [applyResult, idle.homed, idle.drops]
    rfl
  simp only [allocate, found, ok_bind]
  split
  · exact ⟨_, rfl, rfl, rfl⟩
  · simp only [body_ok, listed, ok_bind, make_fault, carryOut, planned, idle.ending, result, idle.assignment, idle.slots,
      idle.stats]
    exact ⟨_, rfl, rfl, rfl⟩

def Mentions (m : Machine) (f : FuncId) (v : VirtReg) : Prop :=
  ∃ ids, m.instList f = .ok ids ∧ ∃ i ∈ ids, ∃ inst, m.inst i = .ok inst ∧ inst.Mentions v

/-- The instructions of a function can be read and name physical registers only. -/
def Settled (m : Machine) (f : FuncId) : Prop :=
  ∃ ids, m.instList f = .ok ids ∧ ∀ i ∈ ids, ∃ inst, m.inst i = .ok inst ∧ inst.Physical

/-- A further allocation of a function succeeds, chooses nothing and leaves the machine as it is. -/
def Stable (m : Machine) (f : FuncId) : Prop :=
  ∀ config, ∃ again, m.allocate config f = .ok again ∧ again.machine = m ∧ again.outcome = .ok {}

variable {code : BlockId → List InstId} {layout : FuncId → List BlockId}

theorem Formed.settled_stable (formed : m.Formed code layout) {node : FuncNode} (found : m.func f = .ok node)
    (filled : layout f ≠ []) (closed : m.Closed code (layout f))
    (physical : ∀ b ∈ layout f, ∀ i ∈ code b, ∀ inst, m.inst i = .ok inst → inst.Physical) :
    m.Settled f ∧ m.Stable f := by
  obtain ⟨body, body_ok⟩ := formed.body_ok closed (formed.layout_ok found) filled
  have listed := (formed.body_shows body_ok).2.1
  have stored : ∀ i ∈ (layout f).flatMap code, ∃ inst, m.inst i = .ok inst ∧ inst.Physical := by
    intro i member
    obtain ⟨b, inLayout, inCode⟩ := List.mem_flatMap.mp member
    obtain ⟨inst, read, -⟩ := closed b inLayout i inCode
    exact ⟨inst, read, physical b inLayout i inCode inst read⟩
  refine ⟨⟨_, listed, stored⟩, allocate_physical found body_ok listed fun inst member => ?_⟩
  obtain ⟨i, inIds, read⟩ := forall₂_mem_right (formed.holds_body body_ok).2 member
  obtain ⟨_, read', plain⟩ := stored i inIds
  rw [read] at read'
  cases read'
  exact (Inst.physical_mapTarget _).mp plain

theorem Formed.mentions_iff (formed : m.Formed code layout) {body : Body} (body_ok : m.body f = .ok body)
    (v : VirtReg) : m.Mentions f v ↔ body.Mentions v := by
  have listed := (formed.body_shows body_ok).2.1
  have holds := (formed.holds_body body_ok).2
  constructor
  · rintro ⟨ids, listed', i, member, inst, read, mentioned⟩
    rw [listed] at listed'
    cases listed'
    obtain ⟨k, located⟩ := List.mem_iff_getElem?.mp member
    obtain ⟨source, inBody, read'⟩ := forall₂_getElem? holds located
    rw [read] at read'
    cases read'
    exact ⟨source, List.mem_of_getElem? inBody, (Inst.mentions_mapTarget _).mp mentioned⟩
  · rintro ⟨inst, inBody, mentioned⟩
    obtain ⟨i, member, read⟩ := forall₂_mem_right holds inBody
    exact ⟨_, listed, i, member, _, read, (Inst.mentions_mapTarget _).mpr mentioned⟩

theorem Formed.bare_stable (formed : m.Formed code layout) {node : FuncNode} (found : m.func f = .ok node)
    (bare : node.layout.head = none) : m.instList f = .ok [] ∧ m.Stable f := by
  have laid := formed.layout_ok found
  have ends := formed.layout.ends f node.layout (by simp [Chained.ends?, func_eq_ok.mp found])
  have none := bare
  rw [ends, List.head?_eq_none_iff] at none
  refine ⟨?_, fun config => ?_⟩
  · rw [instList, laid, none]
    rfl
  · refine ⟨{ machine := m, outcome := .ok {} }, ?_, rfl, rfl⟩
    simp only [allocate, found, ok_bind, bare]
    rfl

end Machine

/-- A successful allocation gives each virtual register that the function's instructions name one place and no other one
any. Then the function names physical registers only, and allocating it once more, however, changes nothing. -/
theorem allocation_complete_and_stable {m : Machine} (wellFormed : m.WellFormed) {f : FuncId} {config : Config}
    {done : Machine.Allocated} {choice : Choice} (allocated : m.allocate config f = .ok done)
    (success : done.outcome = .ok choice) :
    choice.Covers (m.Mentions f) ∧ done.machine.Settled f ∧ done.machine.Stable f := by
  obtain ⟨code, layout, formed⟩ := wellFormed
  obtain ⟨node, found, ⟨bare, same, rfl⟩ | ⟨body, ids, planned, body_ok, ids_ok, complete, plan_ok, result_ok, rfl⟩⟩ :=
    Machine.allocate_ok allocated success
  · obtain ⟨listed, stable⟩ := formed.bare_stable found bare
    rw [same]
    refine ⟨⟨.nil, .nil, fun v => ?_, nofun⟩, ⟨[], listed, nofun⟩, stable⟩
    constructor
    · rintro ⟨ids, listed', i, member, -⟩
      rw [listed] at listed'
      cases listed'
      cases member
    · rintro (member | member) <;> cases member
  · obtain ⟨laid, listed, -⟩ := formed.body_shows body_ok
    rw [listed] at ids_ok
    cases ids_ok
    obtain ⟨code', node', formed', found', closed, physical⟩ :=
      formed.allocated_plain body_ok found complete plan_ok result_ok
    have covers := make_covers complete
    refine ⟨{ covers with placed := fun v => (formed.mentions_iff body_ok v).trans (covers.placed v) }, ?_⟩
    exact formed'.settled_stable found' (Machine.layout_ne_nil body_ok laid) closed physical

/-- A function whose first block goes on behind a return, with a copy of a register to itself. -/
def exposedReturn : String := ".func f\nli $r0, 1\nret\nmv $r0, $r0\nu:\nadd s1, $r0, $r1\nret\n"

/-- With one register to hand out the one value gets it and the other one a slot. The copy is taken out, so that control
no longer leaves the block at its end. -/
theorem exposed_return_stable :
    ∃ m done choice, Source.read exposedReturn = .ok m ∧ m.WellFormed ∧
      m.allocate { registerLimit := some 1 } ⟨0⟩ = .ok done ∧ done.outcome = .ok choice ∧
      choice.assignment = [(⟨0, .general⟩, .x 10)] ∧ choice.slots = [(⟨1, .general⟩, 0)] ∧
      choice.stats.movesRemoved = 1 ∧ choice.Covers (m.Mentions ⟨0⟩) ∧ done.machine.Settled ⟨0⟩ ∧
      done.machine.Stable ⟨0⟩ := by
  have run : (do
      let m ← (Source.read exposedReturn).toOption
      let done ← (m.allocate { registerLimit := some 1 } ⟨0⟩).toOption
      let choice ← done.outcome.toOption
      return decide (choice.assignment = [(⟨0, .general⟩, .x 10)] ∧ choice.slots = [(⟨1, .general⟩, 0)] ∧
        choice.stats.movesRemoved = 1)) = some true := by
    decide +kernel
  simp only [bind, Option.bind_eq_some_iff, toOption_eq_some, pure, Option.some.injEq, decide_eq_true_eq] at run
  obtain ⟨m, read, done, allocated, choice, success, assignment, slots, removed⟩ := run
  have wellFormed := Source.read_wellFormed read
  exact ⟨m, done, choice, read, wellFormed, allocated, success, assignment, slots, removed,
    allocation_complete_and_stable wellFormed allocated success⟩

end RegisterAllocator
