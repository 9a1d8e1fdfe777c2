import RegisterAllocator.Proofs.Copies
import RegisterAllocator.Proofs.Independence

/-!
# What allocation does to code

Allocation puts in place of every instruction the loads of what it reads from the stack, the instruction with other
registers, and the stores of what it writes to the stack (`Edit`). Nothing else changes: neither an operation nor a
constant, neither the blocks nor where they lead (`Machine.Content.Rewritten`). What is counted is what was put in and
taken out: the registers go to the stack one by one and the instructions are looked at one by one, and both ways the
same transfers are counted (`sum_countP_comm`).
-/

namespace RegisterAllocator

/-! ## Edits -/

/-- What becomes of a register operand, given the transfers around its instruction. -/
inductive Becomes (assignment : VirtMap PhysReg) (transfers : List Transfer) : Reg → Reg → Prop
  | phys (reg : PhysReg) : Becomes assignment transfers reg reg
  | assigned {v : VirtReg} {reg : PhysReg} (member : (v, reg) ∈ assignment) (stays : ∀ t ∈ transfers, t.reg ≠ v) :
    Becomes assignment transfers (.virt v) reg
  | moved {t : Transfer} (member : t ∈ transfers) (scratch : t.data ∈ PhysReg.scratch t.reg.file) :
    Becomes assignment transfers (.virt t.reg) t.data

/-- An instruction with other registers. -/
inductive Renamed {τ : Type} (reads writes : Reg → Reg → Prop) : Inst τ → Inst τ → Prop
  | li {rd rd' : Reg} (value : Int64) (dst : writes rd rd') : Renamed reads writes (.li rd value) (.li rd' value)
  | la {rd rd' : Reg} (symbol : String) (dst : writes rd rd') : Renamed reads writes (.la rd symbol) (.la rd' symbol)
  | unary {rd rd' rs rs' : Reg} (op : UnaryOp) (dst : writes rd rd') (src : reads rs rs') :
    Renamed reads writes (.unary op rd rs) (.unary op rd' rs')
  | immediate {rd rd' rs rs' : Reg} (op : ImmediateOp) (value : Imm12) (dst : writes rd rd') (src : reads rs rs') :
    Renamed reads writes (.immediate op rd rs value) (.immediate op rd' rs' value)
  | binary {rd rd' rs1 rs1' rs2 rs2' : Reg} (op : BinaryOp) (dst : writes rd rd') (src1 : reads rs1 rs1')
    (src2 : reads rs2 rs2') : Renamed reads writes (.binary op rd rs1 rs2) (.binary op rd' rs1' rs2')
  | floatUnary {rd rd' rs rs' : Reg} (op : FloatUnaryOp) (mode : Rounding) (dst : writes rd rd') (src : reads rs rs') :
    Renamed reads writes (.floatUnary op mode rd rs) (.floatUnary op mode rd' rs')
  | floatBinary {rd rd' rs1 rs1' rs2 rs2' : Reg} (op : FloatBinaryOp) (mode : Rounding) (dst : writes rd rd')
    (src1 : reads rs1 rs1') (src2 : reads rs2 rs2') :
    Renamed reads writes (.floatBinary op mode rd rs1 rs2) (.floatBinary op mode rd' rs1' rs2')
  | fused {rd rd' rs1 rs1' rs2 rs2' rs3 rs3' : Reg} (op : FusedOp) (mode : Rounding) (dst : writes rd rd')
    (src1 : reads rs1 rs1') (src2 : reads rs2 rs2') (src3 : reads rs3 rs3') :
    Renamed reads writes (.fused op mode rd rs1 rs2 rs3) (.fused op mode rd' rs1' rs2' rs3')
  | load {rd rd' base base' : Reg} (op : LoadOp) (offset : Imm12) (dst : writes rd rd') (src : reads base base') :
    Renamed reads writes (.load op rd base offset) (.load op rd' base' offset)
  | store {source source' base base' : Reg} (op : StoreOp) (offset : Imm12) (src1 : reads source source')
    (src2 : reads base base') : Renamed reads writes (.store op source base offset) (.store op source' base' offset)
  | jump (target : τ) : Renamed reads writes (.jump target) (.jump target)
  | branch {rs1 rs1' rs2 rs2' : Reg} (op : BranchOp) (target : τ) (src1 : reads rs1 rs1') (src2 : reads rs2 rs2') :
    Renamed reads writes (.branch op rs1 rs2 target) (.branch op rs1' rs2' target)
  | call (symbol : String) (arguments : List PhysReg) :
    Renamed reads writes (.call symbol arguments) (.call symbol arguments)
  | ret (results : List PhysReg) : Renamed reads writes (.ret results) (.ret results)

/-- What stands in place of an instruction. -/
structure Edit (τ : Type) where
  loads : List Transfer
  /-- The instruction itself, unless it is taken out. -/
  own : Option (Inst τ)
  stores : List Transfer

namespace Edit

variable {τ : Type}

def code (edit : Edit τ) : List (Inst τ) :=
  (edit.loads.flatMap fun t => Inst.loadSlot t.data t.address t.offset) ++ edit.own.toList ++
    edit.stores.flatMap fun t => Inst.storeSlot t.data t.address t.offset

/-- An edit does to an instruction what a choice of registers and slots asks for. -/
structure Realizes (config : Config) (choice : Choice) (inst : Inst τ) (edit : Edit τ) : Prop where
  loads : ∀ v offset, (∃ t ∈ edit.loads, t.reg = v ∧ t.offset = offset) ↔
    (v, offset) ∈ choice.slots ∧ .virt v ∈ inst.uses
  stores : ∀ v offset, (∃ t ∈ edit.stores, t.reg = v ∧ t.offset = offset) ↔
    (v, offset) ∈ choice.slots ∧ .virt v ∈ inst.defs
  loadsOnce : (edit.loads.map Transfer.reg).Nodup
  storesOnce : (edit.stores.map Transfer.reg).Nodup
  addresses : ∀ t ∈ edit.loads ++ edit.stores, slotFits t.offset = false → t.address ∈ PhysReg.scratchGeneral
  storesApart : ∀ t ∈ edit.stores, slotFits t.offset = false → t.address ≠ t.data
  renamed : ∀ new, edit.own = some new →
    Renamed (Becomes choice.assignment edit.loads) (Becomes choice.assignment edit.stores) inst new
  removed : edit.own = none ↔ config.removeIdentityMoves = true ∧ ∃ dst src reg, inst.copy? = some (dst, src) ∧
    (dst.isVirt || src.isVirt) = true ∧ Becomes choice.assignment edit.stores dst reg ∧
    Becomes choice.assignment edit.loads src reg

end Edit

/-! ## One instruction -/

theorem Inst.renamed_map {τ : Type} {reads writes : Reg → Reg → Prop} {f g : Reg → Reg} {inst : Inst τ}
    (used : ∀ reg ∈ inst.uses, reads reg (f reg)) (defined : ∀ reg ∈ inst.defs, writes reg (g reg)) :
    Renamed reads writes inst ((inst.mapUses f).mapDefs g) := by
  cases inst with
  | li rd value => exact .li value (defined rd (by simp [defs]))
  | la rd symbol => exact .la symbol (defined rd (by simp [defs]))
  | unary op rd rs => exact .unary op (defined rd (by simp [defs])) (used rs (by simp [uses]))
  | immediate op rd rs value => exact .immediate op value (defined rd (by simp [defs])) (used rs (by simp [uses]))
  | binary op rd rs1 rs2 =>
    exact .binary op (defined rd (by simp [defs])) (used rs1 (by simp [uses])) (used rs2 (by simp [uses]))
  | floatUnary op mode rd rs => exact .floatUnary op mode (defined rd (by simp [defs])) (used rs (by simp [uses]))
  | floatBinary op mode rd rs1 rs2 =>
    exact .floatBinary op mode (defined rd (by simp [defs])) (used rs1 (by simp [uses])) (used rs2 (by simp [uses]))
  | fused op mode rd rs1 rs2 rs3 =>
    exact .fused op mode (defined rd (by simp [defs])) (used rs1 (by simp [uses])) (used rs2 (by simp [uses]))
      (used rs3 (by simp [uses]))
  | load op rd base offset => exact .load op offset (defined rd (by simp [defs])) (used base (by simp [uses]))
  | store op source base offset => exact .store op offset (used source (by simp [uses])) (used base (by simp [uses]))
  | jump target => exact .jump target
  | branch op rs1 rs2 target => exact .branch op target (used rs1 (by simp [uses])) (used rs2 (by simp [uses]))
  | call symbol arguments => exact .call symbol arguments
  | ret results => exact .ret results

theorem Renamed.targets {τ : Type} {reads writes : Reg → Reg → Prop} {inst new : Inst τ}
    (renamed : Renamed reads writes inst new) : new.targets = inst.targets := by
  cases renamed <;> rfl

theorem Inst.targets_of_copy {τ : Type} {inst : Inst τ} {dst src : Reg} (copies : inst.copy? = some (dst, src)) :
    inst.targets = [] := by
  rcases copy?_cases copies with ⟨_, _, _, rfl, -⟩ | ⟨_, _, rfl, -⟩ | ⟨_, _, rfl, -⟩ <;> rfl

theorem Edit.Realizes.targets {τ : Type} {config : Config} {choice : Choice} {inst : Inst τ} {edit : Edit τ}
    (realizes : edit.Realizes config choice inst) : edit.code.flatMap Inst.targets = inst.targets := by
  have silent (transfers : List Transfer) {access : Transfer → List (Inst τ)}
      (plain : ∀ t, ∀ inst ∈ access t, inst.targets = []) : (transfers.flatMap access).flatMap Inst.targets = [] := by
    rw [List.flatMap_eq_nil_iff]
    intro inst member
    obtain ⟨t, -, here⟩ := List.mem_flatMap.mp member
    exact plain t inst here
  rw [code, List.flatMap_append, List.flatMap_append, silent edit.loads fun _ _ here => (Inst.loadSlot_plain here).2,
    silent edit.stores fun _ _ here => (Inst.storeSlot_plain here).2, List.nil_append, List.append_nil]
  cases own : edit.own with
  | none =>
    obtain ⟨-, _, _, _, copies, -⟩ := realizes.removed.mp own
    rw [Inst.targets_of_copy copies]
    rfl
  | some new => simpa using (realizes.renamed new own).targets

/-- What an allocation has settled about virtual registers: each has one place, and the renaming gives those in
registers their registers. -/
structure Allocation.Settled (a : Allocation) : Prop where
  placing : Placing a.plan.slots a.rename a.choice.place
  renames : ∀ v reg, a.rename (.virt v) = .phys reg ↔ (v, reg) ∈ a.assignment
  slots : ∀ row, row ∈ a.slots ↔ row ∈ a.plan.slots

theorem Patch.isSome_identity? {p : Patch} : p.identity?.isSome ↔ ∃ dst src reg, p.source.copy? = some (dst, src) ∧
    (dst.isVirt || src.isVirt) = true ∧ p.inst.copy? = some (reg, reg) := by
  rw [Option.isSome_iff_exists]
  simp only [identity?, Option.bind_eq_bind, Option.bind_eq_some_iff, Option.guard_eq_some', pure, Option.some.injEq]
  constructor
  · rintro ⟨_, ⟨dst, src⟩, copies, _, virt, ⟨reg, other⟩, identity, _, same, -⟩
    dsimp only at same
    exact ⟨dst, src, reg, copies, virt, by rw [identity, same]⟩
  · rintro ⟨dst, src, reg, copies, virt, identity⟩
    exact ⟨reg, (dst, src), copies, (), virt, (reg, reg), identity, (), rfl, rfl⟩

namespace Allocation.Settled

variable {a : Allocation} {transfers : List Transfer} {operands : List Reg} {reg reg' : Reg}

/-- An operand becomes what the transfers and the renaming make of it. -/
theorem becomes (settled : a.Settled)
    (moves : ∀ v offset, (∃ t ∈ transfers, t.reg = v ∧ t.offset = offset) ↔
      (v, offset) ∈ a.plan.slots ∧ .virt v ∈ operands)
    (once : (transfers.map Transfer.reg).Nodup) (scratch : ∀ t ∈ transfers, t.data ∈ PhysReg.scratch t.reg.file)
    (operand : reg ∈ operands)
    (placed : ∀ v, reg = .virt v → v ∈ a.plan.slots.map Prod.fst ∨ ∃ home : PhysReg, a.rename (.virt v) = home) :
    Becomes a.assignment transfers reg ((a.rename ∘ substitute transfers) reg) := by
  cases reg with
  | phys reg =>
    rw [show (a.rename ∘ substitute transfers) (.phys reg) = .phys reg from settled.placing.steady reg]
    exact .phys reg
  | virt v =>
    by_cases onStack : v ∈ a.plan.slots.map Prod.fst
    · obtain ⟨⟨_, offset⟩, slot, rfl⟩ := List.mem_map.mp onStack
      obtain ⟨t, member, rfl, -⟩ := (moves _ offset).mpr ⟨slot, operand⟩
      have moved : (a.rename ∘ substitute transfers) (.virt t.reg) = .phys t.data := by
        rw [Function.comp_apply, substitute_of_mem once member]
        exact settled.placing.steady t.data
      rw [moved]
      exact .moved member (scratch t member)
    · obtain ⟨home, renamed⟩ := (placed v rfl).resolve_left onStack
      have stays : ∀ t ∈ transfers, t.reg ≠ v := by
        rintro t member rfl
        exact onStack (List.mem_map_of_mem ((moves t.reg t.offset).mp ⟨t, member, rfl, rfl⟩).1)
      rw [Function.comp_apply, substitute_of_not_moved stays, renamed]
      exact .assigned ((settled.renames v home).mp renamed) stays

theorem eq_of_becomes (settled : a.Settled) (once : (transfers.map Transfer.reg).Nodup)
    (becomes : Becomes a.assignment transfers reg reg') : (a.rename ∘ substitute transfers) reg = reg' := by
  cases becomes with
  | phys reg => exact settled.placing.steady reg
  | @assigned v home member stays =>
    rw [Function.comp_apply, substitute_of_not_moved stays, (settled.renames v home).mpr member]
  | @moved t member =>
    rw [Function.comp_apply, substitute_of_mem once member]
    exact settled.placing.steady t.data

/-- What is taken out was a copy with a virtual side, and both sides have become one register. -/
theorem dropped_iff (settled : a.Settled) {p : Patch} {loads stores : List Transfer}
    (carries : p.Carries a.plan.slots a.plan.slots loads stores)
    (reads : ∀ reg ∈ p.source.uses, Becomes a.assignment loads reg ((a.rename ∘ substitute loads) reg))
    (writes : ∀ reg ∈ p.source.defs, Becomes a.assignment stores reg ((a.rename ∘ substitute stores) reg)) :
    (a.dropped? (p.rename a.rename)).isSome ↔ a.config.removeIdentityMoves = true ∧
      ∃ dst src reg, p.source.copy? = some (dst, src) ∧ (dst.isVirt || src.isVirt) = true ∧
        Becomes a.assignment stores dst reg ∧ Becomes a.assignment loads src reg := by
  have zero (operand : Reg) : (a.rename ∘ substitute loads) operand = PhysReg.zero ↔ operand = PhysReg.zero :=
    settled.placing.eq_reserved (fun t member => PhysReg.mem_scratchRegs (carries.scratch t member).1) rfl rfl
  have source : (p.rename a.rename).source = p.source := rfl
  rw [dropped?]
  by_cases removes : a.config.removeIdentityMoves = true
  · rw [if_pos removes, Patch.isSome_identity?, and_iff_right removes, source]
    constructor
    · rintro ⟨dst, src, reg, copies, virt, identity⟩
      rw [carries.inst_renamed, Inst.copy?_of_copy copies zero, Option.some.injEq, Prod.mk.injEq] at identity
      obtain ⟨first, second⟩ := identity
      obtain ⟨defined, used⟩ := Inst.copy?_eq_some copies
      refine ⟨dst, src, reg, copies, virt, ?_, ?_⟩
      · rw [← first]
        exact writes dst (defined ▸ List.mem_singleton_self dst)
      · rw [← second]
        exact reads src used
    · rintro ⟨dst, src, reg, copies, virt, becomesDst, becomesSrc⟩
      have first := settled.eq_of_becomes carries.storesOnce becomesDst
      have second := settled.eq_of_becomes carries.loadsOnce becomesSrc
      refine ⟨dst, src, reg, copies, virt, ?_⟩
      rw [carries.inst_renamed, Inst.copy?_of_copy copies zero, first, second]
  · simp [removes]

theorem exists_edit (settled : a.Settled) {p : Patch} {loads stores : List Transfer}
    (carries : p.Carries a.plan.slots a.plan.slots loads stores)
    (placed : ∀ v, p.source.Mentions v → v ∈ a.plan.slots.map Prod.fst ∨ ∃ home : PhysReg, a.rename (.virt v) = home)
    (name : Nat → BlockId) : ∃ edit : Edit BlockId, edit.Realizes a.config a.choice (p.source.mapTarget name) ∧
      edit.code = (a.codeOf (p.rename a.rename)).map (Inst.mapTarget name) ∧
      (edit.own.isNone ↔ (a.dropped? (p.rename a.rename)).isSome) := by
  have storeRegs {t : Transfer} (member : t ∈ stores) := PhysReg.writeBackRegs_file t.reg.file t.offset
  have reads : ∀ reg ∈ p.source.uses, Becomes a.assignment loads reg ((a.rename ∘ substitute loads) reg) := by
    intro reg used
    apply settled.becomes carries.loaded carries.loadsOnce (fun t member => (carries.scratch t member).1) used
    rintro v rfl
    exact placed v (.inl used)
  have writes : ∀ reg ∈ p.source.defs, Becomes a.assignment stores reg ((a.rename ∘ substitute stores) reg) := by
    intro reg defined
    apply settled.becomes carries.stored carries.storesOnce _ defined
    · rintro v rfl
      exact placed v (.inr defined)
    · intro t member
      have scratch := (storeRegs member).1
      rwa [← carries.writeBack t member] at scratch
  have inst : (p.rename a.rename).inst.mapTarget name = ((p.source.mapTarget name).mapUses
      (a.rename ∘ substitute loads)).mapDefs (a.rename ∘ substitute stores) := by
    rw [carries.inst_renamed, Inst.mapTarget_mapDefs, Inst.mapTarget_mapUses]
  have dropped := settled.dropped_iff carries reads writes
  refine ⟨⟨loads, if (a.dropped? (p.rename a.rename)).isSome then none
    else some ((p.rename a.rename).inst.mapTarget name), stores⟩, ?_, ?_, ?_⟩
  · constructor
    · intro v offset
      rw [Inst.uses_mapTarget, choice_slots, settled.slots]
      exact carries.loaded v offset
    · intro v offset
      rw [Inst.defs_mapTarget, choice_slots, settled.slots]
      exact carries.stored v offset
    · exact carries.loadsOnce
    · exact carries.storesOnce
    · intro t member far
      rcases List.mem_append.mp member with load | store
      · obtain ⟨pre, post, split⟩ := List.append_of_mem load
        exact (carries.address pre t post split far).1
      · have address := (storeRegs store).2
        rwa [← carries.writeBack t store] at address
    · intro t store far
      have apart := (PhysReg.writeBackRegs_scratch t.reg.file t.offset).2.2 far
      rw [← carries.writeBack t store] at apart
      exact apart.symm
    · intro new stays
      dsimp only at stays
      split at stays
      · cases stays
      · cases stays
        rw [inst]
        apply Inst.renamed_map
        · simpa using reads
        · simpa using writes
    · rw [Inst.copy?_mapTarget, choice_assignment, ← dropped]
      dsimp only
      split <;> simp_all
  · have before : (p.rename a.rename).before = p.before := rfl
    have after : (p.rename a.rename).after = p.after := rfl
    simp only [Edit.code, codeOf, List.map_append, before, after, carries.before, carries.after]
    rw [Machine.map_mapTarget_flatMap name fun _ => Inst.map_mapTarget_loadSlot ..,
      Machine.map_mapTarget_flatMap name fun _ => Inst.map_mapTarget_storeSlot ..]
    split <;> rfl
  · dsimp only
    split <;> simp_all

end Allocation.Settled

theorem make_settled {config : Config} {body : Body} {frame : UInt64} (plain : body = .ofBlocks body.blocks)
    (complete : (Allocation.make config body frame).plan.ending = .complete) :
    (Allocation.make config body frame).Settled := by
  have once := plan_slots complete ▸ @spills_nodup config body frame
  exact ⟨make_placing plain complete, fun v reg => rename_eq, fun row => (VirtMap.ofList_perm once).mem_iff⟩

/-! ## Counts -/

/-- Counting pairs by their first and by their second parts. -/
theorem sum_countP_comm {α β : Type} (p : α → β → Bool) (as : List α) (bs : List β) :
    (as.map fun a => bs.countP (p a)).sum = (bs.map fun b => as.countP (p · b)).sum := by
  induction as with
  | nil => simp
  | cons a as ih =>
    have one : bs.countP (p a) = (bs.map fun b => if p a b then 1 else 0).sum := by
      clear ih
      induction bs with
      | nil => rfl
      | cons b bs ih => rw [List.countP_cons, ih, List.map_cons, List.sum_cons, Nat.add_comm]
    rw [List.map_cons, List.sum_cons, ih, one, ← List.sum_map_add]
    congr 2
    funext b
    rw [List.countP_cons, Nat.add_comm]

namespace SiteWalk.Finds

variable {body : Body} {reg : VirtReg} {w : SiteWalk}

theorem length_sites {sites : List Site} {named : Inst Nat → Bool} (once : (sites.map Site.cell).Nodup)
    (inside : ∀ site ∈ sites, site.cell < body.insts.length)
    (known : ∀ n inst, body.insts[n]? = some inst → (n ∈ sites.map Site.cell ↔ named inst)) :
    sites.length = body.insts.countP named := by
  have same : (sites.map Site.cell).Perm (body.insts.findIdxs named) := by
    rw [List.perm_ext_iff_of_nodup once List.nodup_findIdxs]
    intro n
    rw [List.mem_findIdxs_iff_exists_getElem_pos]
    constructor
    · intro member
      obtain ⟨site, inSites, rfl⟩ := List.mem_map.mp member
      have bound := inside site inSites
      exact ⟨bound, (known _ _ (List.getElem?_eq_getElem bound)).mp member⟩
    · rintro ⟨bound, holds⟩
      exact (known _ _ (List.getElem?_eq_getElem bound)).mpr holds
  rw [← List.length_map Site.cell, same.length_eq, List.length_findIdxs]

theorem cell_lt (finds : w.Finds body reg) {site : Site} (member : site ∈ w.readers ++ w.writers) :
    site.cell < body.insts.length := by
  obtain ⟨same, bound⟩ := finds.number site member
  rwa [← same]

theorem length_readers (finds : w.Finds body reg) :
    w.readers.length = body.insts.countP fun inst => .virt reg ∈ inst.uses :=
  length_sites finds.readersOnce (fun _ member => finds.cell_lt (List.mem_append_left _ member)) fun n inst located => by
    rw [finds.readers n inst located, decide_eq_true_iff]

theorem length_writers (finds : w.Finds body reg) :
    w.writers.length = body.insts.countP fun inst => .virt reg ∈ inst.defs :=
  length_sites finds.writersOnce (fun _ member => finds.cell_lt (List.mem_append_right _ member)) fun n inst located => by
    rw [finds.writers n inst located, decide_eq_true_iff]

end SiteWalk.Finds

namespace SpillPlan

variable {live : LiveRanges} {body : Body} {frame offset : UInt64} {regs : List VirtReg} {reg : VirtReg}
  {sites : List Site} {patches patches' : Array Patch} {steps : List SpillStep}

theorem countP_reloads (result : reloads reg offset sites patches = (patches', steps, none)) :
    steps.countP SpillStep.isReload = sites.length ∧ steps.countP SpillStep.isWriteBack = 0 := by
  have made := reloads_steps result
  have all : ∀ step ∈ steps, step.isReload = true ∧ step.isWriteBack = false := by
    intro step member
    obtain ⟨_, -, _, rfl, -⟩ := forall₂_mem_right made member
    exact ⟨rfl, rfl⟩
  rw [List.countP_eq_length.mpr fun step member => (all step member).1]
  exact ⟨made.length_eq.symm, List.countP_eq_zero.mpr fun step member => by simp [(all step member).2]⟩

theorem countP_writeBacks (result : writeBacks reg offset sites patches = (patches', steps)) :
    steps.countP SpillStep.isReload = 0 ∧ steps.countP SpillStep.isWriteBack = sites.length := by
  have made := writeBacks_steps result
  have all : ∀ step ∈ steps, step.isReload = false ∧ step.isWriteBack = true := by
    intro step member
    obtain ⟨_, -, _, rfl, -⟩ := forall₂_mem_right made member
    exact ⟨rfl, rfl⟩
  rw [List.countP_eq_length.mpr fun step member => (all step member).2]
  exact ⟨List.countP_eq_zero.mpr fun step member => by simp [(all step member).1], made.length_eq.symm⟩

/-- A plan loads each register once for each instruction that reads it, and stores it once for each that writes it. -/
theorem make_counts (plain : body = .ofBlocks body.blocks) (spans : live.Spans body) (once : regs.Nodup)
    (complete : (make live body frame regs).ending = .complete) :
    (make live body frame regs).loadCount =
        (regs.map fun reg => body.insts.countP fun inst => .virt reg ∈ inst.uses).sum ∧
      (make live body frame regs).storeCount =
        (regs.map fun reg => body.insts.countP fun inst => .virt reg ∈ inst.defs).sum := by
  simp only [loadCount, storeCount]
  induction regs using List.reverseRecOn with
  | nil => exact ⟨rfl, rfl⟩
  | append_singleton regs reg ih =>
    rw [← List.concat_eq_append] at once
    obtain ⟨new, once⟩ := List.nodup_concat regs reg |>.mp once
    obtain ⟨before, walk, _, loads, _, stores, finds, reloaded, writtenBack, steps, -⟩ :=
      make_steps plain spans once complete new
    obtain ⟨loadsBefore, storesBefore⟩ := ih once before
    obtain ⟨loaded, unstored⟩ := countP_reloads reloaded
    obtain ⟨unloaded, stored⟩ := countP_writeBacks writtenBack
    simp only [steps, List.countP_append, List.countP_singleton, SpillStep.isReload, SpillStep.isWriteBack,
      List.map_append, List.sum_append, List.map_singleton, List.sum_singleton, loadsBefore, storesBefore, loaded,
      unstored, unloaded, stored, finds.length_readers, finds.length_writers, Bool.false_eq_true, if_false,
      Nat.add_zero, and_self]

end SpillPlan

/-- Transfers that move each register of a table once that is among the operands are as many as those registers. -/
theorem length_transfers {slots : VirtMap UInt64} {transfers : List Transfer} {operands : List Reg}
    (slotsOnce : (slots.map Prod.fst).Nodup) (once : (transfers.map Transfer.reg).Nodup)
    (moves : ∀ v offset, (∃ t ∈ transfers, t.reg = v ∧ t.offset = offset) ↔ (v, offset) ∈ slots ∧ .virt v ∈ operands) :
    transfers.length = slots.countP fun row => .virt row.1 ∈ operands := by
  have chosen : ((slots.filter fun row => .virt row.1 ∈ operands).map Prod.fst).Nodup :=
    slotsOnce.sublist (List.filter_sublist.map Prod.fst)
  have same : (transfers.map Transfer.reg).Perm ((slots.filter fun row => .virt row.1 ∈ operands).map Prod.fst) := by
    rw [List.perm_ext_iff_of_nodup once chosen]
    intro v
    simp only [List.mem_map, List.mem_filter, decide_eq_true_eq]
    constructor
    · rintro ⟨t, member, rfl⟩
      exact ⟨(t.reg, t.offset), (moves _ _).mp ⟨t, member, rfl, rfl⟩, rfl⟩
    · rintro ⟨⟨_, offset⟩, row, rfl⟩
      obtain ⟨t, member, moved, -⟩ := (moves _ offset).mpr row
      exact ⟨t, member, moved⟩
  rw [List.countP_eq_length_filter, ← List.length_map (f := Prod.fst), ← same.length_eq, List.length_map]

/-- The edits of instructions make as many transfers as the instructions have operands on the stack. -/
theorem sum_transfers {config : Config} {choice : Choice} {name : Nat → BlockId} {insts : List (Inst Nat)}
    {edits : List (Edit BlockId)}
    (realized : List.Forall₂ (fun inst edit => edit.Realizes config choice (inst.mapTarget name)) insts edits)
    (slotsOnce : (choice.slots.map Prod.fst).Nodup) :
    (edits.map fun edit => edit.loads.length).sum =
        (choice.slots.map fun row => insts.countP fun inst => .virt row.1 ∈ inst.uses).sum ∧
      (edits.map fun edit => edit.stores.length).sum =
        (choice.slots.map fun row => insts.countP fun inst => .virt row.1 ∈ inst.defs).sum := by
  rw [← sum_countP_comm fun (inst : Inst Nat) (row : VirtReg × UInt64) => .virt row.1 ∈ inst.uses,
    ← sum_countP_comm fun (inst : Inst Nat) (row : VirtReg × UInt64) => .virt row.1 ∈ inst.defs]
  induction realized with
  | nil => exact ⟨rfl, rfl⟩
  | cons first _ ih =>
    have loads := length_transfers slotsOnce first.loadsOnce first.loads
    have stores := length_transfers slotsOnce first.storesOnce first.stores
    rw [Inst.uses_mapTarget] at loads
    rw [Inst.defs_mapTarget] at stores
    simp only [List.map_cons, List.sum_cons, loads, stores, ih.1, ih.2, and_self]

theorem Allocation.length_drops (a : Allocation) :
    a.drops.length = a.patches.countP fun p => (a.dropped? p).isSome := by
  rw [drops, List.length_filterMap_eq_countP]
  calc a.patches.zipIdx.countP _
    _ = a.patches.zipIdx.countP fun row => (a.dropped? row.1).isSome := by simp
    _ = (a.patches.zipIdx.map Prod.fst).countP fun p => (a.dropped? p).isSome := by rw [List.countP_map]; rfl
    _ = a.patches.countP fun p => (a.dropped? p).isSome := by rw [List.zipIdx_map_fst]

/-! ## Blocks -/

namespace Allocation

variable {a : Allocation} {name : Nat → BlockId}

/-- An edit gives the code that a patch gives, and takes an instruction out where it does. -/
def Gives (a : Allocation) (name : Nat → BlockId) (p : Patch) (edit : Edit BlockId) : Prop :=
  edit.code = (a.codeOf p).map (Inst.mapTarget name) ∧ (edit.own.isNone ↔ (a.dropped? p).isSome)

theorem flatMap_code {patches : List Patch} {edits : List (Edit BlockId)}
    (given : List.Forall₂ (a.Gives name) patches edits) :
    (patches.flatMap a.codeOf).map (Inst.mapTarget name) = edits.flatMap Edit.code := by
  induction given with
  | nil => rfl
  | cons first _ ih => rw [List.flatMap_cons, List.map_append, List.flatMap_cons, ih, first.1]

theorem countP_own {patches : List Patch} {edits : List (Edit BlockId)}
    (given : List.Forall₂ (a.Gives name) patches edits) :
    edits.countP (·.own.isNone) = patches.countP fun p => (a.dropped? p).isSome := by
  induction given with
  | nil => rfl
  | cons first _ ih => simp only [List.countP_cons, ih, first.2]

/-- The edits of a body, block by block. The induction takes the edits of one block off the front. -/
theorem exists_parts {R : Inst Nat → Edit BlockId → Prop} {blocks : List Block} {patches : List Patch}
    {edits : List (Edit BlockId)} (realized : List.Forall₂ R (blocks.flatMap Block.insts) edits)
    (given : List.Forall₂ (a.Gives name) patches edits) :
    ∃ parts : List (List (Edit BlockId)), parts.flatten = edits ∧
      List.Forall₂ (fun block part => List.Forall₂ R block.insts part) blocks parts ∧
      (a.rebuild blocks patches).map (fun block => block.insts.map (Inst.mapTarget name)) =
        parts.map fun part => part.flatMap Edit.code := by
  induction blocks generalizing patches edits with
  | nil =>
    cases realized
    exact ⟨[], rfl, .nil, rfl⟩
  | cons block blocks ih =>
    have here := List.forall₂_take block.insts.length realized
    have there := List.forall₂_drop block.insts.length realized
    rw [List.flatMap_cons, List.take_left] at here
    rw [List.flatMap_cons, List.drop_left] at there
    obtain ⟨parts, whole, inBlocks, codes⟩ := ih there (List.forall₂_drop block.insts.length given)
    refine ⟨edits.take block.insts.length :: parts, ?_, .cons here inBlocks, ?_⟩
    · rw [List.flatten_cons, whole, List.take_append_drop]
    · rw [rebuild, List.map_cons, codes, List.map_cons, flatMap_code (List.forall₂_take block.insts.length given)]

end Allocation

theorem make_patches_eq {config : Config} {body : Body} {frame : UInt64} (plain : body = .ofBlocks body.blocks)
    (complete : (Allocation.make config body frame).plan.ending = .complete) :
    (Allocation.make config body frame).patches =
      (Allocation.make config body frame).plan.patches.toList.map
        (·.rename (Allocation.make config body frame).rename) := by
  apply List.ext_getElem?
  intro n
  rw [make_getElem?_patches plain complete, List.getElem?_map, Array.getElem?_toList]

theorem make_edits {config : Config} {body : Body} {frame : UInt64} (plain : body = .ofBlocks body.blocks)
    (complete : (Allocation.make config body frame).plan.ending = .complete) (name : Nat → BlockId) :
    ∃ edits : List (Edit BlockId), List.Forall₂ (fun inst edit =>
        edit.Realizes config (Allocation.make config body frame).choice (inst.mapTarget name)) body.insts edits ∧
      List.Forall₂ ((Allocation.make config body frame).Gives name) (Allocation.make config body frame).patches
        edits := by
  have settled := make_settled plain complete
  have size := make_size_patches plain complete
  apply forall₂_factor
  refine List.forall₂_iff_get.mpr ⟨?_, fun n inBody inPatches => ?_⟩
  · rw [make_patches_eq plain complete, List.length_map, ← size]
    rfl
  · obtain ⟨p, loads, stores, planned, source, carries⟩ :=
      (spills_planned plain complete).patches n _ (List.getElem?_eq_getElem inBody)
    have located : (Allocation.make config body frame).patches[n]? =
        some (p.rename (Allocation.make config body frame).rename) := by
      rw [make_getElem?_patches plain complete, planned]
      rfl
    have here : (Allocation.make config body frame).patches.get ⟨n, inPatches⟩ =
        p.rename (Allocation.make config body frame).rename := (List.getElem?_eq_some_iff.mp located).2
    obtain ⟨edit, realizes, gives⟩ := settled.exists_edit carries (fun v mentioned => make_placed complete
      ⟨p.source, source ▸ List.getElem_mem inBody, mentioned⟩) name
    refine ⟨edit, ?_, ?_⟩
    · rw [source] at realizes
      exact realizes
    · rw [here]
      exact gives

/-- The loads and stores that are counted are those of the slots, at each instruction that reads or writes one. -/
theorem make_loads_stores {config : Config} {body : Body} {frame : UInt64} (plain : body = .ofBlocks body.blocks)
    (complete : (Allocation.make config body frame).plan.ending = .complete) :
    (Allocation.make config body frame).plan.loadCount = ((Allocation.make config body frame).slots.map fun row =>
        body.insts.countP fun inst => .virt row.1 ∈ inst.uses).sum ∧
      (Allocation.make config body frame).plan.storeCount = ((Allocation.make config body frame).slots.map fun row =>
        body.insts.countP fun inst => .virt row.1 ∈ inst.defs).sum := by
  obtain ⟨loads, stores⟩ : (Allocation.make config body frame).plan.loadCount = _ ∧
    (Allocation.make config body frame).plan.storeCount = _ :=
    SpillPlan.make_counts plain (LiveRanges.spans_ofBody body) (@spills_nodup config body frame) complete
  have slots (g : VirtReg → Nat) : ((Allocation.make config body frame).slots.map fun row => g row.1).sum =
      (((Allocation.make config body frame).problem.spills
        (Allocation.make config body frame).search.decisions).map g).sum := by
    rw [← ((slots_perm complete).map g).sum_eq, List.map_map]
    rfl
  constructor
  · rw [loads, slots fun v => body.insts.countP fun inst => .virt v ∈ inst.uses]
    rfl
  · rw [stores, slots fun v => body.insts.countP fun inst => .virt v ∈ inst.defs]
    rfl

/-! ## Saved registers -/

theorem Machine.mem_placeSaved {reg r : PhysReg} {saved : List PhysReg} :
    reg ∈ placeSaved r saved ↔ reg ∈ saved ∨ reg = r := by
  induction saved with
  | nil => simp [placeSaved]
  | cons first rest ih =>
    unfold placeSaved
    split
    · rw [List.mem_cons, or_comm]
    · split
      · next same =>
        rw [← same, List.mem_cons]
        tauto
      · rw [List.mem_cons, ih, List.mem_cons, or_assoc]

theorem Allocation.mem_saved {a : Allocation} {node : FuncNode} {reg : PhysReg} :
    reg ∈ (a.record node).saved ↔ reg ∈ node.saved ∨ ∃ v, (v, reg) ∈ a.assignment := by
  have fold (rows : List (VirtReg × PhysReg)) (saved : List PhysReg) :
      reg ∈ rows.foldl (fun saved row => Machine.placeSaved row.2 saved) saved ↔
        reg ∈ saved ∨ ∃ v, (v, reg) ∈ rows := by
    induction rows generalizing saved with
    | nil => simp
    | cons row rows ih =>
      obtain ⟨v, home⟩ := row
      rw [List.foldl_cons, ih, Machine.mem_placeSaved, or_assoc]
      simp only [List.mem_cons, Prod.mk.injEq, exists_or, exists_and_right, exists_eq, true_and]
  exact fold a.assignment node.saved

/-! ## Contents -/

namespace Machine

variable {m : Machine} {code : BlockId → List InstId} {layout : FuncId → List BlockId} {f : FuncId} {c c' : Content}
  {config : Config} {choice : Choice} {done : Allocated}

/-- What allocation does to the contents of a function. -/
structure Content.Rewritten (config : Config) (choice : Choice) (c c' : Content) (edits : List (List (Edit BlockId))) :
    Prop where
  node : c'.node = { c.node with frame := c'.node.frame, saved := c'.node.saved }
  blocks : c'.layout = c.layout
  realized : List.Forall₂ (List.Forall₂ fun inst edit => edit.Realizes config choice inst) c.code edits
  rewritten : c'.code = edits.map fun part => part.flatMap Edit.code
  targets : c'.code.map (·.flatMap Inst.targets) = c.code.map (·.flatMap Inst.targets)
  loads : choice.stats.loadsAdded = (edits.flatten.map fun edit => edit.loads.length).sum
  stores : choice.stats.storesAdded = (edits.flatten.map fun edit => edit.stores.length).sum
  moves : choice.stats.movesRemoved = edits.flatten.countP (·.own.isNone)
  saved : ∀ reg, reg ∈ c'.node.saved ↔ reg ∈ c.node.saved ∨ ∃ v, (v, reg) ∈ choice.assignment

theorem Formed.content_code (formed : m.Formed code layout) (held : m.content f = .ok c) {body : Body}
    (body_ok : m.body f = .ok body) :
    c.code = body.blocks.map fun block => block.insts.map (Inst.mapTarget (nameAt c.layout)) := by
  have read := (content_eq_ok.mp held).2.2
  rw [formed.content_layout held] at read ⊢
  have shown : List.Forall₂ (fun b (insts : List (Inst BlockId)) => m.blockInsts b = .ok insts) (layout f)
      (body.blocks.map fun block => block.insts.map (Inst.mapTarget (nameAt (layout f)))) := by
    rw [List.forall₂_map_right_iff]
    have both := List.forall₂_iff_get.mp (formed.holds_body body_ok).1
    refine List.forall₂_iff_get.mpr ⟨both.1, fun k inLayout inBody => ?_⟩
    rw [blockInsts, formed.code_ok (List.get_mem ..), ok_bind, mapM_eq_ok]
    exact List.forall₂_map_right_iff.mpr (both.2 k inLayout inBody)
  exact Except.ok.inj ((mapM_eq_ok.mpr read).symm.trans (mapM_eq_ok.mpr shown))

theorem Content.Rewritten.bare (config : Config) (empty : c.code = []) : c.Rewritten config {} c [] := by
  constructor <;> simp [empty]

theorem flatMap_targets {insts : List (Inst BlockId)} {edits : List (Edit BlockId)}
    (realized : List.Forall₂ (fun inst edit => edit.Realizes config choice inst) insts edits) :
    (edits.flatMap Edit.code).flatMap Inst.targets = insts.flatMap Inst.targets := by
  induction realized with
  | nil => rfl
  | cons first _ ih => rw [List.flatMap_cons, List.flatMap_append, first.targets, ih, List.flatMap_cons]

theorem map_targets {code : List (List (Inst BlockId))} {edits : List (List (Edit BlockId))}
    (realized : List.Forall₂ (List.Forall₂ fun inst edit => edit.Realizes config choice inst) code edits) :
    (edits.map fun part => part.flatMap Edit.code).map (·.flatMap Inst.targets) =
      code.map (·.flatMap Inst.targets) := by
  induction realized with
  | nil => rfl
  | cons first _ ih => rw [List.map_cons, List.map_cons, flatMap_targets first, ih, List.map_cons]

theorem Content.rewritten_allocated {body : Body} (plain : body = .ofBlocks body.blocks)
    (complete : (Allocation.make config body c.node.frame).plan.ending = .complete)
    (coded : c.code = body.blocks.map fun block => block.insts.map (Inst.mapTarget (nameAt c.layout))) :
    ∃ edits, c.Rewritten config (Allocation.make config body c.node.frame).choice
      (c.allocated (Allocation.make config body c.node.frame)) edits := by
  obtain ⟨edits, realized, given⟩ := make_edits plain complete (nameAt c.layout)
  obtain ⟨loads, stores⟩ := sum_transfers realized (make_balanced complete).slotsOnce
  obtain ⟨loadsAdded, storesAdded⟩ := make_loads_stores plain complete
  have moves := Allocation.countP_own given
  rw [← Allocation.length_drops] at moves
  obtain ⟨parts, rfl, inBlocks, codes⟩ := Allocation.exists_parts realized given
  have inCode : List.Forall₂ (List.Forall₂ fun inst edit =>
      edit.Realizes config (Allocation.make config body c.node.frame).choice inst) c.code parts := by
    rw [coded, List.forall₂_map_left_iff]
    exact inBlocks.imp fun block part here => List.forall₂_map_left_iff.mpr here
  have rewritten : (c.allocated (Allocation.make config body c.node.frame)).code =
    parts.map fun part => part.flatMap Edit.code := codes
  generalize Allocation.make config body c.node.frame = a at *
  refine ⟨parts, rfl, rfl, inCode, rewritten, ?_, loadsAdded.trans loads.symm, storesAdded.trans stores.symm,
    moves.symm, fun reg => Allocation.mem_saved⟩
  rw [rewritten, map_targets inCode]

theorem Formed.allocate_rewritten (formed : m.Formed code layout) (allocated : m.allocate config f = .ok done)
    (success : done.outcome = .ok choice) :
    ∃ c c' edits, m.content f = .ok c ∧ done.machine.content f = .ok c' ∧ c.Rewritten config choice c' edits := by
  obtain ⟨node, stored, ⟨bare, same, rfl⟩ | ⟨body, _, _, body_ok, -, complete, -⟩⟩ := allocate_ok allocated success
  · obtain ⟨insts, held⟩ := formed.content_ok stored
    have empty : layout f = [] := by
      by_contra filled
      have head := formed.head_isNone stored filled
      rw [bare] at head
      cases head
    have read := (content_eq_ok.mp held).2.2
    rw [empty] at read
    cases read
    exact ⟨_, _, [], held, same ▸ held, .bare config rfl⟩
  · obtain ⟨insts, held⟩ := formed.content_ok stored
    obtain ⟨rfl, became, -⟩ := formed.allocate_content held body_ok allocated success
    obtain ⟨edits, rewritten⟩ := Content.rewritten_allocated (c := ⟨node, layout f, insts⟩) (formed.body_eq body_ok)
      complete (formed.content_code held body_ok)
    exact ⟨_, _, edits, held, became, rewritten⟩

end Machine

/-- Allocation renames registers and puts in spill code, and that is all it does. The blocks, their labels and where
they lead stay, every instruction becomes what its edit says, the counts are those of the edits, and the registers to
save are those that there were and those that were assigned. -/
theorem allocation_rewrites_in_place {m : Machine} {config : Config} {f : FuncId} {done : Machine.Allocated}
    {choice : Choice} (wellFormed : m.WellFormed) (allocated : m.allocate config f = .ok done)
    (success : done.outcome = .ok choice) :
    (∀ b, done.machine.label b = m.label b) ∧
      ∃ c c' edits, m.content f = .ok c ∧ done.machine.content f = .ok c' ∧ c.Rewritten config choice c' edits := by
  obtain ⟨code, layout, formed⟩ := wellFormed
  exact ⟨(formed.allocate_untouched allocated success).2.1, formed.allocate_rewritten allocated success⟩

/-- The constant is stored once and loaded for both additions, and the copy is taken out. -/
theorem constant_added_in_place :
    ∃ m done choice, Source.read constantAdded = .ok m ∧ m.allocate { registerLimit := some 1 } ⟨0⟩ = .ok done ∧
      done.outcome = .ok choice ∧ choice.slots = [(⟨0, .general⟩, 0)] ∧
      choice.assignment = [(⟨1, .general⟩, .x 10)] ∧ choice.stats.loadsAdded = 2 ∧ choice.stats.storesAdded = 1 ∧
      choice.stats.movesRemoved = 1 ∧ (∀ b, done.machine.label b = m.label b) ∧
      ∃ c c' edits, m.content ⟨0⟩ = .ok c ∧ done.machine.content ⟨0⟩ = .ok c' ∧
        c.Rewritten { registerLimit := some 1 } choice c' edits := by
  have run : (do
      let m ← (Source.read constantAdded).toOption
      let done ← (m.allocate { registerLimit := some 1 } ⟨0⟩).toOption
      let choice ← done.outcome.toOption
      return decide (choice.slots = [(⟨0, .general⟩, 0)] ∧ choice.assignment = [(⟨1, .general⟩, .x 10)] ∧
        choice.stats.loadsAdded = 2 ∧ choice.stats.storesAdded = 1 ∧ choice.stats.movesRemoved = 1)) =
      some true := by
    decide +kernel
  simp only [bind, Option.bind_eq_some_iff, toOption_eq_some, pure, Option.some.injEq, decide_eq_true_eq] at run
  obtain ⟨m, read, done, allocated, choice, success, slots, assignment, loads, stores, moves⟩ := run
  exact ⟨m, done, choice, read, allocated, success, slots, assignment, loads, stores, moves,
    allocation_rewrites_in_place (Source.read_wellFormed read) allocated success⟩

end RegisterAllocator
