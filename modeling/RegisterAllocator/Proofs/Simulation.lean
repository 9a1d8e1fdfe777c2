import RegisterAllocator.Proofs.Execution
import RegisterAllocator.Proofs.Placement

/-!
# Simulation of a block

Code after allocation follows the code before it, one instruction after another: started on states in which every live
register has its value in the place that was chosen for it (`Agree`), an instruction and what stands in its place lead
to such states again (`Agree.carried`), and so do all instructions of a block (`agree_block`). Of the allocation it is
used only where registers are placed (`Placing`, `Apart`) and what is around each instruction (`Patch.Carries`).
-/

namespace RegisterAllocator

def State.read {V τ : Type} (s : State V τ) : Reg ⊕ UInt64 → V
  | .inl reg => s.regs reg
  | .inr offset => s.slot offset

/-- A state before allocation and one after it: the same has been executed, the live registers have their values in
their places, and the registers that are neither tracked nor handed out have the same values. -/
structure Agree {V τ : Type} (place : Reg → Reg ⊕ UInt64) (live : Reg → Prop) (s t : State V τ) : Prop where
  trace : t.trace = s.trace
  live : ∀ reg, live reg → t.read (place reg) = s.regs reg
  reserved : ∀ reg : PhysReg, reg.isFixed = false → reg.isAllocatable = false → t.regs reg = s.regs reg

/-! ## One instruction -/

def PhysReg.scratchRegs : List PhysReg := scratchGeneral ++ scratchFloat

namespace PhysReg

theorem mem_scratchRegs {file : RegFile} {reg : PhysReg} (member : reg ∈ scratch file) : reg ∈ scratchRegs := by
  cases file
  · exact List.mem_append_left _ member
  · exact List.mem_append_right _ member

theorem withheld_of_scratch {reg : PhysReg} (member : reg ∈ scratchRegs) : reg ∈ withheld :=
  List.mem_append_left _ member

theorem isAllocatable_of_scratch : ∀ reg ∈ scratchRegs, reg.isAllocatable = false := by decide

theorem isFixed_of_scratch : ∀ reg ∈ scratchRegs, reg.isFixed = true := by decide

theorem ne_scratch {reg : PhysReg} (untracked : reg.isFixed = false) :
    ∀ scratch ∈ scratchRegs, Reg.phys reg ≠ .phys scratch := by
  rintro scratch member same
  cases same
  rw [isFixed_of_scratch reg member] at untracked
  cases untracked

theorem ne_sp_of_scratch : ∀ reg ∈ scratchRegs, reg ≠ sp := by decide

theorem writeBackRegs_scratch (file : RegFile) (offset : UInt64) : (writeBackRegs file offset).1 ∈ scratchRegs ∧
    (writeBackRegs file offset).2 ∈ scratchRegs ∧
    (slotFits offset = false → (writeBackRegs file offset).1 ≠ (writeBackRegs file offset).2) := by
  cases file <;> cases fits : slotFits offset <;> simp [writeBackRegs, fits] <;> decide

end PhysReg

section Instruction

variable {slots : List (VirtReg × UInt64)} {rename : Reg → Reg} {place : Reg → Reg ⊕ UInt64} {p : Patch}
  {loads stores : List Transfer}

/-- Transfers of the operands that are in slots, and the renaming of the others, put each operand where it is. -/
theorem Placing.moved (placing : Placing slots rename place) {operands : List Reg} {transfers : List Transfer}
    (moves : ∀ v offset, (∃ t ∈ transfers, t.reg = v ∧ t.offset = offset) ↔ (v, offset) ∈ slots ∧ .virt v ∈ operands)
    (once : (transfers.map Transfer.reg).Nodup) :
    (∀ reg home, place reg = .inl home → rename (substitute transfers reg) = home) ∧
      ∀ reg ∈ operands, ∀ offset, place reg = .inr offset →
        ∃ t ∈ transfers, reg = .virt t.reg ∧ t.offset = offset ∧ rename (substitute transfers reg) = .phys t.data := by
  constructor
  · intro reg home here
    cases reg with
    | phys reg =>
      rw [placing.phys] at here
      exact (placing.steady reg).trans (Sum.inl.inj here)
    | virt v =>
      obtain ⟨inRegister, renamed⟩ := placing.rename_eq here
      rw [substitute_of_not_moved, renamed]
      rintro t member rfl
      exact inRegister (List.mem_map_of_mem ((moves t.reg t.offset).mp ⟨t, member, rfl, rfl⟩).1)
  · intro reg operand offset here
    cases reg with
    | phys reg =>
      rw [placing.phys] at here
      cases here
    | virt v =>
      obtain ⟨t, member, rfl, rfl⟩ := (moves v offset).mpr ⟨(placing.slot v offset).mp here, operand⟩
      exact ⟨t, member, rfl, rfl, by rw [substitute_of_mem once member]; exact placing.steady t.data⟩

/-- Transfers and renaming bring nothing into a register that is neither tracked nor handed out. -/
theorem Placing.eq_reserved (placing : Placing slots rename place) {transfers : List Transfer}
    (scratch : ∀ t ∈ transfers, t.data ∈ PhysReg.scratchRegs) {reserved : PhysReg}
    (untracked : reserved.isFixed = false) (withheld : reserved.isAllocatable = false) {reg : Reg} :
    rename (substitute transfers reg) = .phys reserved ↔ reg = .phys reserved := by
  constructor
  · intro same
    cases reg with
    | phys reg => exact (placing.steady reg).symm.trans same
    | virt v =>
      simp only [substitute] at same
      split at same
      · next t found =>
        rw [show rename (.phys t.data) = .phys t.data from placing.steady t.data, Reg.phys.injEq] at same
        have fixed := PhysReg.isFixed_of_scratch _ (scratch t (List.mem_of_find?_eq_some found))
        rw [same, untracked] at fixed
        cases fixed
      · rcases placing.renamed v with kept | ⟨other, moved, handed⟩
        · rw [kept] at same
          cases same
        · rw [moved, Reg.phys.injEq] at same
          rw [same, withheld] at handed
          cases handed
  · rintro rfl
    exact placing.steady reserved

theorem Placing.home_ne_scratch (placing : Placing slots rename place) {reg home : Reg} (here : place reg = .inl home)
    (unscratched : ∀ scratch ∈ PhysReg.scratchRegs, reg ≠ .phys scratch) :
    ∀ scratch ∈ PhysReg.scratchRegs, home ≠ .phys scratch := by
  intro scratch member same
  subst same
  cases reg with
  | phys reg =>
    rw [placing.phys] at here
    exact unscratched scratch member (Sum.inl.inj here)
  | virt v =>
    have renamed := (placing.rename_eq here).2
    rcases placing.renamed v with kept | ⟨other, moved, handed⟩
    · rw [kept] at renamed
      cases renamed
    · rw [moved] at renamed
      cases renamed
      rw [PhysReg.isAllocatable_of_scratch scratch member] at handed
      cases handed

theorem Patch.Carries.stores_scratch (carries : p.Carries slots slots loads stores) (t : Transfer)
    (member : t ∈ stores) : t.data ∈ PhysReg.scratchRegs := by
  have scratch := (PhysReg.writeBackRegs_scratch t.reg.file t.offset).1
  rwa [← carries.writeBack t member] at scratch

theorem Patch.Carries.stores_cases (carries : p.Carries slots slots loads stores) :
    stores = [] ∨ ∃ t, stores = [t] := by
  have written {t : Transfer} (member : t ∈ stores) : .virt t.reg ∈ p.source.defs :=
    ((carries.stored t.reg t.offset).mp ⟨t, member, rfl, rfl⟩).2
  cases stores with
  | nil => exact .inl rfl
  | cons first rest =>
    cases rest with
    | nil => exact .inr ⟨first, rfl⟩
    | cons second others =>
      have inFirst := written List.mem_cons_self
      have inSecond := written (List.mem_cons_of_mem _ List.mem_cons_self)
      rcases p.source.defs_cases with ⟨only, single⟩ | phys
      · rw [single, List.mem_singleton] at inFirst inSecond
        have same := Reg.virt.inj (inFirst.trans inSecond.symm)
        have once := carries.storesOnce
        simp [same] at once
      · obtain ⟨_, same⟩ := phys _ inFirst
        cases same

variable {V τ : Type} [DecidableEq V] (μ : Meaning V τ)

/-- The loads before an instruction change only scratch registers, and each data register has the value of its slot. -/
theorem Patch.Carries.loaded_values (carries : p.Carries slots slots loads stores) (t : State V τ) :
    (μ.transfer true t loads).slots = t.slots ∧ (μ.transfer true t loads).trace = t.trace ∧
      (∀ reg, (∀ scratch ∈ PhysReg.scratchRegs, reg ≠ .phys scratch) →
        (μ.transfer true t loads).regs reg = t.regs reg) ∧
      ∀ u ∈ loads, (μ.transfer true t loads).regs u.data = t.slot u.offset := by
  have data (u : Transfer) (member : u ∈ loads) : u.data ∈ PhysReg.scratchRegs :=
    PhysReg.mem_scratchRegs (carries.scratch u member).1
  have address (u : Transfer) (member : u ∈ loads) (far : slotFits u.offset = false) :
      u.address ∈ PhysReg.scratchRegs := by
    obtain ⟨pre, post, split⟩ := List.append_of_mem member
    exact List.mem_append_left _ (carries.address pre u post split far).1
  obtain ⟨slots, trace, others, values⟩ := μ.transfer_loads carries.takenOnce
    (fun pre u post split far => (carries.address pre u post split far).2.2)
    (fun u member => ⟨PhysReg.ne_sp_of_scratch _ (data u member),
      fun far => PhysReg.ne_sp_of_scratch _ (address u member far)⟩) t
  exact ⟨slots, trace, fun reg unscratched => others reg fun u member =>
    ⟨unscratched _ (data u member), fun far => unscratched _ (address u member far)⟩, values⟩

/-- The stores after an instruction change only scratch registers and the slots of the registers that it writes. -/
theorem Patch.Carries.stored_values (carries : p.Carries slots slots loads stores) (t : State V τ) :
    (μ.transfer false t stores).trace = t.trace ∧
      (∀ reg, (∀ scratch ∈ PhysReg.scratchRegs, reg ≠ .phys scratch) →
        (μ.transfer false t stores).regs reg = t.regs reg) ∧
      (∀ u ∈ stores, (μ.transfer false t stores).slot u.offset = t.regs u.data) ∧
      ∀ offset, (∀ u ∈ stores, offset ≠ u.offset) → (μ.transfer false t stores).slot offset = t.slot offset := by
  rcases carries.stores_cases with rfl | ⟨u, rfl⟩
  · exact ⟨rfl, fun _ _ => rfl, fun _ member => (nomatch member), fun _ _ => rfl⟩
  · obtain ⟨-, address, apart⟩ := PhysReg.writeBackRegs_scratch u.reg.file u.offset
    rw [← carries.writeBack u List.mem_cons_self] at address apart
    have slot := @Meaning.store_slot V τ _ μ t u.data u.address u.offset fun far =>
      ⟨apart far, PhysReg.ne_sp_of_scratch _ address⟩
    refine ⟨μ.store_trace t .., fun reg unscratched => μ.store_regs t _ _ _ fun _ => unscratched _ address, ?_, ?_⟩
    · intro other member
      rw [List.mem_singleton.mp member]
      exact (slot u.offset).trans (if_pos rfl)
    · intro offset differ
      exact (slot offset).trans (if_neg (differ u List.mem_cons_self))

theorem Inst.Spared.unscratched {inst : Inst τ} (spared : inst.Spared) {reg : Reg} (reads : reg ∈ inst.uses) :
    ∀ scratch ∈ PhysReg.scratchRegs, reg ≠ .phys scratch := by
  rintro scratch member rfl
  exact spared.unread (PhysReg.withheld_of_scratch member) reads

/-- After the loads every operand has its value in the register in which the instruction reads it. -/
theorem Agree.values (placing : Placing slots rename place) (carries : p.Carries slots slots loads stores)
    (spared : p.source.Spared) {before : Reg → Prop} (reads : ∀ reg ∈ p.source.uses, reg.isTracked = true → before reg)
    {s t : State V τ} (agree : Agree place before s t) {reg : Reg} (used : reg ∈ p.source.uses) :
    (μ.transfer true t loads).regs (rename (substitute loads reg)) = s.regs reg := by
  obtain ⟨-, -, others, values⟩ := carries.loaded_values μ t
  obtain ⟨inRegister, inSlot⟩ := placing.moved carries.loaded carries.loadsOnce
  cases here : place reg with
  | inl home =>
    rw [inRegister reg home here, others home (placing.home_ne_scratch here (spared.unscratched used))]
    by_cases tracked : reg.isTracked = true
    · have live := agree.live reg (reads reg used tracked)
      rwa [here] at live
    · cases reg with
      | virt v => exact absurd rfl tracked
      | phys reg =>
        rw [placing.phys] at here
        cases here
        refine agree.reserved reg (by simpa [Reg.isTracked] using tracked) ?_
        by_contra handed
        exact tracked (spared.fixed (by simpa using handed) (.inl used))
  | inr offset =>
    obtain ⟨u, member, rfl, rfl, renamed⟩ := inSlot reg used offset here
    have live := agree.live _ (reads _ used rfl)
    rw [here] at live
    rw [renamed, values u member]
    exact live

theorem Patch.Carries.injective (placing : Placing slots rename place) (carries : p.Carries slots slots loads stores)
    (spared : p.source.Spared) (apart : ∀ a ∈ p.source.uses, ∀ b ∈ p.source.uses, place a = place b → a = b) :
    ∀ a ∈ p.source.uses, ∀ b ∈ p.source.uses,
      rename (substitute loads a) = rename (substitute loads b) → a = b := by
  obtain ⟨inRegister, inSlot⟩ := placing.moved carries.loaded carries.loadsOnce
  have scratch {a b : Reg} {home : Reg} {offset : UInt64} (usedA : a ∈ p.source.uses) (usedB : b ∈ p.source.uses)
      (here : place a = .inl home) (there : place b = .inr offset) :
      rename (substitute loads a) ≠ rename (substitute loads b) := by
    obtain ⟨u, member, -, -, renamed⟩ := inSlot b usedB offset there
    rw [inRegister a home here, renamed]
    exact placing.home_ne_scratch here (spared.unscratched usedA) _
      (PhysReg.mem_scratchRegs (carries.scratch u member).1)
  intro a usedA b usedB same
  cases placeA : place a with
  | inl homeA =>
    cases placeB : place b with
    | inl homeB =>
      rw [inRegister a homeA placeA, inRegister b homeB placeB] at same
      exact apart a usedA b usedB (by rw [placeA, placeB, same])
    | inr offsetB => exact absurd same (scratch usedA usedB placeA placeB)
  | inr offsetA =>
    cases placeB : place b with
    | inl homeB => exact absurd same.symm (scratch usedB usedA placeB placeA)
    | inr offsetB =>
      obtain ⟨u, inLoads, rfl, -, renamedA⟩ := inSlot a usedA offsetA placeA
      obtain ⟨v, inLoads', rfl, -, renamedB⟩ := inSlot b usedB offsetB placeB
      rw [renamedA, renamedB, Reg.phys.injEq] at same
      rw [List.inj_on_of_nodup_map carries.takenOnce inLoads inLoads' same]

/-- One instruction and the code in its place lead from states that agree on what is live before it to states that agree
on what is live after it. -/
theorem Agree.carried {name : Nat → τ} (placing : Placing slots rename place)
    (carries : p.Carries slots slots loads stores) {before after : Reg → Prop} (apart : Apart place after p.source)
    (spared : p.source.Spared) (reads : ∀ reg ∈ p.source.uses, reg.isTracked = true → before reg)
    (kept : ∀ reg, after reg → reg ∉ p.source.defs → before reg)
    (unscratched : ∀ reg, after reg → ∀ scratch ∈ PhysReg.scratchRegs, reg ≠ .phys scratch) {s t : State V τ}
    (agree : Agree place before s t) :
    Agree place after (μ.step s (p.source.mapTarget name)) (μ.transfer false (μ.step (μ.transfer true t loads)
      (((p.source.mapTarget name).mapUses (rename ∘ substitute loads)).mapDefs
        (rename ∘ substitute stores))) stores) := by
  have loadData (u : Transfer) (member : u ∈ loads) : u.data ∈ PhysReg.scratchRegs :=
    PhysReg.mem_scratchRegs (carries.scratch u member).1
  -- The loads, the instruction itself and the stores in turn.
  obtain ⟨slots₁, trace₁, regs₁, -⟩ := carries.loaded_values μ t
  have steadyDefs : Inst.Steady (rename ∘ substitute stores) := placing.steady
  have executed := @Meaning.step_renamed V τ μ (p.source.mapTarget name) (rename ∘ substitute loads)
    (rename ∘ substitute stores) placing.steady steadyDefs
    (by simpa using carries.injective placing spared apart.reads)
    (fun reg _ => placing.eq_reserved loadData (by decide) (by decide)) s (μ.transfer true t loads)
    (fun reg used => agree.values μ placing carries spared reads (by simpa using used)) (trace₁.trans agree.trace)
  obtain ⟨trace₂, defs₂⟩ := executed
  have defs : (((p.source.mapTarget name).mapUses (rename ∘ substitute loads)).mapDefs
      (rename ∘ substitute stores)).defs = p.source.defs.map (rename ∘ substitute stores) := by
    rw [Inst.defs_mapDefs steadyDefs, Inst.defs_mapUses, Inst.defs_mapTarget]
  have kept₂ (reg : Reg) (untouched : ∀ d ∈ p.source.defs, rename (substitute stores d) ≠ reg) :=
    @Meaning.step_regs_of_not_mem V τ μ (((p.source.mapTarget name).mapUses (rename ∘ substitute loads)).mapDefs
      (rename ∘ substitute stores)) reg (by simpa [defs] using untouched) (μ.transfer true t loads)
  have slots₂ := μ.step_slots (((p.source.mapTarget name).mapUses (rename ∘ substitute loads)).mapDefs
    (rename ∘ substitute stores)) (μ.transfer true t loads)
  generalize μ.step (μ.transfer true t loads) _ = t₂ at *
  obtain ⟨trace₃, regs₃, stored₃, slots₃⟩ := carries.stored_values μ t₂
  obtain ⟨inRegister, inSlot⟩ := placing.moved carries.stored carries.storesOnce
  simp only [Inst.defs_mapTarget] at defs₂
  have unwritten (reg : Reg) (absent : reg ∉ p.source.defs) :
      (μ.step s (p.source.mapTarget name)).regs reg = s.regs reg :=
    μ.step_regs_of_not_mem (by simpa using absent) s
  -- A register that is not tracked nor handed out is changed only where the program says so.
  have reserved₂ (reg : PhysReg) (untracked : reg.isFixed = false) (withheld : reg.isAllocatable = false)
      (absent : .phys reg ∉ p.source.defs) : t₂.regs reg = t.regs reg := by
    rw [kept₂ reg fun d writes same =>
      absent ((placing.eq_reserved carries.stores_scratch untracked withheld).mp same ▸ writes)]
    exact regs₁ reg (PhysReg.ne_scratch untracked)
  refine ⟨trace₃.trans trace₂, fun reg live => ?_, fun reg untracked withheld => ?_⟩
  · have plain := unscratched reg live
    by_cases writes : reg ∈ p.source.defs
    · have written := defs₂ reg writes
      cases here : place reg with
      | inl home =>
        rw [Function.comp_apply, inRegister reg home here] at written
        exact (regs₃ home (placing.home_ne_scratch here plain)).trans written
      | inr offset =>
        obtain ⟨u, member, rfl, rfl, renamed⟩ := inSlot reg writes offset here
        rw [Function.comp_apply, renamed] at written
        exact (stored₃ u member).trans written
    · rw [unwritten reg writes, ← agree.live reg (kept reg live writes)]
      cases here : place reg with
      | inl home =>
        have homeScratch := placing.home_ne_scratch here plain
        refine (regs₃ home homeScratch).trans ((kept₂ home fun d inDefs same => ?_).trans (regs₁ home homeScratch))
        -- What is written is in another place, or in a scratch register first.
        cases there : place d with
        | inl other =>
          rw [inRegister d other there] at same
          exact apart.writes d inDefs reg live writes (by rw [here, there, same])
        | inr offset =>
          obtain ⟨u, member, -, -, renamed⟩ := inSlot d inDefs offset there
          exact homeScratch u.data (carries.stores_scratch u member) (same.symm.trans renamed)
      | inr offset =>
        have other (u : Transfer) (member : u ∈ stores) : offset ≠ u.offset := by
          rintro rfl
          obtain ⟨slot, defined⟩ := (carries.stored u.reg u.offset).mp ⟨u, member, rfl, rfl⟩
          refine apart.writes _ defined reg live writes ?_
          rw [here, (placing.slot u.reg u.offset).mpr slot]
        have stack : t₂.regs PhysReg.sp = t.regs PhysReg.sp :=
          reserved₂ .sp (by decide) (by decide) spared.2
        refine (slots₃ offset other).trans ?_
        rw [State.slot, State.read, State.slot, slots₂, slots₁, stack]
  · rw [regs₃ reg (PhysReg.ne_scratch untracked)]
    by_cases writes : .phys reg ∈ p.source.defs
    · have written := defs₂ reg writes
      rwa [show (rename ∘ substitute stores) (.phys reg) = .phys reg from placing.steady reg] at written
    · rw [reserved₂ reg untracked withheld writes, unwritten reg writes, agree.reserved reg untracked withheld]

end Instruction

/-! ## A block -/

section Block

variable {slots : List (VirtReg × UInt64)} {rename : Reg → Reg} {place : Reg → Reg ⊕ UInt64} {V τ : Type}
  {name : Nat → τ}

/-- The code that stands in place of an instruction, with marks: loads, the instruction itself with its operands
replaced, and stores. A copy of a register to itself may be missing. -/
def Replaced (slots : List (VirtReg × UInt64)) (rename : Reg → Reg) (name : Nat → τ) (inst : Inst Nat)
    (code : List (Bool × Inst τ)) : Prop :=
  ∃ (p : Patch) (loads stores : List Transfer) (own : List (Bool × Inst τ)),
    p.source = inst ∧ p.Carries slots slots loads stores ∧
    code = (loads.flatMap fun u => Inst.loadSlot u.data u.address u.offset).map (Prod.mk false) ++ own ++
      (stores.flatMap fun u => Inst.storeSlot u.data u.address u.offset).map (Prod.mk false) ∧
    (own = [(true, ((inst.mapTarget name).mapUses (rename ∘ substitute loads)).mapDefs (rename ∘ substitute stores))] ∨
      own = [] ∧ ∃ reg, (((inst.mapTarget name).mapUses (rename ∘ substitute loads)).mapDefs
        (rename ∘ substitute stores)).copy? = some (reg, reg))

variable [DecidableEq V] (μ : Meaning V τ)

theorem Replaced.agree {inst : Inst Nat} {code : List (Bool × Inst τ)} (replaced : Replaced slots rename name inst code)
    (placing : Placing slots rename place) {before after : Reg → Prop} (apart : Apart place after inst)
    (spared : inst.Spared) (reads : ∀ reg ∈ inst.uses, reg.isTracked = true → before reg)
    (kept : ∀ reg, after reg → reg ∉ inst.defs → before reg)
    (unscratched : ∀ reg, after reg → ∀ scratch ∈ PhysReg.scratchRegs, reg ≠ .phys scratch) {s t : State V τ}
    (agree : Agree place before s t) :
    ∃ t', (∀ rest, μ.run (code ++ rest) t = μ.run rest t') ∧ Agree place after (μ.step s (inst.mapTarget name)) t' := by
  obtain ⟨p, loads, stores, own, rfl, carries, rfl, executed⟩ := replaced
  refine ⟨_, fun rest => ?_, agree.carried μ placing carries apart spared reads kept unscratched⟩
  rw [List.append_assoc, List.append_assoc, Meaning.run_loads]
  rcases executed with rfl | ⟨rfl, reg, identity⟩
  · exact μ.run_stores stores rest _
  · rw [Meaning.step_identity μ identity]
    exact μ.run_stores stores rest _

/-- The registers that are live before straight code. -/
def Live (out : Reg → Prop) (insts : List (Inst Nat)) (reg : Reg) : Prop :=
  reg.isTracked = true ∧ LiveBefore reg (out reg) insts

theorem agree_block {insts : List (Inst Nat)} {codes : List (List (Bool × Inst τ))}
    (replaced : List.Forall₂ (Replaced slots rename name) insts codes) (placing : Placing slots rename place)
    {out : Reg → Prop} (spared : ∀ inst ∈ insts, inst.Spared)
    (apart : ∀ pre inst post, insts = pre ++ inst :: post → Apart place (Live out post) inst)
    (unscratched : ∀ pre post, insts = pre ++ post → ∀ reg, Live out post reg →
      ∀ scratch ∈ PhysReg.scratchRegs, reg ≠ .phys scratch) {s t : State V τ}
    (agree : Agree place (Live out insts) s t) :
    ∃ t', μ.run codes.flatten t = some t' ∧
      Agree place (Live out []) (μ.exec s (insts.map (Inst.mapTarget name))) t' := by
  induction replaced generalizing s t with
  | nil => exact ⟨t, rfl, agree⟩
  | @cons inst code rest codes first _ ih =>
    obtain ⟨t₁, run, agree⟩ := first.agree μ placing (apart [] inst rest rfl) (spared inst List.mem_cons_self)
      (fun reg reads tracked => ⟨tracked, .inl reads⟩) (fun reg live kept => ⟨live.1, .inr ⟨kept, live.2⟩⟩)
      (unscratched [inst] rest rfl) agree
    obtain ⟨t', runs, agree⟩ := ih (fun other member => spared other (List.mem_cons_of_mem _ member))
      (fun pre other post split => apart (inst :: pre) other post (by rw [split]; rfl))
      (fun pre post split => unscratched (inst :: pre) post (by rw [split]; rfl)) agree
    exact ⟨t', by rw [List.flatten_cons, run, runs], agree⟩

end Block

end RegisterAllocator
