import Mathlib.Data.List.Induction
import Mathlib.Data.List.Nodup
import Mathlib.Logic.Function.Basic
import RegisterAllocator.Allocation.Spill
import RegisterAllocator.Proofs.Renaming

/-!
# Execution of code

Code is executed from the first instruction to the last on states that give a value to every register and to every slot
of the frame. A copy copies. What any other instruction computes is left open: it is a function of the parts of the
instruction that are not registers, of the values read and of what has been executed so far. Spill code is recognised by
its form (`SlotAccess.near?`, `SlotAccess.far?`): it moves a value between a register and a slot and may leave anything
in the register that it computes the address in. Code of both kinds is executed with a mark at each instruction that
tells them apart (`Meaning.run`). A renamed instruction does the same as before where its operands have the same values
(`Meaning.step_renamed`).
-/

namespace RegisterAllocator

/-- What code works on. A slot is named by the value of the stack pointer and an offset. -/
structure State (V τ : Type) where
  regs : Reg → V
  slots : V → UInt64 → V
  /-- The instructions executed that are no copies, without their registers, and the values they read; latest first. -/
  trace : List (Inst τ × List V)

/-- What instructions compute. -/
structure Meaning (V τ : Type) where
  /-- What an instruction writes to the register at a position among those that it writes. -/
  result : Inst τ → Nat → List V → List (Inst τ × List V) → V
  /-- What is left in the register in which the address of a slot is computed. -/
  address : State V τ → UInt64 → V

namespace State

variable {V τ : Type}

def write (s : State V τ) (reg : Reg) (value : V) : State V τ := { s with regs := Function.update s.regs reg value }

def slot (s : State V τ) (offset : UInt64) : V := s.slots (s.regs PhysReg.sp) offset

def store [DecidableEq V] (s : State V τ) (base : V) (offset : UInt64) (value : V) : State V τ :=
  { s with slots := Function.update s.slots base (Function.update (s.slots base) offset value) }

end State

/-- A movement between a register and a slot of the frame. -/
structure SlotAccess where
  /-- Whether the register is written and not the slot. -/
  loads : Bool
  data : Reg
  /-- The register in which the address is computed, if it is. -/
  address : Option Reg
  offset : UInt64
deriving DecidableEq

namespace SlotAccess

variable {τ : Type}

/-- A movement of a whole register from or to memory: whether it loads, the register, the base and the offset. -/
def memory? : Inst τ → Option (Bool × Reg × Reg × Imm12)
  | .load op data base offset => if op = .ld ∨ op = .fld then some (true, data, base, offset) else none
  | .store op data base offset => if op = .sd ∨ op = .fsd then some (false, data, base, offset) else none
  | _ => none

/-- An access relative to the stack pointer. -/
def near? (inst : Inst τ) : Option SlotAccess :=
  match memory? inst with
  | some (loads, data, base, offset) =>
    if base = PhysReg.sp then some { loads, data, address := none, offset := .ofInt offset.toInt } else none
  | none => none

/-- An access through an address that is the sum of the stack pointer and a constant. -/
def far? (constant sum access : Inst τ) : Option SlotAccess :=
  match constant, sum, memory? access with
  | .li address value, .binary op rd rs1 rs2, some (loads, data, base, offset) =>
    if op = .add ∧ rd = address ∧ rs1 = PhysReg.sp ∧ rs2 = address ∧ base = address ∧ offset = .zero then
      some { loads, data, address := some address, offset := value.toUInt64 }
    else none
  | _, _, _ => none

/-- The access to the slot at an offset, with an address register for an offset that does not fit. -/
def ofSlot (loads : Bool) (data address : PhysReg) (offset : UInt64) : SlotAccess :=
  { loads, data, address := if slotFits offset then none else some address, offset }

variable {V : Type} [DecidableEq V]

/-- Carry out an access. The address register is overwritten before the access is made. -/
def apply (μ : Meaning V τ) (access : SlotAccess) (s : State V τ) : State V τ :=
  let s' := match access.address with
    | some address => s.write address (μ.address s access.offset)
    | none => s
  if access.loads then s'.write access.data (s.slot access.offset)
  else s'.store (s.regs PhysReg.sp) access.offset (s'.regs access.data)

end SlotAccess

namespace Meaning

variable {V τ : Type} (μ : Meaning V τ)

def step (s : State V τ) (inst : Inst τ) : State V τ :=
  match inst.copy? with
  | some (dst, src) => s.write dst (s.regs src)
  | none =>
    let values := inst.uses.map s.regs
    { s with
      regs := fun reg =>
        if reg ∈ inst.defs then μ.result inst.skeleton (inst.defs.idxOf reg) values s.trace else s.regs reg
      trace := (inst.skeleton, values) :: s.trace }

def exec (s : State V τ) (insts : List (Inst τ)) : State V τ := insts.foldl μ.step s

variable [DecidableEq V]

/-- Execute code in which each instruction is marked: those of the program with `true`, spill code with `false`. Spill
code that is no access to a slot cannot be executed. -/
def run : List (Bool × Inst τ) → State V τ → Option (State V τ)
  | [], s => some s
  | (true, inst) :: rest, s => run rest (μ.step s inst)
  | (false, first) :: rest, s =>
    match SlotAccess.near? first with
    | some access => run rest (access.apply μ s)
    | none =>
      match rest with
      | (false, second) :: (false, third) :: rest =>
        match SlotAccess.far? first second third with
        | some access => run rest (access.apply μ s)
        | none => none
      | _ => none

/-! ## Executing spill code -/

theorem ofInt_small {offset : UInt64} {small : Imm12} (fits : Imm12.ofNat? offset.toNat = some small) :
    UInt64.ofInt small.toInt = offset := by
  have bound := offset.toNat_lt
  have within : ((offset.toNat : Int) % 2 ^ 64).toNat = offset.toNat := by omega
  rw [Imm12.toInt_of_ofInt? fits, UInt64.ofInt, within, UInt64.ofNat_toNat]

theorem run_near {first : Inst τ} {access : SlotAccess} (found : SlotAccess.near? first = some access)
    (rest : List (Bool × Inst τ)) (s : State V τ) :
    μ.run ((false, first) :: rest) s = μ.run rest (access.apply μ s) := by
  rw [run.eq_def]
  simp only [found]

theorem run_far {first second third : Inst τ} {access : SlotAccess} (notNear : SlotAccess.near? first = none)
    (found : SlotAccess.far? first second third = some access) (rest : List (Bool × Inst τ)) (s : State V τ) :
    μ.run ((false, first) :: (false, second) :: (false, third) :: rest) s = μ.run rest (access.apply μ s) := by
  rw [run.eq_def]
  simp only [notNear, found]

theorem run_accessSlot {access : Reg → Imm12 → Inst τ} {loads : Bool} {data : PhysReg}
    (moves : ∀ base offset, SlotAccess.memory? (access base offset) = some (loads, .phys data, base, offset))
    (address : PhysReg) (offset : UInt64) (rest : List (Bool × Inst τ)) (s : State V τ) :
    μ.run ((Inst.accessSlot access address offset).map (Prod.mk false) ++ rest) s =
      μ.run rest ((SlotAccess.ofSlot loads data address offset).apply μ s) := by
  cases fits : Imm12.ofNat? offset.toNat with
  | some small =>
    have near : SlotAccess.near? (access PhysReg.sp small) = some (.ofSlot loads data address offset) := by
      simp [SlotAccess.near?, moves, ofInt_small fits, SlotAccess.ofSlot, slotFits, fits]
    simp only [Inst.accessSlot, fits]
    exact run_near μ near rest s
  | none =>
    have near : SlotAccess.near? (Inst.li (τ := τ) address offset.toInt64) = none := rfl
    have far : SlotAccess.far? (Inst.li address offset.toInt64) (.binary .add address PhysReg.sp address)
        (access address .zero) = some (.ofSlot loads data address offset) := by
      simp [SlotAccess.far?, moves, SlotAccess.ofSlot, slotFits, fits]
    simp only [Inst.accessSlot, fits]
    exact run_far μ near far rest s

theorem run_loadSlot (data address : PhysReg) (offset : UInt64) (rest : List (Bool × Inst τ)) (s : State V τ) :
    μ.run ((Inst.loadSlot data address offset).map (Prod.mk false) ++ rest) s =
      μ.run rest ((SlotAccess.ofSlot true data address offset).apply μ s) := by
  refine run_accessSlot μ (fun base offset => ?_) address offset rest s
  cases data.file <;> rfl

theorem run_storeSlot (data address : PhysReg) (offset : UInt64) (rest : List (Bool × Inst τ)) (s : State V τ) :
    μ.run ((Inst.storeSlot data address offset).map (Prod.mk false) ++ rest) s =
      μ.run rest ((SlotAccess.ofSlot false data address offset).apply μ s) := by
  refine run_accessSlot μ (fun base offset => ?_) address offset rest s
  cases data.file <;> rfl

end Meaning

/-! ## Loads and stores -/

namespace Meaning

variable {V τ : Type} [DecidableEq V] (μ : Meaning V τ)

def transfer (loads : Bool) (t : State V τ) (transfers : List Transfer) : State V τ :=
  transfers.foldl (fun t u => (SlotAccess.ofSlot loads u.data u.address u.offset).apply μ t) t

theorem run_loads (loads : List Transfer) (rest : List (Bool × Inst τ)) (t : State V τ) :
    μ.run ((loads.flatMap fun u => Inst.loadSlot u.data u.address u.offset).map (Prod.mk false) ++ rest) t =
      μ.run rest (μ.transfer true t loads) := by
  induction loads generalizing t with
  | nil => rfl
  | cons first others ih =>
    rw [List.flatMap_cons, List.map_append, List.append_assoc, run_loadSlot, ih]
    rfl

theorem run_stores (stores : List Transfer) (rest : List (Bool × Inst τ)) (t : State V τ) :
    μ.run ((stores.flatMap fun u => Inst.storeSlot u.data u.address u.offset).map (Prod.mk false) ++ rest) t =
      μ.run rest (μ.transfer false t stores) := by
  induction stores generalizing t with
  | nil => rfl
  | cons first others ih =>
    rw [List.flatMap_cons, List.map_append, List.append_assoc, run_storeSlot, ih]
    rfl

theorem load_regs (t : State V τ) (data address : PhysReg) (offset : UInt64) (reg : Reg) :
    ((SlotAccess.ofSlot true data address offset).apply μ t).regs reg =
      if reg = .phys data then t.slot offset
      else if slotFits offset = false ∧ reg = .phys address then μ.address t offset
      else t.regs reg := by
  cases fits : slotFits offset <;> simp [SlotAccess.apply, SlotAccess.ofSlot, fits, State.write, Function.update_apply]

theorem load_rest (t : State V τ) (data address : PhysReg) (offset : UInt64) :
    ((SlotAccess.ofSlot true data address offset).apply μ t).slots = t.slots ∧
      ((SlotAccess.ofSlot true data address offset).apply μ t).trace = t.trace := by
  cases fits : slotFits offset <;> simp [SlotAccess.apply, SlotAccess.ofSlot, fits, State.write]

/-- Loads change nothing but registers that they name, and leave in each data register the value of its slot. -/
theorem transfer_loads {loads : List Transfer} (once : (loads.map Transfer.data).Nodup)
    (address : ∀ pre u post, loads = pre ++ u :: post → slotFits u.offset = false → ∀ v ∈ pre, u.address ≠ v.data)
    (stack : ∀ u ∈ loads, u.data ≠ .sp ∧ (slotFits u.offset = false → u.address ≠ .sp)) (t : State V τ) :
    (μ.transfer true t loads).slots = t.slots ∧ (μ.transfer true t loads).trace = t.trace ∧
      (∀ reg, (∀ u ∈ loads, reg ≠ .phys u.data ∧ (slotFits u.offset = false → reg ≠ .phys u.address)) →
        (μ.transfer true t loads).regs reg = t.regs reg) ∧
      ∀ u ∈ loads, (μ.transfer true t loads).regs u.data = t.slot u.offset := by
  -- From the last load back: it is executed last and must leave the earlier data registers alone.
  induction loads using List.reverseRecOn with
  | nil => exact ⟨rfl, rfl, fun _ _ => rfl, fun _ member => (nomatch member)⟩
  | append_singleton loads last ih =>
    rw [List.map_append, List.map_singleton, ← List.concat_eq_append, List.nodup_concat] at once
    obtain ⟨slots, trace, others, values⟩ := ih once.2
      (fun pre u post split => address pre u (post ++ [last]) (by rw [split]; simp))
      fun u member => stack u (List.mem_append_left _ member)
    have final : μ.transfer true t (loads ++ [last]) =
        (SlotAccess.ofSlot true last.data last.address last.offset).apply μ (μ.transfer true t loads) := by
      simp [transfer]
    obtain ⟨sameSlots, sameTrace⟩ := μ.load_rest (μ.transfer true t loads) last.data last.address last.offset
    rw [final]
    refine ⟨sameSlots.trans slots, sameTrace.trans trace, fun reg unnamed => ?_, fun u member => ?_⟩
    · obtain ⟨notData, notAddress⟩ := unnamed last (by simp)
      rw [load_regs, if_neg notData, if_neg fun both => notAddress both.1 both.2]
      exact others reg fun u member => unnamed u (List.mem_append_left _ member)
    · rw [load_regs]
      rcases List.mem_append.mp member with earlier | here
      · have notData : u.data ≠ last.data := fun same => once.1 (same ▸ List.mem_map_of_mem earlier)
        have notAddress : ¬(slotFits last.offset = false ∧ Reg.phys u.data = .phys last.address) := fun both =>
          address loads last [] rfl both.1 u earlier (Reg.phys.inj both.2).symm
        rw [if_neg (fun same => notData (Reg.phys.inj same)), if_neg notAddress, values u earlier]
      · rw [List.mem_singleton.mp here, if_pos rfl, State.slot, State.slot, slots, others]
        intro v earlier
        obtain ⟨notData, notAddress⟩ := stack v (List.mem_append_left _ earlier)
        exact ⟨fun same => notData (Reg.phys.inj same).symm, fun far same => notAddress far (Reg.phys.inj same).symm⟩

theorem store_regs (t : State V τ) (data address : PhysReg) (offset : UInt64) {reg : Reg}
    (other : slotFits offset = false → reg ≠ .phys address) :
    ((SlotAccess.ofSlot false data address offset).apply μ t).regs reg = t.regs reg := by
  cases fits : slotFits offset with
  | true => simp [SlotAccess.apply, SlotAccess.ofSlot, fits, State.store]
  | false =>
    simp [SlotAccess.apply, SlotAccess.ofSlot, fits, State.store, State.write, Function.update_of_ne (other fits)]

/-- A store changes the slot that it names, provided that the address is not computed in the data register. -/
theorem store_slot (t : State V τ) {data address : PhysReg} {offset : UInt64}
    (apart : slotFits offset = false → data ≠ address ∧ address ≠ .sp) (other : UInt64) :
    ((SlotAccess.ofSlot false data address offset).apply μ t).slot other =
      if other = offset then t.regs data else t.slot other := by
  cases fits : slotFits offset with
  | true =>
    by_cases same : other = offset <;>
      simp [SlotAccess.apply, SlotAccess.ofSlot, fits, State.store, State.slot, same]
  | false =>
    obtain ⟨notData, notStack⟩ := apart fits
    have stack : Reg.phys .sp ≠ .phys address := fun same => notStack (Reg.phys.inj same).symm
    have kept : Reg.phys data ≠ .phys address := fun same => notData (Reg.phys.inj same)
    by_cases same : other = offset <;>
      simp [SlotAccess.apply, SlotAccess.ofSlot, fits, State.store, State.slot, State.write, same, stack, kept]

theorem store_trace (t : State V τ) (data address : PhysReg) (offset : UInt64) :
    ((SlotAccess.ofSlot false data address offset).apply μ t).trace = t.trace := by
  cases fits : slotFits offset <;> simp [SlotAccess.apply, SlotAccess.ofSlot, fits, State.store, State.write]

end Meaning

/-! ## Executing a renamed instruction -/

namespace Meaning

variable {V τ : Type} (μ : Meaning V τ)

theorem step_regs_of_not_mem {inst : Inst τ} {reg : Reg} (kept : reg ∉ inst.defs) (s : State V τ) :
    (μ.step s inst).regs reg = s.regs reg := by
  cases copies : inst.copy? with
  | none => simp [step, copies, kept]
  | some pair =>
    obtain ⟨dst, src⟩ := pair
    rw [(Inst.copy?_eq_some copies).1, List.mem_singleton] at kept
    simp [step, copies, State.write, Function.update_of_ne kept]

theorem step_slots (inst : Inst τ) (s : State V τ) : (μ.step s inst).slots = s.slots := by
  cases copies : inst.copy? <;> simp [step, copies, State.write]

theorem step_identity {inst : Inst τ} {reg : Reg} (identity : inst.copy? = some (reg, reg)) (s : State V τ) :
    μ.step s inst = s := by
  simp [step, identity, State.write]

/-- A renamed instruction does the same in a state that has the values it reads in the renamed registers. -/
theorem step_renamed {inst : Inst τ} {ρ δ : Reg → Reg} (steadyUses : Inst.Steady ρ) (steadyDefs : Inst.Steady δ)
    (injective : ∀ a ∈ inst.uses, ∀ b ∈ inst.uses, ρ a = ρ b → a = b)
    (zero : ∀ a ∈ inst.uses, ρ a = PhysReg.zero ↔ a = PhysReg.zero) {s t : State V τ}
    (values : ∀ reg ∈ inst.uses, t.regs (ρ reg) = s.regs reg) (trace : t.trace = s.trace) :
    (μ.step t ((inst.mapUses ρ).mapDefs δ)).trace = (μ.step s inst).trace ∧
      ∀ reg ∈ inst.defs, (μ.step t ((inst.mapUses ρ).mapDefs δ)).regs (δ reg) = (μ.step s inst).regs reg := by
  have copy := @Inst.copy?_renamed τ ρ δ inst injective zero
  cases copies : inst.copy? with
  | some pair =>
    obtain ⟨dst, src⟩ := pair
    obtain ⟨only, reads⟩ := Inst.copy?_eq_some copies
    rw [copies, Option.map_some] at copy
    refine ⟨by simpa [step, copies, copy, State.write] using trace, fun reg writes => ?_⟩
    rw [only, List.mem_singleton] at writes
    simp [step, copies, copy, State.write, writes, values src reads]
  | none =>
    rw [copies, Option.map_none] at copy
    have uses : ((inst.mapUses ρ).mapDefs δ).uses.map t.regs = inst.uses.map s.regs := by
      rw [Inst.uses_mapDefs, Inst.uses_mapUses steadyUses, List.map_map]
      exact List.map_congr_left values
    have defs : ((inst.mapUses ρ).mapDefs δ).defs = inst.defs.map δ := by
      rw [Inst.defs_mapDefs steadyDefs, Inst.defs_mapUses]
    refine ⟨by simp only [step, copies, copy, uses, trace, Inst.skeleton_mapUses, Inst.skeleton_mapDefs],
      fun reg writes => ?_⟩
    have renamed : δ reg ∈ inst.defs.map δ := List.mem_map_of_mem writes
    simp only [step, copies, copy, uses, defs, trace, if_pos writes, if_pos renamed, Inst.skeleton_mapUses,
      Inst.skeleton_mapDefs, Inst.idxOf_defs steadyDefs writes]

end Meaning

end RegisterAllocator
