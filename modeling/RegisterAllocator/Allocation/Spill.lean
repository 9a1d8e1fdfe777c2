import RegisterAllocator.Inst.SlotAccess
import RegisterAllocator.Liveness.Ranges

/-!
# Spill code

A virtual register on the stack has a slot in the frame. The instructions of its live ranges are gone through: before
each that reads the register the slot is loaded into a scratch register, and after each that writes it a scratch register
is stored into the slot. A plan lists these transfers in the order in which they are made. A patch is what becomes of one
instruction: the loads before it, the instruction itself and the stores after it.
-/

namespace RegisterAllocator

/-- An instruction and the spill code around it. -/
structure Patch where
  /-- The instruction before allocation. -/
  source : Inst Nat
  /-- The instruction now. -/
  inst : Inst Nat
  before : List (Inst Nat) := []
  after : List (Inst Nat) := []
  /-- The scratch registers that hold loaded values. -/
  taken : List PhysReg := []
deriving DecidableEq, Repr

/-- The movement of a virtual register between its slot and a scratch register, at the instruction with a number. -/
structure Transfer where
  number : Nat
  reg : VirtReg
  /-- The scratch register for the value. -/
  data : PhysReg
  /-- The scratch register for the address, used if the offset does not fit. -/
  address : PhysReg
  offset : UInt64
deriving DecidableEq, Repr

inductive SpillStep where
  /-- Add a slot at the end of the frame. -/
  | grow
  /-- Load before the instruction reads. -/
  | reload (transfer : Transfer)
  /-- Store after the instruction has written. -/
  | writeBack (transfer : Transfer)
deriving DecidableEq, Repr

namespace SpillStep

def isReload : SpillStep → Bool
  | reload _ => true
  | grow | writeBack _ => false

def isWriteBack : SpillStep → Bool
  | writeBack _ => true
  | grow | reload _ => false

end SpillStep

namespace Patch

def ofInst (inst : Inst Nat) : Patch := { source := inst, inst }

/-- The first scratch register of a file that the instruction does not read and that holds no loaded value. -/
def scratch? (p : Patch) (file : RegFile) : Option PhysReg :=
  (PhysReg.scratch file).find? fun reg => .phys reg ∉ p.inst.uses ∧ reg ∉ p.taken

/-- The scratch registers for the value and the address of a reload. A general value can be loaded over its own
address; a float value needs a general register for an address that does not fit. -/
def reloadRegs? (p : Patch) (reg : VirtReg) (offset : UInt64) : Option (PhysReg × PhysReg) := do
  let data ← p.scratch? reg.file
  if reg.file = .float ∧ !slotFits offset then
    let address ← { p with taken := p.taken ++ [data] }.scratch? .general
    return (data, address)
  else return (data, data)

def reload (p : Patch) (t : Transfer) : Patch :=
  { p with
    inst := p.inst.replaceUse t.reg t.data
    before := p.before ++ Inst.loadSlot t.data t.address t.offset
    taken := p.taken ++ [t.data] }

def writeBack (p : Patch) (t : Transfer) : Patch :=
  { p with
    inst := p.inst.replaceDef t.reg t.data
    after := Inst.storeSlot t.data t.address t.offset ++ p.after }

def replaceReg (p : Patch) (reg : VirtReg) (home : PhysReg) : Patch := { p with inst := p.inst.replaceReg reg home }

/-- The register that the instruction copies to itself, if it was a copy with a virtual side. -/
def identity? (p : Patch) : Option Reg := do
  let (dst, src) ← p.source.copy?
  guard (dst.isVirt || src.isVirt)
  let (dst, src) ← p.inst.copy?
  guard (dst = src)
  return dst

end Patch

def writeBackRegs (file : RegFile) (offset : UInt64) : PhysReg × PhysReg :=
  match file with
  | .general => if slotFits offset then (.x 5, .x 5) else (.x 6, .x 5)
  | .float => (.f 0, .x 5)

inductive SpillEnd where
  | complete
  /-- No scratch register is left to load a register at an instruction. -/
  | exhausted (reg : VirtReg) (number : Nat)
  /-- The frame has no room left. -/
  | overflow
  /-- A live range goes beyond the instructions. -/
  | beyondNumbering
deriving DecidableEq, Repr

/-- Where a register is read and written, as far as its ranges have been gone through. -/
structure SiteWalk where
  /-- The numbers that the walk has come to. Ranges share their ends. -/
  seen : List Nat := []
  readers : List Site := []
  writers : List Site := []

namespace SiteWalk

/-- Come to an instruction, whose patch says what it reads and writes by now. -/
def visit (body : Body) (patches : Array Patch) (reg : Reg) (w : SiteWalk) (number : Nat) : Option SiteWalk :=
  if number ∈ w.seen then some w
  else do
    let cell ← body.cells[number]?
    let patch ← patches[cell]?
    return {
      seen := number :: w.seen
      readers := if reg ∈ patch.inst.uses then w.readers ++ [{ number, cell }] else w.readers
      writers := if reg ∈ patch.inst.defs then w.writers ++ [{ number, cell }] else w.writers }

def along (body : Body) (patches : Array Patch) (reg : Reg) (ranges : List LiveRange) : Option SiteWalk :=
  ranges.foldlM (fun w range => range.numbers.foldlM (visit body patches reg) w) {}

end SiteWalk

structure SpillPlan where
  /-- What becomes of the instructions, by cell. -/
  patches : Array Patch
  /-- The size of the stack frame. -/
  frame : UInt64
  steps : List SpillStep := []
  /-- The slots of the registers on the stack, in the order in which they got them. -/
  slots : List (VirtReg × UInt64) := []
  ending : SpillEnd := .complete

namespace SpillPlan

/-- Reload a register at the given instructions, up to one that has no scratch register left. -/
def reloads (reg : VirtReg) (offset : UInt64) : List Site → Array Patch → Array Patch × List SpillStep × Option Nat
  | [], patches => (patches, [], none)
  | site :: rest, patches =>
    match patches[site.cell]?.bind (·.reloadRegs? reg offset) with
    | none => (patches, [], some site.number)
    | some (data, address) =>
      let transfer : Transfer := { number := site.number, reg, data, address, offset }
      let (patches, steps, failure) := reloads reg offset rest (patches.modify site.cell (·.reload transfer))
      (patches, .reload transfer :: steps, failure)

def writeBacks (reg : VirtReg) (offset : UInt64) : List Site → Array Patch → Array Patch × List SpillStep
  | [], patches => (patches, [])
  | site :: rest, patches =>
    let (data, address) := writeBackRegs reg.file offset
    let transfer : Transfer := { number := site.number, reg, data, address, offset }
    let (patches, steps) := writeBacks reg offset rest (patches.modify site.cell (·.writeBack transfer))
    (patches, .writeBack transfer :: steps)

/-- Plan the spill code of a register, whose slot is added at the end of the frame. -/
def spill (live : LiveRanges) (body : Body) (plan : SpillPlan) (reg : VirtReg) : SpillPlan :=
  if plan.ending ≠ .complete then plan
  else
    match SiteWalk.along body plan.patches reg (live.ranges reg) with
    | none => { plan with ending := .beyondNumbering }
    | some sites =>
      let steps := plan.steps ++ [.grow]
      if UInt64.size ≤ plan.frame.toNat + 8 then { plan with steps, ending := .overflow }
      else
        let offset := plan.frame
        let slots := plan.slots ++ [(reg, offset)]
        let (patches, loads, failure) := reloads reg offset sites.readers plan.patches
        match failure with
        | some number =>
          { patches, frame := offset + 8, steps := steps ++ loads, slots, ending := .exhausted reg number }
        | none =>
          let (patches, stores) := writeBacks reg offset sites.writers patches
          { patches, frame := offset + 8, steps := steps ++ loads ++ stores, slots }

def make (live : LiveRanges) (body : Body) (frame : UInt64) (regs : List VirtReg) : SpillPlan :=
  regs.foldl (spill live body) { patches := (body.insts.map .ofInst).toArray, frame }

def loadCount (plan : SpillPlan) : Nat := plan.steps.countP SpillStep.isReload

def storeCount (plan : SpillPlan) : Nat := plan.steps.countP SpillStep.isWriteBack

end SpillPlan

end RegisterAllocator
