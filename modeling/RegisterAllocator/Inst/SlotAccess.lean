import RegisterAllocator.Inst.Basic

/-!
# Access to frame slots

A slot of the stack frame is addressed relative to the stack pointer. An offset that does not fit into an instruction
is computed in an address register first.
-/

namespace RegisterAllocator

def slotFits (offset : UInt64) : Bool := (Imm12.ofNat? offset.toNat).isSome

namespace Inst

variable {τ : Type}

/-- The instructions that access the slot at `offset`, the access itself last. -/
def accessSlot (access : Reg → Imm12 → Inst τ) (address : PhysReg) (offset : UInt64) : List (Inst τ) :=
  match Imm12.ofNat? offset.toNat with
  | some small => [access PhysReg.sp small]
  | none => [li address offset.toInt64, binary .add address PhysReg.sp address, access address .zero]

/-- Load the slot at `offset` into `data`. The address register may be `data` itself. -/
def loadSlot (data address : PhysReg) (offset : UInt64) : List (Inst τ) :=
  let op := match data.file with
    | .general => LoadOp.ld
    | .float => LoadOp.fld
  accessSlot (load op data) address offset

/-- Store `data` into the slot at `offset`. The address register differs from `data`. -/
def storeSlot (data address : PhysReg) (offset : UInt64) : List (Inst τ) :=
  let op := match data.file with
    | .general => StoreOp.sd
    | .float => StoreOp.fsd
  accessSlot (store op data) address offset

end Inst

end RegisterAllocator
