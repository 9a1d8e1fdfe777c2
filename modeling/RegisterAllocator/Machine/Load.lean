import RegisterAllocator.Machine.Basic
import RegisterAllocator.Program.Basic

/-!
# Storing a program

A program is stored item by item: a function, its blocks in order, then the instructions of each block in order. The
virtual registers that occur are reserved.
-/

namespace RegisterAllocator.Machine

def reserveRegs {τ : Type} (m : Machine) (inst : Inst τ) : Except Fault Machine :=
  ((inst.uses ++ inst.defs).filterMap Reg.virt?).foldlM reserveVirt m

/-- Store the instructions of a block, whose targets are positions in `blocks`. -/
def storeInsts (m : Machine) (blocks : List BlockId) (b : BlockId) (insts : List (Inst Nat)) :
    Except Fault Machine :=
  insts.foldlM (fun m inst => do
    let stored ← inst.mapTargetM fun position =>
      match blocks[position]? with
      | some target => Except.ok target
      | none => .error .missingRow
    let (m, i) := m.addInst stored
    let m ← m.reserveRegs stored
    m.pushInst b i) m

def storeBlocks (m : Machine) (f : FuncId) (labels : List String) : Except Fault (Machine × List BlockId) :=
  labels.foldlM (fun (m, blocks) label => do
    let (m, b) := m.addBlock label
    pure (← m.pushBlock f b, blocks ++ [b])) (m, [])

def storeItem (m : Machine) : Item → Except Fault Machine
  | .external label => pure (m.addFunc label true).1
  | .function function => do
    let (m, f) := m.addFunc function.label false
    let m ← m.modifyFunc f ({ · with frame := function.frame })
    let (m, blocks) ← m.storeBlocks f (function.blocks.map Block.label)
    (blocks.zip function.blocks).foldlM (fun m (b, block) => m.storeInsts blocks b block.insts) m

def ofProgram (program : Program) : Except Fault Machine := program.foldlM storeItem {}

end RegisterAllocator.Machine
