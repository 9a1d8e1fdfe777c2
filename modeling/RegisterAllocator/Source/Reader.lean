import RegisterAllocator.Machine.Load
import RegisterAllocator.Source.Instruction

/-!
# Reading programs

A source text is outlined first, so an error in its lines is found before any in its instructions. Then the
instructions are read in order. A virtual register with the last number cannot be read, since no new register could be
numbered after it.
-/

namespace RegisterAllocator.Source

/-- Whether a number follows each virtual register of an instruction. -/
def hasRoom {τ : Type} (inst : Inst τ) : Bool :=
  ((inst.uses ++ inst.defs).filterMap Reg.virt?).all fun reg => (VirtReg.nextNumber? reg.number).isSome

def resolve (labels : List String) (draft : DraftInst) : Except Failure (Inst Nat) := do
  match (do (← readInst draft).mapTargetM (findLabel labels) : Except Complaint (Inst Nat)) with
  | .error complaint => .error (.malformed { line := draft.line, complaint })
  | .ok inst => if hasRoom inst then .ok inst else .error (.fault .overflow)

def readItem : DraftItem → Except Failure Item
  | .external label => .ok (.external label)
  | .function draft => do
    let blocks ← draft.blocks.mapM fun block =>
      return { label := block.label, insts := ← block.insts.mapM (resolve draft.labels) : Block }
    return .function { label := draft.label, frame := draft.frame, blocks }

def readProgram (source : String) : Except Failure Program :=
  match outline source with
  | .error error => .error (.malformed error)
  | .ok items => items.mapM readItem

def read (source : String) : Except Failure Machine := do
  match Machine.ofProgram (← readProgram source) with
  | .ok machine => .ok machine
  | .error fault => .error (.fault fault)

end RegisterAllocator.Source
