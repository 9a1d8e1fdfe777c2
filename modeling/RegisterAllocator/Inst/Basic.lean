import RegisterAllocator.Inst.Imm12
import RegisterAllocator.Inst.Opcode
import RegisterAllocator.Register.Convention

/-!
# Instructions

An instruction is an operation with its operands. What a branch names is left open (`τ`): it is a label in source
text, a position in a function's body and a handle in a store of code.
-/

namespace RegisterAllocator

/-- An instruction whose branches name values of `τ`. -/
inductive Inst (τ : Type) where
  /-- Load a constant. -/
  | li (rd : Reg) (value : Int64)
  /-- Load the address of a symbol. -/
  | la (rd : Reg) (symbol : String)
  | unary (op : UnaryOp) (rd rs : Reg)
  | immediate (op : ImmediateOp) (rd rs : Reg) (value : Imm12)
  | binary (op : BinaryOp) (rd rs1 rs2 : Reg)
  | floatUnary (op : FloatUnaryOp) (mode : Rounding) (rd rs : Reg)
  | floatBinary (op : FloatBinaryOp) (mode : Rounding) (rd rs1 rs2 : Reg)
  | fused (op : FusedOp) (mode : Rounding) (rd rs1 rs2 rs3 : Reg)
  | load (op : LoadOp) (rd base : Reg) (offset : Imm12)
  | store (op : StoreOp) (source base : Reg) (offset : Imm12)
  /-- Go on at the target. -/
  | jump (target : τ)
  /-- Go on at the target if the comparison holds, else with the next instruction. -/
  | branch (op : BranchOp) (rs1 rs2 : Reg) (target : τ)
  /-- Call a function that reads `arguments` and overwrites every caller-saved register. -/
  | call (symbol : String) (arguments : List PhysReg)
  /-- Return to the caller, who reads `results`. -/
  | ret (results : List PhysReg)
deriving DecidableEq, Repr

namespace Inst

variable {τ τ' : Type}

def uses : Inst τ → List Reg
  | li .. | la .. | jump .. => []
  | unary _ _ rs | immediate _ _ rs _ | floatUnary _ _ _ rs => [rs]
  | binary _ _ rs1 rs2 | floatBinary _ _ _ rs1 rs2 | branch _ rs1 rs2 _ => [rs1, rs2]
  | fused _ _ _ rs1 rs2 rs3 => [rs1, rs2, rs3]
  | load _ _ base _ => [base]
  | store _ source base _ => [source, base]
  | call _ arguments => arguments.map .phys
  | ret results => results.map .phys

def defs : Inst τ → List Reg
  | li rd _ | la rd _ | unary _ rd _ | immediate _ rd _ _ | binary _ rd _ _ | floatUnary _ _ rd _
  | floatBinary _ _ rd _ _ | fused _ _ rd _ _ _ | load _ rd _ _ => [rd]
  | store .. | jump .. | branch .. | ret .. => []
  | call .. => PhysReg.callerSaved.map .phys

def targets : Inst τ → List τ
  | jump target | branch _ _ _ target => [target]
  | _ => []

def fallsThrough : Inst τ → Bool
  | jump _ | ret _ => false
  | _ => true

/-- The destination and the source, if the instruction is written like a copy: an addition of zero or a sign
injection of a register into itself. -/
def copy? : Inst τ → Option (Reg × Reg)
  | binary op rd rs1 rs2 =>
    if op = .add ∨ op = .addw then
      if rs2 = PhysReg.zero then some (rd, rs1)
      else if rs1 = PhysReg.zero then some (rd, rs2)
      else none
    else none
  | immediate op rd rs value =>
    if (op = .addi ∨ op = .addiw) ∧ value.isZero then some (rd, rs) else none
  | floatBinary op _ rd rs1 rs2 =>
    if (op = .fsgnjS ∨ op = .fsgnjD) ∧ rs1 = rs2 then some (rd, rs1) else none
  | _ => none

/-- Rename the register operands that are read. The register lists of calls and returns belong to the calling
convention and stay. -/
def mapUses (rename : Reg → Reg) : Inst τ → Inst τ
  | unary op rd rs => unary op rd (rename rs)
  | immediate op rd rs value => immediate op rd (rename rs) value
  | binary op rd rs1 rs2 => binary op rd (rename rs1) (rename rs2)
  | floatUnary op mode rd rs => floatUnary op mode rd (rename rs)
  | floatBinary op mode rd rs1 rs2 => floatBinary op mode rd (rename rs1) (rename rs2)
  | fused op mode rd rs1 rs2 rs3 => fused op mode rd (rename rs1) (rename rs2) (rename rs3)
  | load op rd base offset => load op rd (rename base) offset
  | store op source base offset => store op (rename source) (rename base) offset
  | branch op rs1 rs2 target => branch op (rename rs1) (rename rs2) target
  | other => other

def mapDefs (rename : Reg → Reg) : Inst τ → Inst τ
  | li rd value => li (rename rd) value
  | la rd symbol => la (rename rd) symbol
  | unary op rd rs => unary op (rename rd) rs
  | immediate op rd rs value => immediate op (rename rd) rs value
  | binary op rd rs1 rs2 => binary op (rename rd) rs1 rs2
  | floatUnary op mode rd rs => floatUnary op mode (rename rd) rs
  | floatBinary op mode rd rs1 rs2 => floatBinary op mode (rename rd) rs1 rs2
  | fused op mode rd rs1 rs2 rs3 => fused op mode (rename rd) rs1 rs2 rs3
  | load op rd base offset => load op (rename rd) base offset
  | other => other

def swapping (old new : Reg) (r : Reg) : Reg := if r = old then new else r

def replaceUse (inst : Inst τ) (old new : Reg) : Inst τ := inst.mapUses (swapping old new)

def replaceDef (inst : Inst τ) (old new : Reg) : Inst τ := inst.mapDefs (swapping old new)

def replaceReg (inst : Inst τ) (old new : Reg) : Inst τ := (inst.replaceUse old new).replaceDef old new

def mapTargetM {m : Type → Type} [Monad m] (find : τ → m τ') : Inst τ → m (Inst τ')
  | li rd value => pure (li rd value)
  | la rd symbol => pure (la rd symbol)
  | unary op rd rs => pure (unary op rd rs)
  | immediate op rd rs value => pure (immediate op rd rs value)
  | binary op rd rs1 rs2 => pure (binary op rd rs1 rs2)
  | floatUnary op mode rd rs => pure (floatUnary op mode rd rs)
  | floatBinary op mode rd rs1 rs2 => pure (floatBinary op mode rd rs1 rs2)
  | fused op mode rd rs1 rs2 rs3 => pure (fused op mode rd rs1 rs2 rs3)
  | load op rd base offset => pure (load op rd base offset)
  | store op source base offset => pure (store op source base offset)
  | jump target => return jump (← find target)
  | branch op rs1 rs2 target => return branch op rs1 rs2 (← find target)
  | call symbol arguments => pure (call symbol arguments)
  | ret results => pure (ret results)

def mapTarget (find : τ → τ') (inst : Inst τ) : Inst τ' := Id.run (inst.mapTargetM fun target => pure (find target))

end Inst

end RegisterAllocator
