import RegisterAllocator.Inst.Basic
import RegisterAllocator.Register.Name

/-!
# The text of instructions

An instruction is written as its mnemonic and its operands. The register lists of calls and returns are not
written.
-/

namespace RegisterAllocator.Inst

def operands (regs : List Reg) : String := ", ".intercalate (regs.map Reg.name)

def memory (offset : Imm12) (base : Reg) : String := offset.text ++ "(" ++ base.name ++ ")"

def text : Inst String → String
  | li rd value => "li " ++ rd.name ++ ", " ++ toString value.toInt
  | la rd symbol => "la " ++ rd.name ++ ", " ++ symbol
  | unary op rd rs => op.mnemonic ++ " " ++ operands [rd, rs]
  | immediate op rd rs value => op.mnemonic ++ " " ++ operands [rd, rs] ++ ", " ++ value.text
  | binary op rd rs1 rs2 => op.mnemonic ++ " " ++ operands [rd, rs1, rs2]
  | floatUnary op mode rd rs => op.mnemonic ++ " " ++ operands [rd, rs] ++ mode.suffix
  | floatBinary op mode rd rs1 rs2 => op.mnemonic ++ " " ++ operands [rd, rs1, rs2] ++ mode.suffix
  | fused op mode rd rs1 rs2 rs3 => op.mnemonic ++ " " ++ operands [rd, rs1, rs2, rs3] ++ mode.suffix
  | load op rd base offset => op.mnemonic ++ " " ++ rd.name ++ ", " ++ memory offset base
  | store op source base offset => op.mnemonic ++ " " ++ source.name ++ ", " ++ memory offset base
  | jump target => "j " ++ target
  | branch op rs1 rs2 target => op.mnemonic ++ " " ++ operands [rs1, rs2] ++ ", " ++ target
  | call symbol _ => "call " ++ symbol
  | ret _ => "ret"

end RegisterAllocator.Inst
