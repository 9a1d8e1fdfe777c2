import RegisterAllocator.Inst.Imm12
import RegisterAllocator.Inst.Opcode
import RegisterAllocator.Source.Error
import RegisterAllocator.Text.Split

/-!
# Operands

The kinds of operands and how each is read from text.
-/

namespace RegisterAllocator.Source

def register (file : RegFile) (text : String) : Except Complaint Reg :=
  match Reg.ofName? text with
  | none => .error (.badRegister text)
  | some reg => if reg.file = file then .ok reg else .error (.wrongFile text file)

def general (text : String) : Except Complaint Reg := register .general text

def float (text : String) : Except Complaint Reg := register .float text

/-- Physical registers, of either file. -/
def physicals (texts : List String) : Except Complaint (List PhysReg) :=
  texts.mapM fun text =>
    match PhysReg.ofName? text with
    | some reg => .ok reg
    | none => .error (.badRegister text)

def literal (text : String) : Except Complaint Int64 :=
  match Numeral.int64? text.toList with
  | some value => .ok value
  | none => .error (.badImmediate text)

def immediate (text : String) : Except Complaint Imm12 :=
  match (Numeral.int64? text.toList).bind fun value => Imm12.ofInt? value.toInt with
  | some value => .ok value
  | none => .error (.badImmediate text)

/-- The offset of a memory operand, zero if there is none. -/
def offset (text : String) : Except Complaint Imm12 := if text.isEmpty then .ok .zero else immediate text

/-- A memory operand: an offset and a base in parentheses. -/
def memory (text : String) : Except Complaint (Imm12 × Reg) := do
  let some (front, base) := (Text.dropLast? ')' text.toList).bind (Text.cut? '(')
    | .error (.badMemoryOperand text)
  let offset ← offset (String.ofList (Text.trim front))
  let base ← general (String.ofList (Text.trim base))
  return (offset, base)

/-- A rounding mode, the one set at run time if there is none. -/
def rounding : Option String → Except Complaint Rounding
  | none => .ok .dyn
  | some text =>
    match Rounding.ofMnemonic? text with
    | some mode => .ok mode
    | none => .error (.badRounding text)

end RegisterAllocator.Source
