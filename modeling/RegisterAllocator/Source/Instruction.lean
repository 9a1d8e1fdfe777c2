import RegisterAllocator.Inst.Basic
import RegisterAllocator.Source.Operand
import RegisterAllocator.Source.Outline

/-!
# Instructions of source text

An instruction is named by its opcode or by one of the shorthands. Operands are counted first and then read; the first
that cannot be read is the error of the line. Branches name labels, which are looked up last.
-/

namespace RegisterAllocator.Source

abbrev ReadInst := Except Complaint (Inst String)

def one (draft : DraftInst) (read : String → ReadInst) : ReadInst :=
  match draft.operands with
  | [a] => read a
  | operands => .error (.operandCount draft.mnemonic 1 operands.length)

def two (draft : DraftInst) (read : String → String → ReadInst) : ReadInst :=
  match draft.operands with
  | [a, b] => read a b
  | operands => .error (.operandCount draft.mnemonic 2 operands.length)

def three (draft : DraftInst) (read : String → String → String → ReadInst) : ReadInst :=
  match draft.operands with
  | [a, b, c] => read a b c
  | operands => .error (.operandCount draft.mnemonic 3 operands.length)

def notBetween (draft : DraftInst) (least most : Nat) : ReadInst :=
  let found := draft.operands.length
  .error (.operandCount draft.mnemonic (if found < least then least else most) found)

/-- The instructions with a shorter name for a common use, and those that no opcode table names. -/
def readShorthand? (draft : DraftInst) : Option ReadInst :=
  match draft.mnemonic with
  | "li" => some <| two draft fun rd value => return .li (← general rd) (← literal value)
  | "la" => some <| two draft fun rd symbol => return .la (← general rd) symbol
  | "mv" => some <| two draft fun rd rs => return .immediate .addi (← general rd) (← general rs) .zero
  | "not" => some <| two draft fun rd rs => return .immediate .xori (← general rd) (← general rs) ⟨-1⟩
  | "neg" => some <| two draft fun rd rs => return .binary .sub (← general rd) PhysReg.zero (← general rs)
  | "negw" => some <| two draft fun rd rs => return .binary .subw (← general rd) PhysReg.zero (← general rs)
  | "seqz" => some <| two draft fun rd rs => return .immediate .sltiu (← general rd) (← general rs) ⟨1⟩
  | "snez" => some <| two draft fun rd rs => return .binary .sltu (← general rd) PhysReg.zero (← general rs)
  | "nop" => some <|
    match draft.operands with
    | [] => .ok (.immediate .addi PhysReg.zero PhysReg.zero .zero)
    | operands => .error (.operandCount draft.mnemonic 0 operands.length)
  | "fmv.s" => some (inject .fsgnjS)
  | "fmv.d" => some (inject .fsgnjD)
  | "fneg.s" => some (inject .fsgnjnS)
  | "fneg.d" => some (inject .fsgnjnD)
  | "fabs.s" => some (inject .fsgnjxS)
  | "fabs.d" => some (inject .fsgnjxD)
  | "j" => some <| one draft fun target => .ok (.jump target)
  | "beqz" => some <| two draft fun rs target => return .branch .beq (← general rs) PhysReg.zero target
  | "bnez" => some <| two draft fun rs target => return .branch .bne (← general rs) PhysReg.zero target
  | "bgt" => some (swapped .blt)
  | "ble" => some (swapped .bge)
  | "bgtu" => some (swapped .bltu)
  | "bleu" => some (swapped .bgeu)
  | "call" => some <|
    match draft.operands with
    | [] => .error (.operandCount draft.mnemonic 1 0)
    | symbol :: arguments => return .call symbol (← physicals arguments)
  | "ret" => some do return .ret (← physicals draft.operands)
  | _ => none
where
  /-- A sign operation of a register with itself; the source is read first. -/
  inject (op : FloatBinaryOp) : ReadInst := two draft fun rd rs => do
    let source ← float rs
    return .floatBinary op .dyn (← float rd) source source
  /-- A branch with its operands exchanged. -/
  swapped (op : BranchOp) : ReadInst := three draft fun left right target =>
    return .branch op (← general right) (← general left) target

def readFloatUnary (draft : DraftInst) (op : FloatUnaryOp) : ReadInst :=
  match draft.operands with
  | [rd, rs] => read rd rs none
  | [rd, rs, mode] => read rd rs (some mode)
  | _ => notBetween draft 2 3
where
  read (rd rs : String) (mode : Option String) : ReadInst := do
    let rd ← register op.files.1 rd
    let rs ← register op.files.2 rs
    return .floatUnary op (← rounding mode) rd rs

def readFloatBinary (draft : DraftInst) (op : FloatBinaryOp) : ReadInst :=
  match draft.operands with
  | [rd, rs1, rs2] => read rd rs1 rs2 none
  | [rd, rs1, rs2, mode] => read rd rs1 rs2 (some mode)
  | _ => notBetween draft 3 4
where
  read (rd rs1 rs2 : String) (mode : Option String) : ReadInst := do
    let rd ← register op.file rd
    let rs1 ← float rs1
    let rs2 ← float rs2
    return .floatBinary op (← rounding mode) rd rs1 rs2

def readFused (draft : DraftInst) (op : FusedOp) : ReadInst :=
  match draft.operands with
  | [rd, rs1, rs2, rs3] => read rd rs1 rs2 rs3 none
  | [rd, rs1, rs2, rs3, mode] => read rd rs1 rs2 rs3 (some mode)
  | _ => notBetween draft 4 5
where
  read (rd rs1 rs2 rs3 : String) (mode : Option String) : ReadInst := do
    let rd ← float rd
    let rs1 ← float rs1
    let rs2 ← float rs2
    let rs3 ← float rs3
    return .fused op (← rounding mode) rd rs1 rs2 rs3

def readOpcode? (draft : DraftInst) : Option ReadInst :=
  let mnemonic := draft.mnemonic
  (BinaryOp.ofMnemonic? mnemonic).map (fun op => three draft fun rd rs1 rs2 =>
    return .binary op (← general rd) (← general rs1) (← general rs2)) <|>
  (ImmediateOp.ofMnemonic? mnemonic).map (fun op => three draft fun rd rs value =>
    return .immediate op (← general rd) (← general rs) (← immediate value)) <|>
  (UnaryOp.ofMnemonic? mnemonic).map (fun op => two draft fun rd rs =>
    return .unary op (← general rd) (← general rs)) <|>
  (FloatUnaryOp.ofMnemonic? mnemonic).map (readFloatUnary draft) <|>
  (FloatBinaryOp.ofMnemonic? mnemonic).map (readFloatBinary draft) <|>
  (FusedOp.ofMnemonic? mnemonic).map (readFused draft) <|>
  (LoadOp.ofMnemonic? mnemonic).map (fun op => two draft fun rd place => do
    let rd ← register op.file rd
    let (offset, base) ← memory place
    return .load op rd base offset) <|>
  (StoreOp.ofMnemonic? mnemonic).map (fun op => two draft fun source place => do
    let source ← register op.file source
    let (offset, base) ← memory place
    return .store op source base offset) <|>
  (BranchOp.ofMnemonic? mnemonic).map (fun op => three draft fun rs1 rs2 target =>
    return .branch op (← general rs1) (← general rs2) target)

def readInst (draft : DraftInst) : ReadInst :=
  (readShorthand? draft <|> readOpcode? draft).getD (.error (.unknownMnemonic draft.mnemonic))

def findLabel (labels : List String) (label : String) : Except Complaint Nat :=
  match labels.idxOf? label with
  | some position => .ok position
  | none => .error (.unknownLabel label)

end RegisterAllocator.Source
