import Mathlib.Data.List.Nodup
import RegisterAllocator.Proofs.Operands
import RegisterAllocator.Proofs.WrittenOperands

/-!
# Instructions that are written

The text of an instruction is its mnemonic and its operands (`Inst.text_eq`). No mnemonic is in two tables, so an
instruction is read back from its text (`Source.readInst_draftOf`), except that calls and returns lose their register
lists.
-/

namespace RegisterAllocator

def Rounding.operands : Rounding → List String
  | rne => ["rne"]
  | rtz => ["rtz"]
  | rdn => ["rdn"]
  | rup => ["rup"]
  | rmm => ["rmm"]
  | dyn => []

theorem BinaryOp.mem_all (op : BinaryOp) : op ∈ all := by cases op <;> decide

theorem ImmediateOp.mem_all (op : ImmediateOp) : op ∈ all := by cases op <;> decide

theorem UnaryOp.mem_all (op : UnaryOp) : op ∈ all := by cases op <;> decide

theorem FloatUnaryOp.mem_all (op : FloatUnaryOp) : op ∈ all := by cases op <;> decide

theorem FloatBinaryOp.mem_all (op : FloatBinaryOp) : op ∈ all := by cases op <;> decide

theorem FusedOp.mem_all (op : FusedOp) : op ∈ all := by cases op <;> decide

theorem LoadOp.mem_all (op : LoadOp) : op ∈ all := by cases op <;> decide

theorem StoreOp.mem_all (op : StoreOp) : op ∈ all := by cases op <;> decide

theorem BranchOp.mem_all (op : BranchOp) : op ∈ all := by cases op <;> decide

namespace Inst

def mnemonic {τ : Type} : Inst τ → String
  | li .. => "li"
  | la .. => "la"
  | unary op .. => op.mnemonic
  | immediate op .. => op.mnemonic
  | binary op .. => op.mnemonic
  | floatUnary op .. => op.mnemonic
  | floatBinary op .. => op.mnemonic
  | fused op .. => op.mnemonic
  | load op .. => op.mnemonic
  | store op .. => op.mnemonic
  | jump _ => "j"
  | branch op .. => op.mnemonic
  | call .. => "call"
  | ret _ => "ret"

def operandTexts : Inst String → List String
  | li rd value => [rd.name, toString value.toInt]
  | la rd symbol => [rd.name, symbol]
  | unary _ rd rs => [rd.name, rs.name]
  | immediate _ rd rs value => [rd.name, rs.name, value.text]
  | binary _ rd rs1 rs2 => [rd.name, rs1.name, rs2.name]
  | floatUnary _ mode rd rs => rd.name :: rs.name :: mode.operands
  | floatBinary _ mode rd rs1 rs2 => rd.name :: rs1.name :: rs2.name :: mode.operands
  | fused _ mode rd rs1 rs2 rs3 => rd.name :: rs1.name :: rs2.name :: rs3.name :: mode.operands
  | load _ rd base offset => [rd.name, memory offset base]
  | store _ source base offset => [source.name, memory offset base]
  | jump target => [target]
  | branch _ rs1 rs2 target => [rs1.name, rs2.name, target]
  | call symbol _ => [symbol]
  | ret _ => []

/-- The instruction without the register lists that are not written. -/
def unlisted {τ : Type} : Inst τ → Inst τ
  | call symbol _ => call symbol []
  | ret _ => ret []
  | other => other

theorem text_eq {inst : Inst String} {first : String} {others : List String}
    (shape : inst.operandTexts = first :: others) :
    inst.text = inst.mnemonic ++ " " ++ ", ".intercalate (first :: others) := by
  rw [← shape, ← String.toList_inj]
  cases inst with
  | floatUnary op mode | floatBinary op mode | fused op mode =>
    cases mode <;> simp [text, operands, mnemonic, operandTexts, Rounding.suffix, Rounding.operands]
  | ret => cases shape
  | _ => simp [text, operands, mnemonic, operandTexts]

end Inst

namespace Source

open Numeral (operand_toString)

/-- The mnemonics that are no opcodes. -/
def shorthands : List String :=
  ["li", "la", "mv", "not", "neg", "negw", "seqz", "snez", "nop", "fmv.s", "fmv.d", "fneg.s", "fneg.d", "fabs.s",
    "fabs.d", "j", "beqz", "bnez", "bgt", "ble", "bgtu", "bleu", "call", "ret"]

/-- All mnemonics, in the order in which they are looked up. -/
def mnemonicTables : List (List String) :=
  [shorthands, BinaryOp.all.map BinaryOp.mnemonic, ImmediateOp.all.map ImmediateOp.mnemonic,
    UnaryOp.all.map UnaryOp.mnemonic, FloatUnaryOp.all.map FloatUnaryOp.mnemonic,
    FloatBinaryOp.all.map FloatBinaryOp.mnemonic, FusedOp.all.map FusedOp.mnemonic, LoadOp.all.map LoadOp.mnemonic,
    StoreOp.all.map StoreOp.mnemonic, BranchOp.all.map BranchOp.mnemonic]

theorem mnemonicTables_nodup : mnemonicTables.flatten.Nodup := by decide +kernel

theorem mnemonicTables_words :
    ∀ name ∈ mnemonicTables.flatten, Word name ∧ name.toList.head? ≠ some '.' := by decide +kernel

theorem not_mem_earlier {place : Nat} {table : List String} {name : String}
    (found : mnemonicTables[place]? = some table) (member : name ∈ table) :
    ∀ other ∈ mnemonicTables.take place, name ∉ other := by
  intro other inEarlier inOther
  obtain ⟨k, bound, rfl⟩ := List.mem_take_iff_getElem.mp inEarlier
  obtain ⟨inside, rfl⟩ := List.getElem?_eq_some_iff.mp found
  have disjoint := List.pairwise_iff_getElem.mp (List.nodup_flatten.mp mnemonicTables_nodup).2
  exact disjoint k place (by omega) inside (by omega) inOther member

theorem table_nodup {table : List String} (member : table ∈ mnemonicTables) : table.Nodup :=
  (List.nodup_flatten.mp mnemonicTables_nodup).1 table member

section Lookup

variable {α : Type} {all : List α} {mnemonic : α → String}

theorem find?_mnemonic (nodup : (all.map mnemonic).Nodup) {op : α} (member : op ∈ all) :
    all.find? (mnemonic · == mnemonic op) = some op := by
  induction all with
  | nil => cases member
  | cons first rest ih =>
    obtain ⟨absent, nodup⟩ := List.nodup_cons.mp nodup
    rcases List.mem_cons.mp member with rfl | later
    · exact List.find?_cons_of_pos (by simp)
    · have differs : mnemonic first ≠ mnemonic op := fun same => absent (same ▸ List.mem_map_of_mem later)
      rw [List.find?_cons_of_neg (by simpa using differs), ih nodup later]

theorem find?_mnemonic_eq_none {name : String} (absent : name ∉ all.map mnemonic) :
    all.find? (mnemonic · == name) = none := by
  rw [List.find?_eq_none]
  intro op member same
  exact absent (by rw [← beq_iff_eq.mp same]; exact List.mem_map_of_mem member)

theorem foldr_orElse {options : List (Option α)} {place : Nat} {a : α}
    (before : ∀ option ∈ options.take place, option = none) (here : options[place]? = some (some a)) :
    options.foldr (· <|> ·) none = some a := by
  induction options generalizing place with
  | nil => cases here
  | cons option rest ih =>
    cases place with
    | zero =>
      cases here
      rfl
    | succ place =>
      rw [before option List.mem_cons_self, List.foldr_cons]
      exact ih (fun other member => before other (List.mem_cons_of_mem _ member)) here

end Lookup

variable {draft : DraftInst}

theorem readShorthand?_eq_none (other : draft.mnemonic ∉ shorthands) : readShorthand? draft = none := by
  unfold readShorthand?
  split
  all_goals first
    | rfl
    | next named => exact absurd other (by rw [named]; decide)

/-- The ways to read an instruction, one for each table of mnemonics. -/
def readers (draft : DraftInst) : List (Option ReadInst) :=
  [readShorthand? draft,
    (BinaryOp.ofMnemonic? draft.mnemonic).map fun op => three draft fun rd rs1 rs2 =>
      return .binary op (← general rd) (← general rs1) (← general rs2),
    (ImmediateOp.ofMnemonic? draft.mnemonic).map fun op => three draft fun rd rs value =>
      return .immediate op (← general rd) (← general rs) (← immediate value),
    (UnaryOp.ofMnemonic? draft.mnemonic).map fun op => two draft fun rd rs =>
      return .unary op (← general rd) (← general rs),
    (FloatUnaryOp.ofMnemonic? draft.mnemonic).map (readFloatUnary draft),
    (FloatBinaryOp.ofMnemonic? draft.mnemonic).map (readFloatBinary draft),
    (FusedOp.ofMnemonic? draft.mnemonic).map (readFused draft),
    (LoadOp.ofMnemonic? draft.mnemonic).map fun op => two draft fun rd place => do
      let rd ← register op.file rd
      let (offset, base) ← memory place
      return .load op rd base offset,
    (StoreOp.ofMnemonic? draft.mnemonic).map fun op => two draft fun source place => do
      let source ← register op.file source
      let (offset, base) ← memory place
      return .store op source base offset,
    (BranchOp.ofMnemonic? draft.mnemonic).map fun op => three draft fun rs1 rs2 target =>
      return .branch op (← general rs1) (← general rs2) target]

theorem readInst_eq : readInst draft =
    ((readers draft).foldr (· <|> ·) none).getD (.error (.unknownMnemonic draft.mnemonic)) := by
  simp only [readInst, readOpcode?, readers, List.foldr, Option.orElse_eq_orElse, Option.orElse_eq_or, Option.or_none]

theorem readers_pass (draft : DraftInst) :
    List.Forall₂ (fun table reader => draft.mnemonic ∉ table → reader = none) mnemonicTables (readers draft) := by
  refine .cons readShorthand?_eq_none ?_
  iterate 9 refine .cons (fun absent => Option.map_eq_none_iff.mpr (find?_mnemonic_eq_none absent)) ?_
  exact .nil

theorem readInst_at (place : Nat) {table : List String} {read : ReadInst}
    (found : mnemonicTables[place]? = some table) (member : draft.mnemonic ∈ table)
    (reader : (readers draft)[place]? = some (some read)) : readInst draft = read := by
  have before : ∀ option ∈ (readers draft).take place, option = none := by
    intro option inEarlier
    have passed := List.forall₂_take place (readers_pass draft)
    obtain ⟨other, member', pass⟩ := forall₂_mem_right passed inEarlier
    exact pass (not_mem_earlier found member other member')
  rw [readInst_eq, foldr_orElse before reader, Option.getD_some]

theorem readInst_opcode {α : Type} {all : List α} {mnemonic : α → String} (place : Nat) {reader : α → ReadInst}
    (found : mnemonicTables[place]? = some (all.map mnemonic)) {op : α} (member : op ∈ all)
    (named : draft.mnemonic = mnemonic op)
    (asked : (readers draft)[place]? = some ((all.find? (mnemonic · == draft.mnemonic)).map reader)) :
    readInst draft = reader op := by
  refine readInst_at place found (by rw [named]; exact List.mem_map_of_mem member) ?_
  rw [asked, named, find?_mnemonic (table_nodup (List.mem_of_getElem? found)) member, Option.map_some]

/-! ## Instructions -/

def draftOf (inst : Inst String) (line : Nat) : DraftInst :=
  { mnemonic := inst.mnemonic, operands := inst.operandTexts, line }

/-- An instruction is read back from its mnemonic and the texts of its operands. -/
theorem readInst_draftOf {inst : Inst String} {Q : String → Prop} (line : Nat)
    (made : inst.Made (fun file reg => reg.Named ∧ reg.file = file) Q) :
    readInst (draftOf inst line) = .ok inst.unlisted := by
  have reg {file : RegFile} {reg : Reg} (known : reg.Named ∧ reg.file = file) : register file reg.name = .ok reg :=
    register_name known.1 known.2
  cases inst with
  | li rd value =>
    refine (readInst_at 0 rfl (by decide : "li" ∈ shorthands) rfl).trans ?_
    simp only [two, draftOf, Inst.operandTexts, general, reg made, literal_toString, ok_bind]
    rfl
  | la rd symbol =>
    refine (readInst_at 0 rfl (by decide : "la" ∈ shorthands) rfl).trans ?_
    simp only [two, draftOf, Inst.operandTexts, general, reg made.1, ok_bind]
    rfl
  | unary op rd rs =>
    rw [readInst_opcode 3 rfl op.mem_all rfl rfl]
    simp only [two, draftOf, Inst.operandTexts, general, reg made.1, reg made.2, ok_bind]
    rfl
  | immediate op rd rs value =>
    rw [readInst_opcode 2 rfl op.mem_all rfl rfl]
    simp only [three, draftOf, Inst.operandTexts, general, reg made.1, reg made.2, immediate_text, ok_bind]
    rfl
  | binary op rd rs1 rs2 =>
    rw [readInst_opcode 1 rfl op.mem_all rfl rfl]
    simp only [three, draftOf, Inst.operandTexts, general, reg made.1, reg made.2.1, reg made.2.2, ok_bind]
    rfl
  | floatUnary op mode rd rs =>
    rw [readInst_opcode 4 rfl op.mem_all rfl rfl]
    have read (mode : Option String) : readFloatUnary.read op rd.name rs.name mode =
        return .floatUnary op (← rounding mode) rd rs := by
      simp only [readFloatUnary.read, reg made.1, reg made.2, ok_bind]
    cases mode <;> exact read _
  | floatBinary op mode rd rs1 rs2 =>
    rw [readInst_opcode 5 rfl op.mem_all rfl rfl]
    have read (mode : Option String) : readFloatBinary.read op rd.name rs1.name rs2.name mode =
        return .floatBinary op (← rounding mode) rd rs1 rs2 := by
      simp only [readFloatBinary.read, float, reg made.1, reg made.2.1, reg made.2.2, ok_bind]
    cases mode <;> exact read _
  | fused op mode rd rs1 rs2 rs3 =>
    rw [readInst_opcode 6 rfl op.mem_all rfl rfl]
    obtain ⟨first, second, third, fourth⟩ := made
    have read (mode : Option String) : readFused.read op rd.name rs1.name rs2.name rs3.name mode =
        return .fused op (← rounding mode) rd rs1 rs2 rs3 := by
      simp only [readFused.read, float, reg first, reg second, reg third, reg fourth, ok_bind]
    cases mode <;> exact read _
  | load op rd base offset =>
    rw [readInst_opcode 7 rfl op.mem_all rfl rfl]
    simp only [two, draftOf, Inst.operandTexts, reg made.1, memory_text made.2.1 made.2.2, ok_bind]
    rfl
  | store op source base offset =>
    rw [readInst_opcode 8 rfl op.mem_all rfl rfl]
    simp only [two, draftOf, Inst.operandTexts, reg made.1, memory_text made.2.1 made.2.2, ok_bind]
    rfl
  | jump target => exact readInst_at 0 rfl (by decide : "j" ∈ shorthands) rfl
  | branch op rs1 rs2 target =>
    rw [readInst_opcode 9 rfl op.mem_all rfl rfl]
    simp only [three, draftOf, Inst.operandTexts, general, reg made.1, reg made.2.1, ok_bind]
    rfl
  | call symbol arguments => exact readInst_at 0 rfl (by decide : "call" ∈ shorthands) rfl
  | ret results => exact readInst_at 0 rfl (by decide : "ret" ∈ shorthands) rfl

/-- An instruction whose text a line can hold: the symbol or target that it starts with must not be taken for the end
of a label. -/
structure Written (inst : Inst String) : Prop where
  made : inst.Made (fun file reg => reg.Named ∧ reg.file = file) Operand
  leads : ∀ first ∈ inst.operandTexts.head?, Leads first

variable {inst : Inst String}

theorem operand_rounding (mode : Rounding) : ∀ operand ∈ mode.operands, Operand operand := by
  have words : ∀ operand ∈ mode.operands, Word operand := by cases mode <;> decide
  exact fun operand member => (words operand member).operand

theorem Written.operands (written : Written inst) : ∀ operand ∈ inst.operandTexts, Operand operand := by
  have made := written.made
  have reg {file : RegFile} {reg : Reg} (known : reg.Named ∧ reg.file = file) : Operand reg.name :=
    Reg.operand_name known.1
  cases inst with
  | li rd value => exact List.forall_mem_cons.mpr ⟨reg made, List.forall_mem_singleton.mpr (operand_toString _)⟩
  | la rd symbol => exact List.forall_mem_cons.mpr ⟨reg made.1, List.forall_mem_singleton.mpr made.2⟩
  | immediate op rd rs value =>
    have text : Operand value.text := operand_toString _
    simp [Inst.operandTexts, reg made.1, reg made.2, text]
  | unary op rd rs => simp [Inst.operandTexts, reg made.1, reg made.2]
  | binary op rd rs1 rs2 => simp [Inst.operandTexts, reg made.1, reg made.2.1, reg made.2.2]
  | floatUnary op mode rd rs => simpa [Inst.operandTexts, reg made.1, reg made.2] using operand_rounding mode
  | floatBinary op mode rd rs1 rs2 =>
    simpa [Inst.operandTexts, reg made.1, reg made.2.1, reg made.2.2] using operand_rounding mode
  | fused op mode rd rs1 rs2 rs3 =>
    obtain ⟨first, second, third, fourth⟩ := made
    simpa [Inst.operandTexts, reg first, reg second, reg third, reg fourth] using operand_rounding mode
  | load op rd base offset | store op rd base offset =>
    simp [Inst.operandTexts, reg made.1, operand_memory made.2.1]
  | branch op rs1 rs2 target => simp [Inst.operandTexts, reg made.1, reg made.2.1, made.2.2]
  | jump target | call symbol arguments => exact List.forall_mem_singleton.mpr made
  | ret results => exact List.forall_mem_nil _

theorem mnemonic_mem (inst : Inst String) : inst.mnemonic ∈ mnemonicTables.flatten := by
  have opcode {α : Type} {all : List α} {mnemonic : α → String} (place : Nat)
      (found : mnemonicTables[place]? = some (all.map mnemonic)) {op : α} (member : op ∈ all) :
      mnemonic op ∈ mnemonicTables.flatten :=
    List.mem_flatten.mpr ⟨_, List.mem_of_getElem? found, List.mem_map_of_mem member⟩
  have shorthand {name : String} (member : name ∈ shorthands) : name ∈ mnemonicTables.flatten :=
    List.mem_flatten.mpr ⟨_, List.mem_cons_self, member⟩
  cases inst with
  | binary op => exact opcode 1 rfl op.mem_all
  | immediate op => exact opcode 2 rfl op.mem_all
  | unary op => exact opcode 3 rfl op.mem_all
  | floatUnary op => exact opcode 4 rfl op.mem_all
  | floatBinary op => exact opcode 5 rfl op.mem_all
  | fused op => exact opcode 6 rfl op.mem_all
  | load op => exact opcode 7 rfl op.mem_all
  | store op => exact opcode 8 rfl op.mem_all
  | branch op => exact opcode 9 rfl op.mem_all
  | li => exact shorthand (by decide : "li" ∈ shorthands)
  | la => exact shorthand (by decide : "la" ∈ shorthands)
  | jump => exact shorthand (by decide : "j" ∈ shorthands)
  | call => exact shorthand (by decide : "call" ∈ shorthands)
  | ret => exact shorthand (by decide : "ret" ∈ shorthands)

theorem Written.ofText (written : Written inst) : Line.ofText inst.text.toList =
    { label? := none, statement := .instruction inst.mnemonic inst.operandTexts } := by
  obtain ⟨isWord, named⟩ := mnemonicTables_words _ (mnemonic_mem inst)
  have operands := written.operands
  have leads := written.leads
  cases shape : inst.operandTexts with
  | nil =>
    cases inst with
    | ret results =>
      exact (by decide : Line.ofText "ret".toList = { label? := none, statement := .instruction "ret" [] })
    | _ => cases shape
  | cons first others =>
    rw [shape] at operands leads
    rw [Inst.text_eq shape, ofText_instruction isWord named (leads first rfl) operands]

theorem Written.unbroken (written : Written inst) : Unbroken inst.text := by
  obtain ⟨isWord, -⟩ := mnemonicTables_words _ (mnemonic_mem inst)
  cases shape : inst.operandTexts with
  | nil =>
    cases inst with
    | ret results => exact isWord.operand.unbroken
    | _ => cases shape
  | cons first others =>
    have blank : Unbroken " " := ⟨by decide, by decide⟩
    rw [Inst.text_eq shape, ← shape]
    exact (isWord.operand.unbroken.append blank).append
      (unbroken_intercalate fun operand member => (written.operands operand member).unbroken)

end Source

end RegisterAllocator
