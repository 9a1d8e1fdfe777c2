import RegisterAllocator.Inst.Printer
import RegisterAllocator.Proofs.Literals
import RegisterAllocator.Proofs.Outcome
import RegisterAllocator.Proofs.WrittenLines
import RegisterAllocator.Source.Outline
import RegisterAllocator.Source.Operand

/-!
# Operands that are written

Numerals, registers and memory operands are read back from their text: `literal_toString`, `immediate_text`,
`register_name`, `memory_text`. Their texts are operands of a line.
-/

namespace RegisterAllocator

open Source Text

/-! ## Numerals -/

namespace Numeral

theorem isLabelChar_of_isDigit {c : Char} (digit : c.isDigit = true) : isLabelChar c = true := by
  rw [isLabelChar, Char.isAlphanum, digit, Bool.or_true, Bool.true_or, Bool.true_or]

theorem decimal?_toDigits (n : Nat) : decimal? (Nat.toDigits 10 n) = some n :=
  decimal?_eq_some_iff.mpr (denotes_toDigits n)

theorem int64?_toString {value : Int} (least : -2 ^ 63 ≤ value) (most : value < 2 ^ 63) :
    int64? (toString value).toList = some (Int64.ofInt value) := by
  rw [int64?_eq_some_iff, Int64.toInt_ofInt_of_le least most]
  exact literal_decimal value

theorem word_toString (n : Nat) : Word (toString n) := by
  rw [Nat.toString_eq_ofList_toDigits]
  refine ⟨fun empty => ?_, fun c member => ?_⟩
  · exact Nat.toDigits_ne_nil (String.ofList_eq_empty_iff.mp empty)
  · rw [String.toList_ofList] at member
    exact isLabelChar_of_isDigit (isDigit_toDigits n c member)

theorem isLabelChar_toString (value : Int) : ∀ c ∈ (toString value).toList, isLabelChar c = true ∨ c = '-' := by
  intro c member
  cases value with
  | ofNat n => exact .inl ((word_toString n).chars c member)
  | negSucc n =>
    have text : toString (Int.negSucc n) = "-" ++ toString (n + 1) := rfl
    rw [text, String.toList_append, List.mem_append] at member
    rcases member with sign | member
    · exact .inr (by simpa using sign)
    · exact .inl ((word_toString (n + 1)).chars c member)

theorem isOperandChar_toString (value : Int) : ∀ c ∈ (toString value).toList, isOperandChar c = true := by
  intro c member
  rcases isLabelChar_toString value c member with inLabel | rfl
  · rw [isOperandChar, inLabel, Bool.true_or]
  · decide

theorem operand_toString (value : Int) : Operand (toString value) := operand_of_chars (isOperandChar_toString value)

end Numeral

open Numeral

/-! ## Registers -/

/-- Whether a register has a name: a physical register has one if its number is one of its file. -/
def Reg.Named : Reg → Prop
  | phys r => r.number.toNat < 32
  | virt _ => True

theorem PhysReg.ofName?_name_all : ∀ number : Fin 32, ∀ file ∈ [RegFile.general, .float],
    Reg.ofName? (PhysReg.name ⟨number.val.toUInt8, file⟩) = some (.phys ⟨number.val.toUInt8, file⟩) ∧
      Word (PhysReg.name ⟨number.val.toUInt8, file⟩) := by
  decide +kernel

theorem PhysReg.eq_ofNat (r : PhysReg) : r = ⟨r.number.toNat.toUInt8, r.file⟩ := by
  simp

theorem PhysReg.ofName?_name {r : PhysReg} (bound : r.number.toNat < 32) :
    Reg.ofName? r.name = some (.phys r) ∧ Word r.name := by
  rw [r.eq_ofNat]
  exact ofName?_name_all ⟨r.number.toNat, bound⟩ r.file (by cases r.file <;> decide)

theorem VirtReg.toList_name (r : VirtReg) :
    r.name.toList = (sign r.file).toList ++ Nat.toDigits 10 r.number.toNat := by
  rw [name, String.toList_append, Nat.toString_eq_ofList_toDigits, String.toList_ofList]

theorem VirtReg.ofName?_name (r : VirtReg) : ofName? r.name = some r := by
  obtain ⟨number, file⟩ := r
  have read : numbered? file (Nat.toDigits 10 number.toNat) = some ⟨number, file⟩ := by
    rw [numbered?, decimal?_toDigits]
    simp [number.toNat_lt]
  cases file with
  | general =>
    have chars : (name ⟨number, .general⟩).toList = '$' :: 'r' :: Nat.toDigits 10 number.toNat := by
      simp [toList_name, sign]
    rw [ofName?, chars]
    exact read
  | float =>
    have chars : (name ⟨number, .float⟩).toList = '$' :: 'f' :: Nat.toDigits 10 number.toNat := by
      simp [toList_name, sign]
    rw [ofName?, chars]
    exact read

namespace Reg

variable {reg : Reg}

theorem ofName?_name (named : reg.Named) : ofName? reg.name = some reg := by
  cases reg with
  | phys r => exact (PhysReg.ofName?_name named).1
  | virt r =>
    rw [Reg.name, Reg.ofName?, VirtReg.ofName?_name]
    rfl

theorem isOperandChar_name (named : reg.Named) : ∀ c ∈ reg.name.toList, isOperandChar c = true := by
  intro c member
  cases reg with
  | phys r => rw [isOperandChar, (PhysReg.ofName?_name named).2.chars c member, Bool.true_or]
  | virt r =>
    rw [Reg.name, VirtReg.toList_name, List.mem_append] at member
    rcases member with sign | member
    · have signs : (VirtReg.sign r.file).toList.all isOperandChar = true := by cases r.file <;> decide
      exact List.all_eq_true.mp signs c sign
    · rw [isOperandChar, isLabelChar_of_isDigit (isDigit_toDigits _ c member), Bool.true_or]

theorem operand_name (named : reg.Named) : Operand reg.name := operand_of_chars (isOperandChar_name named)

theorem leads_name (named : reg.Named) : Leads reg.name := by
  have colon : ':' ∉ reg.name.toList := fun member => absurd (isOperandChar_name named _ member) (by decide)
  refine ⟨fun empty => ?_, fun start => colon (List.mem_of_head? start)⟩
  have read := ofName?_name named
  have nameless : ofName? "" = none := by decide
  rw [empty, nameless] at read
  cases read

end Reg

namespace Source

variable {reg : Reg} {file : RegFile}

theorem register_name (named : reg.Named) (inFile : reg.file = file) : register file reg.name = .ok reg := by
  rw [register, Reg.ofName?_name named]
  exact if_pos inFile

theorem literal_toString (value : Int64) : literal (toString value.toInt) = .ok value := by
  rw [literal, int64?_toString value.le_toInt value.toInt_lt, Int64.ofInt_toInt]

theorem immediate_text (value : Imm12) : immediate value.text = .ok value := by
  have least : -2048 ≤ value.toInt := value.bits.le_toInt
  have most : value.toInt < 2048 := value.bits.toInt_lt
  have kept : Imm12.ofInt? value.toInt = some value := by
    rw [Imm12.ofInt?, if_pos ⟨least, by omega⟩, Imm12.toInt, BitVec.ofInt_toInt]
  rw [immediate, Imm12.text, int64?_toString (by omega) (by omega), Option.bind_some,
    Int64.toInt_ofInt_of_le (by omega) (by omega), kept]

theorem offset_text (value : Imm12) : offset value.text = .ok value := by
  have read := immediate_text value
  rw [offset]
  split
  · next empty =>
    rw [String.isEmpty_iff.mp empty] at read
    cases read
  · exact read

/-- A memory operand is taken apart at its first parenthesis, which the offset does not have. -/
theorem memory_text {offset : Imm12} (named : reg.Named) (inFile : reg.file = .general) :
    memory (Inst.memory offset reg) = .ok (offset, reg) := by
  have front : Operand offset.text := operand_toString _
  have base : Operand reg.name := Reg.operand_name named
  have parenthesis : '(' ∉ offset.text.toList := by
    intro member
    rcases isLabelChar_toString _ _ member with inLabel | same
    · exact absurd inLabel (by decide)
    · exact absurd same (by decide)
  have shape : (Inst.memory offset reg).toList = (offset.text.toList ++ '(' :: reg.name.toList) ++ [')'] := by
    simp [Inst.memory]
  have inner : dropLast? ')' (Inst.memory offset reg).toList = some (offset.text.toList ++ '(' :: reg.name.toList) := by
    rw [dropLast?, shape, List.getLast?_concat, if_pos rfl, List.dropLast_concat]
  have parts : (dropLast? ')' (Inst.memory offset reg).toList).bind (cut? '(') =
      some (offset.text.toList, reg.name.toList) := by
    rw [inner, Option.bind_some, cut?_at parenthesis]
  simp only [memory, parts, front.trimmed.trim_eq, base.trimmed.trim_eq, String.ofList_toList, offset_text,
    general, register_name named inFile, ok_bind]
  rfl

theorem operand_memory {offset : Imm12} (named : reg.Named) : Operand (Inst.memory offset reg) := by
  apply operand_of_chars
  intro c member
  simp only [Inst.memory, String.toList_append, List.mem_append] at member
  rcases member with ((inOffset | sign) | inBase) | sign
  · exact isOperandChar_toString _ c inOffset
  · exact List.all_eq_true.mp (by decide : "(".toList.all isOperandChar = true) c sign
  · exact Reg.isOperandChar_name named c inBase
  · exact List.all_eq_true.mp (by decide : ")".toList.all isOperandChar = true) c sign

theorem frameSize_toString {frame : UInt64} (bound : frame.toNat < 2 ^ 63) :
    Outline.frameSize (toString frame.toNat) = .ok frame := by
  have read : int64? (toString frame.toNat).toList = some (Int64.ofInt frame.toNat) := by
    have text : toString frame.toNat = toString (frame.toNat : Int) := rfl
    rw [text, int64?_toString (by omega) (by omega)]
  have nonnegative : 0 ≤ Int64.ofInt frame.toNat := by
    rw [Int64.le_iff_toInt_le, Int64.toInt_ofInt_of_le (by omega) (by omega)]
    exact Int.natCast_nonneg _
  have kept : (Int64.ofInt frame.toNat).toUInt64 = frame := by
    apply UInt64.toBitVec_inj.mp
    simp [Int64.ofInt]
  rw [Outline.frameSize, read]
  simp only [nonnegative, if_true, kept]

end Source

end RegisterAllocator
