import RegisterAllocator.Proofs.Outcome
import RegisterAllocator.Proofs.Splitting
import RegisterAllocator.Source.Reader

/-!
# Instructions and the lines they are written on

What becomes of an instruction with its operands in text (`Source.readInst_yields`). One that can be read is made of the
registers that the operands name, branches to the label in its last operand, and lists the registers of a call or a
return in order. Otherwise the complaint quotes the mnemonic or a part of an operand.
-/

namespace RegisterAllocator

open Text (trim dropLast? trim_isInfix cut?_eq_some)

/-- What a computation may end with: a value that is `good` or an error that is `bad`. -/
def Yields {ε α : Type} (good : α → Prop) (bad : ε → Prop) : Except ε α → Prop
  | .ok a => good a
  | .error e => bad e

section Yields

variable {ε α β : Type} {good : α → Prop} {good' : β → Prop} {bad bad' : ε → Prop} {x : Except ε α}
  {f : α → Except ε β}

theorem Yields.bind (first : Yields good bad x) (next : ∀ a, good a → Yields good' bad (f a)) :
    Yields good' bad (x >>= f) := by
  cases x with
  | ok a => exact next a first
  | error e => exact first

theorem Yields.imp_error (yields : Yields good bad x) (weaker : ∀ e, bad e → bad' e) : Yields good bad' x := by
  cases x with
  | ok a => exact yields
  | error e => exact weaker e yields

end Yields

/-! ## Names of registers -/

theorem Source.orElse_eq_some {α : Type} {x y : Option α} {a : α} (found : (x <|> y) = some a) :
    x = some a ∨ y = some a := by
  cases x with
  | none => exact .inr found
  | some b => exact .inl found

theorem PhysReg.named?_bound {file : RegFile} {name : String} {r : PhysReg} (found : named? file name = some r) :
    r.number.toNat < 32 := by
  obtain ⟨number, index, rfl⟩ := Option.map_eq_some_iff.mp found
  have bound := (List.findIdx?_eq_some_iff_getElem.mp index).1
  have size : file.names.length = 32 := by cases file <;> rfl
  simp only [Nat.toUInt8_eq, UInt8.toNat_ofNat']
  omega

theorem PhysReg.numbered?_bound {file : RegFile} {digits : List Char} {r : PhysReg}
    (found : numbered? file digits = some r) : r.number.toNat < 32 := by
  unfold numbered? at found
  split at found
  · next number _ =>
    split at found
    · cases found
      simp only [Nat.toUInt8_eq, UInt8.toNat_ofNat']
      omega
    · cases found
  · cases found

theorem PhysReg.ofName?_bound {name : String} {r : PhysReg} (known : ofName? name = some r) :
    r.number.toNat < 32 := by
  unfold ofName? at known
  split at known
  · exact named?_bound known
  · rcases Source.orElse_eq_some known with general | known
    · exact named?_bound general
    rcases Source.orElse_eq_some known with float | known
    · exact named?_bound float
    split at known
    · exact numbered?_bound known
    · exact numbered?_bound known
    · cases known

def PhysReg.IsNamed (name : String) (reg : PhysReg) : Prop := ofName? name = some reg ∧ reg.number.toNat < 32

/-! ## What an instruction is made of -/

/-- The register is written in a text, or is the zero that a shorthand leaves out. -/
def Source.Given (file : RegFile) (reg : Reg) : Prop :=
  file = .general ∧ reg = PhysReg.zero ∨ ∃ text, Source.register file text = .ok reg

namespace Inst

variable {τ τ' : Type}

/-- What an instruction is made of: `P` holds of every register operand and the file that the operation works on there,
`Q` of every symbol and target. The register lists of calls and returns do not count. -/
def Made (P : RegFile → Reg → Prop) (Q : String → Prop) : Inst String → Prop
  | li rd _ => P .general rd
  | la rd symbol => P .general rd ∧ Q symbol
  | unary _ rd rs | immediate _ rd rs _ => P .general rd ∧ P .general rs
  | binary _ rd rs1 rs2 => P .general rd ∧ P .general rs1 ∧ P .general rs2
  | floatUnary op _ rd rs => P op.files.1 rd ∧ P op.files.2 rs
  | floatBinary op _ rd rs1 rs2 => P op.file rd ∧ P .float rs1 ∧ P .float rs2
  | fused _ _ rd rs1 rs2 rs3 => P .float rd ∧ P .float rs1 ∧ P .float rs2 ∧ P .float rs3
  | load op rd base _ => P op.file rd ∧ P .general base
  | store op source base _ => P op.file source ∧ P .general base
  | jump target => Q target
  | branch _ rs1 rs2 target => P .general rs1 ∧ P .general rs2 ∧ Q target
  | call symbol _ => Q symbol
  | ret _ => True

theorem Made.imp {P P' : RegFile → Reg → Prop} {Q Q' : String → Prop} {inst : Inst String} (made : inst.Made P Q)
    (regs : ∀ file reg, P file reg → P' file reg) (names : ∀ name, Q name → Q' name) : inst.Made P' Q' := by
  cases inst with
  | li rd value => exact regs _ _ made
  | la rd symbol => exact ⟨regs _ _ made.1, names _ made.2⟩
  | unary op rd rs | immediate op rd rs value | floatUnary op mode rd rs | load op rd base offset
  | store op source base offset => exact ⟨regs _ _ made.1, regs _ _ made.2⟩
  | binary op rd rs1 rs2 | floatBinary op mode rd rs1 rs2 =>
    exact ⟨regs _ _ made.1, regs _ _ made.2.1, regs _ _ made.2.2⟩
  | fused op mode rd rs1 rs2 rs3 =>
    exact ⟨regs _ _ made.1, regs _ _ made.2.1, regs _ _ made.2.2.1, regs _ _ made.2.2.2⟩
  | branch op rs1 rs2 target => exact ⟨regs _ _ made.1, regs _ _ made.2.1, names _ made.2.2⟩
  | jump target | call symbol arguments => exact names _ made
  | ret results => trivial

/-- The target bears the last operand as its label, and the registers of a call or a return are those that the operands
name. -/
def Names (operands : List String) (bears : τ → String → Prop) : Inst τ → Prop
  | jump target | branch _ _ _ target => ∃ label, operands.getLast? = some label ∧ bears target label
  | call symbol arguments => ∃ names, operands = symbol :: names ∧ List.Forall₂ PhysReg.IsNamed names arguments
  | ret results => List.Forall₂ PhysReg.IsNamed operands results
  | _ => True

theorem Names.target {operands : List String} {bears : τ → String → Prop} {inst : Inst τ} {target : τ}
    (names : inst.Names operands bears) (member : target ∈ inst.targets) :
    ∃ label ∈ operands, bears target label := by
  cases inst with
  | jump target' | branch op rs1 rs2 target' =>
    obtain ⟨label, last, borne⟩ := names
    exact ⟨label, List.mem_of_getLast? last, List.mem_singleton.mp member ▸ borne⟩
  | _ => cases member

theorem Names.mapTargetM {ε : Type} {operands : List String} {bears : τ → String → Prop} {bears' : τ' → String → Prop}
    {find : τ → Except ε τ'} {inst : Inst τ} {inst' : Inst τ'} (names : inst.Names operands bears)
    (found : inst.mapTargetM find = .ok inst')
    (kept : ∀ {target target' label}, find target = .ok target' → bears target label → bears' target' label) :
    inst'.Names operands bears' := by
  cases inst with
  | jump target | branch op rs1 rs2 target =>
    simp only [Inst.mapTargetM, bind_eq_ok, pure_eq_ok] at found
    obtain ⟨target', located, rfl⟩ := found
    obtain ⟨label, last, borne⟩ := names
    exact ⟨label, last, kept located borne⟩
  | _ =>
    cases found
    exact names

/-- The instruction is made of the operands. -/
structure ReadFrom (operands : List String) (inst : Inst String) : Prop where
  made : inst.Made Source.Given (· ∈ operands)
  names : inst.Names operands (· = ·)

end Inst

namespace Source

namespace Complaint

def subject : Complaint → String
  | unknownMnemonic text | badRegister text | badImmediate text | badMemoryOperand text | badRounding text
  | badDirective text | unknownLabel text | outsideFunction text | duplicatedLabel text | wrongFile text _
  | operandCount text _ _ => text

theorem quoted_subject (complaint : Complaint) :
    (quoted complaint.subject).toList <:+: complaint.message.toList := by
  have longer {part : List Char} {front back : String} (inside : part <:+: front.toList) :
      part <:+: (front ++ back).toList := by
    rw [String.toList_append]
    exact inside.trans (List.prefix_append _ _).isInfix
  have back (front text : String) : (quoted text).toList <:+: (front ++ quoted text).toList := by
    rw [String.toList_append]
    exact (List.suffix_append _ _).isInfix
  cases complaint with
  | outsideFunction text => exact longer List.infix_rfl
  | wrongFile text file => exact longer (longer (longer List.infix_rfl))
  | operandCount text expected found => exact longer (longer (longer (longer List.infix_rfl)))
  | _ => exact back _ _

def onLabel : Complaint → Bool
  | unknownLabel _ | duplicatedLabel _ => true
  | _ => false

/-- The complaint is not about a label and quotes a part of a text. -/
def Quotes (text : String) (complaint : Complaint) : Prop :=
  complaint.onLabel = false ∧ complaint.subject.toList <:+: text.toList

theorem Quotes.refl {complaint : Complaint} (other : complaint.onLabel = false) : complaint.Quotes complaint.subject :=
  ⟨other, List.infix_rfl⟩

end Complaint

open Complaint (Quotes)

/-- The complaint quotes a part of the instruction. -/
def DraftInst.Blamed (draft : DraftInst) (complaint : Complaint) : Prop :=
  ∃ text ∈ draft.mnemonic :: draft.operands, complaint.Quotes text

/-! ## Operands -/

theorem register_yields (file : RegFile) (text : String) :
    Yields (fun _ => True) (Quotes text) (register file text) := by
  unfold register
  split
  · exact Quotes.refl rfl
  · split
    · trivial
    · exact Quotes.refl rfl

theorem literal_yields (text : String) : Yields (fun _ => True) (Quotes text) (literal text) := by
  unfold literal
  split
  · trivial
  · exact Quotes.refl rfl

theorem immediate_yields (text : String) : Yields (fun _ => True) (Quotes text) (immediate text) := by
  unfold immediate
  split
  · trivial
  · exact Quotes.refl rfl

theorem offset_yields (text : String) : Yields (fun _ => True) (Quotes text) (offset text) := by
  unfold offset
  split
  · trivial
  · exact immediate_yields text

theorem memory_yields (text : String) : Yields (fun _ => True) (Quotes text) (memory text) := by
  have inner {part : List Char} (inside : part <:+: text.toList) (complaint : Complaint)
      (quotes : complaint.Quotes (String.ofList (trim part))) : complaint.Quotes text := by
    refine ⟨quotes.1, (quotes.2.trans ?_).trans inside⟩
    rw [String.toList_ofList]
    exact trim_isInfix part
  unfold memory
  split
  · next front base found =>
    obtain ⟨shorter, dropped, cut⟩ := Option.bind_eq_some_iff.mp found
    unfold dropLast? at dropped
    split at dropped
    · cases dropped
      have whole : front ++ '(' :: base <:+: text.toList :=
        cut?_eq_some cut ▸ (List.dropLast_prefix text.toList).isInfix
      have frontInside := (List.prefix_append front ('(' :: base)).isInfix.trans whole
      have baseInside := ((List.suffix_cons '(' base).trans (List.suffix_append front _)).isInfix.trans whole
      exact ((offset_yields _).imp_error (inner frontInside)).bind fun _ _ =>
        ((register_yields .general _).imp_error (inner baseInside)).bind fun _ _ => trivial
    · cases dropped
  · exact Quotes.refl rfl

theorem memory_base {text : String} {reg : Reg} {offset : Imm12} (read : memory text = .ok (offset, reg)) :
    ∃ base, register .general base = .ok reg := by
  unfold memory at read
  split at read
  · simp only [bind_eq_ok, pure_eq_ok, Prod.mk.injEq] at read
    obtain ⟨_, -, base, found, -, rfl⟩ := read
    exact ⟨_, found⟩
  · cases read

section Instructions

variable {α β : Type} {good : α → Prop} {draft : DraftInst} {text : String}

theorem operand_then {x : Except Complaint β} {f : β → Except Complaint α} (written : text ∈ draft.operands)
    (read : Yields (fun _ => True) (Quotes text) x) (next : ∀ b, x = .ok b → Yields good draft.Blamed (f b)) :
    Yields good draft.Blamed (x >>= f) := by
  cases x with
  | ok b => exact next b rfl
  | error complaint => exact ⟨text, List.mem_cons_of_mem _ written, read⟩

theorem register_then {file : RegFile} {f : Reg → Except Complaint α} (written : text ∈ draft.operands)
    (next : ∀ reg, Given file reg → Yields good draft.Blamed (f reg)) :
    Yields good draft.Blamed (register file text >>= f) :=
  operand_then written (register_yields file text) fun reg read => next reg (.inr ⟨text, read⟩)

theorem memory_then {f : Imm12 × Reg → Except Complaint α} (written : text ∈ draft.operands)
    (next : ∀ place, Given .general place.2 → Yields good draft.Blamed (f place)) :
    Yields good draft.Blamed (memory text >>= f) :=
  operand_then written (memory_yields text) fun place read => next place (.inr (memory_base read))

theorem rounding_then {mode : Option String} {f : Rounding → Except Complaint α}
    (written : ∀ text ∈ mode.toList, text ∈ draft.operands) (next : ∀ mode, Yields good draft.Blamed (f mode)) :
    Yields good draft.Blamed (rounding mode >>= f) := by
  cases mode with
  | none => exact next .dyn
  | some text =>
    refine operand_then (written text List.mem_cons_self) ?_ fun mode _ => next mode
    simp only [rounding]
    split
    · trivial
    · exact Quotes.refl rfl

theorem physical_yields {text : String} (written : text ∈ draft.operands) :
    Yields (PhysReg.IsNamed text) draft.Blamed
      (match PhysReg.ofName? text with
        | some reg => .ok reg
        | none => .error (.badRegister text)) := by
  split
  · next named => exact ⟨named, PhysReg.ofName?_bound named⟩
  · exact ⟨text, List.mem_cons_of_mem _ written, Quotes.refl rfl⟩

theorem physicals_yields {texts : List String} (written : ∀ text ∈ texts, text ∈ draft.operands) :
    Yields (List.Forall₂ PhysReg.IsNamed texts) draft.Blamed (physicals texts) := by
  induction texts with
  | nil => exact .nil
  | cons text texts ih =>
    rw [physicals, List.mapM_cons]
    exact (physical_yields (written text List.mem_cons_self)).bind fun reg named =>
      (ih fun other member => written other (List.mem_cons_of_mem _ member)).bind fun regs rest => .cons named rest

/-! ## Instructions -/

theorem blamed_count (expected found : Nat) : draft.Blamed (.operandCount draft.mnemonic expected found) :=
  ⟨draft.mnemonic, List.mem_cons_self, Quotes.refl rfl⟩

variable {good : Inst String → Prop}

theorem two_yields {read : String → String → ReadInst}
    (each : ∀ a b, draft.operands = [a, b] → Yields good draft.Blamed (read a b)) :
    Yields good draft.Blamed (two draft read) := by
  unfold two
  split
  · next a b operands => exact each a b operands
  · exact blamed_count _ _

theorem three_yields {read : String → String → String → ReadInst}
    (each : ∀ a b c, draft.operands = [a, b, c] → Yields good draft.Blamed (read a b c)) :
    Yields good draft.Blamed (three draft read) := by
  unfold three
  split
  · next a b c operands => exact each a b c operands
  · exact blamed_count _ _

theorem given_zero : Given .general PhysReg.zero := .inl ⟨rfl, rfl⟩

theorem two_general_yields {make : Reg → Reg → Inst String}
    (made : ∀ rd rs, Given .general rd → Given .general rs → good (make rd rs)) :
    Yields good draft.Blamed (two draft fun rd rs => return make (← general rd) (← general rs)) :=
  two_yields fun _ _ operands => register_then (by simp [operands]) fun rd first =>
    register_then (by simp [operands]) fun rs second => made rd rs first second

theorem inject_yields {op : FloatBinaryOp} (sign : op.file = .float) :
    Yields (Inst.ReadFrom draft.operands) draft.Blamed (readShorthand?.inject draft op) :=
  two_yields fun _ _ operands => register_then (by simp [operands]) fun _ source =>
    register_then (by simp [operands]) fun _ rd => ⟨⟨sign ▸ rd, source, source⟩, trivial⟩

theorem swapped_yields (op : BranchOp) :
    Yields (Inst.ReadFrom draft.operands) draft.Blamed (readShorthand?.swapped draft op) :=
  three_yields fun _ _ _ operands => register_then (by simp [operands]) fun _ right =>
    register_then (by simp [operands]) fun _ left =>
      ⟨⟨right, left, by simp [operands]⟩, _, congrArg List.getLast? operands, rfl⟩

theorem branch_zero_yields (op : BranchOp) : Yields (Inst.ReadFrom draft.operands) draft.Blamed
    (two draft fun rs target => return .branch op (← general rs) PhysReg.zero target) :=
  two_yields fun _ _ operands => register_then (by simp [operands]) fun _ rs =>
    ⟨⟨rs, given_zero, by simp [operands]⟩, _, congrArg List.getLast? operands, rfl⟩

theorem readShorthand?_yields {read : ReadInst} (known : readShorthand? draft = some read) :
    Yields (Inst.ReadFrom draft.operands) draft.Blamed read := by
  unfold readShorthand? at known
  split at known <;> cases known
  case h_1 li =>
    exact two_yields fun _ _ operands => register_then (by simp [operands]) fun _ rd =>
      operand_then (by simp [operands]) (literal_yields _) fun _ _ => ⟨rd, trivial⟩
  case h_2 la =>
    exact two_yields fun _ _ operands => register_then (by simp [operands]) fun _ rd =>
      ⟨⟨rd, by simp [operands]⟩, trivial⟩
  case h_3 mv | h_4 not | h_7 seqz => exact two_general_yields fun _ _ rd rs => ⟨⟨rd, rs⟩, trivial⟩
  case h_5 neg | h_6 negw | h_8 snez => exact two_general_yields fun _ _ rd rs => ⟨⟨rd, given_zero, rs⟩, trivial⟩
  case h_9 nop =>
    split
    · exact ⟨⟨given_zero, given_zero⟩, trivial⟩
    · exact blamed_count _ _
  case h_10 fmvS | h_11 fmvD | h_12 fnegS | h_13 fnegD | h_14 fabsS | h_15 fabsD => exact inject_yields rfl
  case h_16 j =>
    unfold one
    split
    · next target operands =>
      have written : target ∈ draft.operands := by simp [operands]
      exact ⟨written, target, congrArg List.getLast? operands, rfl⟩
    · exact blamed_count _ _
  case h_17 beqz | h_18 bnez => exact branch_zero_yields _
  case h_19 bgt | h_20 ble | h_21 bgtu | h_22 bleu => exact swapped_yields _
  case h_23 call =>
    split
    · exact blamed_count _ _
    · next symbol names operands =>
      have written : symbol ∈ draft.operands := by simp [operands]
      exact (physicals_yields fun text member => by simp [operands, member]).bind fun regs named =>
        ⟨written, names, operands, named⟩
  case h_24 ret => exact (physicals_yields fun _ member => member).bind fun regs named => ⟨trivial, named⟩

theorem readFloatUnary_yields (op : FloatUnaryOp) :
    Yields (Inst.ReadFrom draft.operands) draft.Blamed (readFloatUnary draft op) := by
  have read {rd rs : String} {mode : Option String}
      (written : ∀ text ∈ [rd, rs] ++ mode.toList, text ∈ draft.operands) :
      Yields (Inst.ReadFrom draft.operands) draft.Blamed (readFloatUnary.read op rd rs mode) :=
    register_then (written rd (by simp)) fun _ first => register_then (written rs (by simp)) fun _ second =>
      rounding_then (fun text found => written text (List.mem_append_right _ found)) fun _ =>
        ⟨⟨first, second⟩, trivial⟩
  unfold readFloatUnary
  split
  · next operands => exact read (by simp [operands])
  · next operands => exact read (by simp [operands])
  · exact blamed_count _ _

theorem readFloatBinary_yields (op : FloatBinaryOp) :
    Yields (Inst.ReadFrom draft.operands) draft.Blamed (readFloatBinary draft op) := by
  have read {rd rs1 rs2 : String} {mode : Option String}
      (written : ∀ text ∈ [rd, rs1, rs2] ++ mode.toList, text ∈ draft.operands) :
      Yields (Inst.ReadFrom draft.operands) draft.Blamed (readFloatBinary.read op rd rs1 rs2 mode) :=
    register_then (written rd (by simp)) fun _ first => register_then (written rs1 (by simp)) fun _ second =>
      register_then (written rs2 (by simp)) fun _ third =>
        rounding_then (fun text found => written text (List.mem_append_right _ found)) fun _ =>
          ⟨⟨first, second, third⟩, trivial⟩
  unfold readFloatBinary
  split
  · next operands => exact read (by simp [operands])
  · next operands => exact read (by simp [operands])
  · exact blamed_count _ _

theorem readFused_yields (op : FusedOp) :
    Yields (Inst.ReadFrom draft.operands) draft.Blamed (readFused draft op) := by
  have read {rd rs1 rs2 rs3 : String} {mode : Option String}
      (written : ∀ text ∈ [rd, rs1, rs2, rs3] ++ mode.toList, text ∈ draft.operands) :
      Yields (Inst.ReadFrom draft.operands) draft.Blamed (readFused.read op rd rs1 rs2 rs3 mode) :=
    register_then (written rd (by simp)) fun _ first => register_then (written rs1 (by simp)) fun _ second =>
      register_then (written rs2 (by simp)) fun _ third => register_then (written rs3 (by simp)) fun _ fourth =>
        rounding_then (fun text found => written text (List.mem_append_right _ found)) fun _ =>
          ⟨⟨first, second, third, fourth⟩, trivial⟩
  unfold readFused
  split
  · next operands => exact read (by simp [operands])
  · next operands => exact read (by simp [operands])
  · exact blamed_count _ _

theorem readOpcode?_yields {read : ReadInst} (known : readOpcode? draft = some read) :
    Yields (Inst.ReadFrom draft.operands) draft.Blamed read := by
  -- one kind of operation after the other, as their tables are asked for the mnemonic
  rcases orElse_eq_some known with binary | known
  · obtain ⟨op, -, rfl⟩ := Option.map_eq_some_iff.mp binary
    exact three_yields fun _ _ _ operands => register_then (by simp [operands]) fun _ rd =>
      register_then (by simp [operands]) fun _ rs1 =>
        register_then (by simp [operands]) fun _ rs2 => ⟨⟨rd, rs1, rs2⟩, trivial⟩
  rcases orElse_eq_some known with immediate | known
  · obtain ⟨op, -, rfl⟩ := Option.map_eq_some_iff.mp immediate
    exact three_yields fun _ _ _ operands => register_then (by simp [operands]) fun _ rd =>
      register_then (by simp [operands]) fun _ rs =>
        operand_then (by simp [operands]) (immediate_yields _) fun _ _ => ⟨⟨rd, rs⟩, trivial⟩
  rcases orElse_eq_some known with unary | known
  · obtain ⟨op, -, rfl⟩ := Option.map_eq_some_iff.mp unary
    exact two_general_yields fun _ _ rd rs => ⟨⟨rd, rs⟩, trivial⟩
  rcases orElse_eq_some known with floatUnary | known
  · obtain ⟨op, -, rfl⟩ := Option.map_eq_some_iff.mp floatUnary
    exact readFloatUnary_yields op
  rcases orElse_eq_some known with floatBinary | known
  · obtain ⟨op, -, rfl⟩ := Option.map_eq_some_iff.mp floatBinary
    exact readFloatBinary_yields op
  rcases orElse_eq_some known with fused | known
  · obtain ⟨op, -, rfl⟩ := Option.map_eq_some_iff.mp fused
    exact readFused_yields op
  rcases orElse_eq_some known with load | known
  · obtain ⟨op, -, rfl⟩ := Option.map_eq_some_iff.mp load
    exact two_yields fun _ _ operands => register_then (by simp [operands]) fun _ rd =>
      memory_then (by simp [operands]) fun _ base => ⟨⟨rd, base⟩, trivial⟩
  rcases orElse_eq_some known with store | branch
  · obtain ⟨op, -, rfl⟩ := Option.map_eq_some_iff.mp store
    exact two_yields fun _ _ operands => register_then (by simp [operands]) fun _ source =>
      memory_then (by simp [operands]) fun _ base => ⟨⟨source, base⟩, trivial⟩
  · obtain ⟨op, -, rfl⟩ := Option.map_eq_some_iff.mp branch
    exact three_yields fun _ _ _ operands => register_then (by simp [operands]) fun _ rs1 =>
      register_then (by simp [operands]) fun _ rs2 =>
        ⟨⟨rs1, rs2, by simp [operands]⟩, _, congrArg List.getLast? operands, rfl⟩

theorem readInst_yields (draft : DraftInst) :
    Yields (Inst.ReadFrom draft.operands) draft.Blamed (readInst draft) := by
  unfold readInst
  cases known : readShorthand? draft <|> readOpcode? draft with
  | none => exact ⟨draft.mnemonic, List.mem_cons_self, Quotes.refl rfl⟩
  | some read =>
    rcases orElse_eq_some known with shorthand | opcode
    · exact readShorthand?_yields shorthand
    · exact readOpcode?_yields opcode

end Instructions

end Source

end RegisterAllocator
