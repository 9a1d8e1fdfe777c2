import Mathlib.Algebra.Ring.Nat
import RegisterAllocator.Proofs.InstructionLines

/-!
# Instructions as they are read

Every instruction of a source text has its operands in the register files that the operation asks for
(`Source.readProgram_readable`), every function has a block, and no frame is larger than the largest signed number.
-/

namespace RegisterAllocator

/-- The operands are in the register files that the operation works on. -/
def Inst.Typed {τ : Type} : Inst τ → Prop
  | li rd _ | la rd _ => rd.file = .general
  | unary _ rd rs | immediate _ rd rs _ => rd.file = .general ∧ rs.file = .general
  | binary _ rd rs1 rs2 => rd.file = .general ∧ rs1.file = .general ∧ rs2.file = .general
  | floatUnary op _ rd rs => rd.file = op.files.1 ∧ rs.file = op.files.2
  | floatBinary op _ rd rs1 rs2 => rd.file = op.file ∧ rs1.file = .float ∧ rs2.file = .float
  | fused _ _ rd rs1 rs2 rs3 => rd.file = .float ∧ rs1.file = .float ∧ rs2.file = .float ∧ rs3.file = .float
  | load op rd base _ => rd.file = op.file ∧ base.file = .general
  | store op source base _ => source.file = op.file ∧ base.file = .general
  | branch _ rs1 rs2 _ => rs1.file = .general ∧ rs2.file = .general
  | jump _ | call .. | ret _ => True

theorem Inst.Typed.mapTargetM {τ τ' ε : Type} {find : τ → Except ε τ'} {inst : Inst τ} {inst' : Inst τ'}
    (typed : inst.Typed) (found : inst.mapTargetM find = .ok inst') : inst'.Typed := by
  cases inst with
  | jump target =>
    simp only [Inst.mapTargetM, bind_eq_ok, pure_eq_ok] at found
    obtain ⟨_, -, rfl⟩ := found
    trivial
  | branch op rs1 rs2 target =>
    simp only [Inst.mapTargetM, bind_eq_ok, pure_eq_ok] at found
    obtain ⟨_, -, rfl⟩ := found
    exact typed
  | _ =>
    cases found
    exact typed

theorem Inst.Made.typed {Q : String → Prop} {inst : Inst String}
    (made : inst.Made (fun file reg => reg.file = file) Q) : inst.Typed := by
  cases inst with
  | la rd symbol => exact made.1
  | branch op rs1 rs2 target => exact ⟨made.1, made.2.1⟩
  | jump target | call symbol arguments => trivial
  | _ => exact made

namespace Source

variable {draft : DraftInst} {inst : Inst String} {text : String} {reg : Reg}

theorem register_file {file : RegFile} (read : register file text = .ok reg) : reg.file = file := by
  unfold register at read
  split at read
  · cases read
  · split at read
    · next same =>
      cases read
      exact same
    · cases read

/-- An instruction is made of registers that can be read and of operands as they are written. -/
theorem readInst_made {P : RegFile → Reg → Prop} {Q : String → Prop}
    (regs : ∀ {file text reg}, register file text = .ok reg → P file reg) (zero : P .general PhysReg.zero)
    (names : ∀ name ∈ draft.operands, Q name) (found : readInst draft = .ok inst) : inst.Made P Q := by
  have yields := readInst_yields draft
  rw [found] at yields
  refine yields.made.imp (fun file reg given => ?_) names
  rcases given with ⟨rfl, rfl⟩ | ⟨text, read⟩
  · exact zero
  · exact regs read

theorem readInst_typed (found : readInst draft = .ok inst) : inst.Typed :=
  (readInst_made (Q := fun _ => True) register_file rfl (fun _ _ => trivial) found).typed

theorem resolve_typed {labels : List String} {inst : Inst Nat} (found : resolve labels draft = .ok inst) :
    inst.Typed := by
  unfold resolve at found
  split at found
  · cases found
  · next inst' read =>
    rw [bind_eq_ok] at read
    obtain ⟨first, read, located⟩ := read
    split at found
    · cases found
      exact (readInst_typed read).mapTargetM located
    · cases found

/-! ## Outlines -/

theorem DraftFunction.addLabel_eq_ok {f f' : DraftFunction} {label : String} (added : f.addLabel label = .ok f') :
    label = f.label ∧ f' = { f with entryLabelled := true } ∨
      label ∉ f.labels ∧ f' = { f with current := { label }, earlier := f.current :: f.earlier } := by
  unfold addLabel at added
  split at added
  · next entry =>
    cases added
    exact .inl ⟨entry.1, rfl⟩
  · split at added
    · cases added
    · next fresh =>
      cases added
      exact .inr ⟨fresh, rfl⟩

namespace Outline

/-- The frames of the functions outlined so far are sizes that a signed number can have. -/
structure Framed (o : Outline) : Prop where
  opened : ∀ f ∈ o.opened?, f.frame.toNat < 2 ^ 63
  done : ∀ f, .function f ∈ o.done → f.frame.toNat < 2 ^ 63

variable {o o' : Outline}

theorem function_eq_ok {text : String} {f : DraftFunction} (found : o.function text = .ok f) : o.opened? = some f := by
  unfold Outline.function at found
  split at found
  · next _ opened =>
    cases found
    exact opened
  · cases found

theorem addLabel_eq_ok {label : String} (added : o.addLabel label = .ok o') :
    ∃ f f', o.opened? = some f ∧ f.addLabel label = .ok f' ∧ o' = { o with opened? := some f' } := by
  simp only [addLabel, bind_eq_ok, pure_eq_ok] at added
  obtain ⟨f, opened, f', labelled, rfl⟩ := added
  exact ⟨f, f', function_eq_ok opened, labelled, rfl⟩

theorem addDirective_eq_ok {text name argument : String} (added : o.addDirective text name argument = .ok o') :
    (name = "func" ∧ argument ≠ "" ∧ o' = { o.close with opened? := some (.opened argument) }) ∨
    (name = "endfunc" ∧ o' = o.close) ∨
    (name = "frame" ∧ ∃ f size, o.opened? = some f ∧ frameSize argument = .ok size ∧
      o' = { o with opened? := some { f with frame := size } }) ∨
    (name = "extern" ∧ argument ≠ "" ∧ o' = { o with done := .external argument :: o.done }) ∨
    (name ≠ "func" ∧ name ≠ "endfunc" ∧ o' = o) := by
  unfold addDirective at added
  split at added
  · split at added
    · cases added
    · next filled =>
      cases added
      exact .inl ⟨rfl, by simpa using filled, rfl⟩
  · simp only [bind_eq_ok, pure_eq_ok] at added
    obtain ⟨_, -, rfl⟩ := added
    exact .inr (.inl ⟨rfl, rfl⟩)
  · simp only [bind_eq_ok, pure_eq_ok] at added
    obtain ⟨f, opened, size, read, rfl⟩ := added
    exact .inr (.inr (.inl ⟨rfl, f, size, function_eq_ok opened, read, rfl⟩))
  · split at added
    · cases added
    · next filled =>
      cases added
      exact .inr (.inr (.inr (.inl ⟨rfl, by simpa using filled, rfl⟩)))
  · next notFunc notEndfunc _ _ =>
    cases added
    exact .inr (.inr (.inr (.inr ⟨notFunc, notEndfunc, rfl⟩)))

theorem addInst_eq_ok {number : Nat} {mnemonic : String} {operands : List String}
    (added : o.addStatement number (.instruction mnemonic operands) = .ok o') :
    ∃ f, o.opened? = some f ∧
      o' = { o with opened? := some (f.addInst { mnemonic, operands, line := number }) } := by
  simp only [addStatement, bind_eq_ok, pure_eq_ok] at added
  obtain ⟨f, opened, rfl⟩ := added
  exact ⟨f, function_eq_ok opened, rfl⟩

theorem frameSize_lt {text : String} {size : UInt64} (read : frameSize text = .ok size) : size.toNat < 2 ^ 63 := by
  unfold frameSize at read
  split at read
  · next value _ =>
    split at read
    · next nonnegative =>
      cases read
      -- the frame is the bit pattern of a number that is not negative, so the highest bit is clear
      have signed : 0 ≤ value.toUInt64.toBitVec.toInt := Int64.le_iff_toInt_le.mp nonnegative
      have bound := value.toUInt64.toBitVec.isLt
      rw [BitVec.toInt_eq_toNat_cond] at signed
      change value.toUInt64.toBitVec.toNat < 2 ^ 63
      split at signed <;> omega
    · cases read
  · cases read

theorem Framed.close (framed : o.Framed) : o.close.Framed := by
  unfold Outline.close
  split
  · next f found =>
    refine ⟨nofun, fun other member => ?_⟩
    rcases List.mem_cons.mp member with same | old
    · cases same
      exact framed.opened f found
    · exact framed.done other old
  · exact framed

theorem Framed.reopen (framed : o.Framed) {f f' : DraftFunction} (found : o.opened? = some f)
    (same : f'.frame = f.frame) : Framed { o with opened? := some f' } := by
  refine ⟨fun g member => ?_, framed.done⟩
  cases member
  rw [same]
  exact framed.opened f found

theorem Framed.addLabel (framed : o.Framed) {label : String} (added : o.addLabel label = .ok o') : o'.Framed := by
  obtain ⟨f, f', opened, labelled, rfl⟩ := addLabel_eq_ok added
  apply framed.reopen opened
  rcases DraftFunction.addLabel_eq_ok labelled with ⟨-, rfl⟩ | ⟨-, rfl⟩ <;> rfl

theorem Framed.addDirective (framed : o.Framed) {text name argument : String}
    (added : o.addDirective text name argument = .ok o') : o'.Framed := by
  rcases addDirective_eq_ok added with ⟨-, -, rfl⟩ | ⟨-, rfl⟩ | ⟨-, f, size, -, read, rfl⟩ | ⟨-, -, rfl⟩ | ⟨-, -, rfl⟩
  · refine ⟨fun f member => ?_, framed.close.done⟩
    cases member
    exact Nat.two_pow_pos 63
  · exact framed.close
  · refine ⟨fun g member => ?_, framed.done⟩
    cases member
    exact frameSize_lt read
  · refine ⟨framed.opened, fun f member => ?_⟩
    rcases List.mem_cons.mp member with new | old
    · cases new
    · exact framed.done f old
  · exact framed

theorem Framed.addStatement (framed : o.Framed) {line : Nat} {statement : Statement}
    (added : o.addStatement line statement = .ok o') : o'.Framed := by
  cases statement with
  | nothing =>
    cases added
    exact framed
  | directive text name argument => exact framed.addDirective added
  | instruction mnemonic operands =>
    obtain ⟨f, opened, rfl⟩ := addInst_eq_ok added
    exact framed.reopen opened rfl

theorem Framed.addLine (framed : o.Framed) {line : Nat} {content : Line} (added : o.addLine line content = .ok o') :
    o'.Framed := by
  unfold Outline.addLine at added
  split at added
  · rw [bind_eq_ok] at added
    obtain ⟨labelled, label, added⟩ := added
    exact (framed.addLabel label).addStatement added
  · exact framed.addStatement added

theorem Framed.addLines (framed : o.Framed) {line : Nat} {lines : List Line}
    (added : o.addLines line lines = .ok o') : o'.Framed := by
  induction lines generalizing o line with
  | nil =>
    cases added
    exact framed
  | cons content rest ih =>
    unfold Outline.addLines at added
    split at added
    · next _ first => exact ih (framed.addLine first) added
    · cases added

end Outline

end Source

/-! ## Programs -/

/-- What holds of the functions of a source text: the instructions are typed, there is a block, and the frame has a
size that a signed number can have. -/
structure Function.Readable (function : Function) : Prop where
  typed : ∀ block ∈ function.blocks, ∀ inst ∈ block.insts, inst.Typed
  filled : function.blocks ≠ []
  framed : function.frame.toNat < 2 ^ 63

theorem Source.readItem_readable {draft : DraftItem} {function : Function}
    (framed : ∀ f, draft = .function f → f.frame.toNat < 2 ^ 63) (found : readItem draft = .ok (.function function)) :
    function.Readable := by
  cases draft with
  | external label => cases found
  | function draft =>
    simp only [readItem, bind_eq_ok, pure_eq_ok, mapM_eq_ok, Item.function.injEq] at found
    obtain ⟨blocks, read, rfl⟩ := found
    refine ⟨fun block inBlocks inst inBlock => ?_, fun empty => ?_, framed draft rfl⟩
    · obtain ⟨_, -, insts, resolved, rfl⟩ := forall₂_mem_right read inBlocks
      obtain ⟨_, -, located⟩ := forall₂_mem_right resolved inBlock
      exact resolve_typed located
    · have length := read.length_eq
      change blocks = [] at empty
      rw [empty] at length
      simp [DraftFunction.blocks] at length

theorem Source.readProgram_readable {source : String} {program : Program} (found : readProgram source = .ok program) :
    ∀ function, .function function ∈ program → function.Readable := by
  intro function member
  unfold readProgram at found
  split at found
  · cases found
  · next items drawn =>
    obtain ⟨item, inItems, read⟩ := forall₂_mem_right (mapM_eq_ok.mp found) member
    refine readItem_readable (fun f same => ?_) read
    subst same
    rw [outline, map_eq_ok] at drawn
    obtain ⟨o, lines, rfl⟩ := drawn
    have empty : ({} : Outline).Framed := ⟨by simp, by simp⟩
    have framed := empty.addLines lines
    exact framed.close.done f (List.mem_reverse.mp inItems)

end RegisterAllocator
