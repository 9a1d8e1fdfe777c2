import RegisterAllocator.Proofs.Conservation

/-!
# What copies compute

An instruction that is written like a copy may work on less than a whole register. Additions of zero and sign injections
of 64 bits copy every content. Those of 32 bits copy a content only if it fits, that is, if it is the sign extension of
its lower half, or a boxed single-precision number (`Inst.Passes`). So copies of a register to itself can be taken out
without a trace exactly where the register fits (`copies_removable_iff`), and taking out a sign extension can change
what a function computes (`sign_extension_removed`).
-/

namespace RegisterAllocator

/-! ## Registers of 64 bits -/

/-- The content of a register. -/
abbrev Word := BitVec 64

namespace Word

/-- A result of 32 bits fills a register with its sign. -/
def extend (low : BitVec 32) : Word := low.signExtend 64

/-- Whether a register holds a single-precision number: the upper half is all ones. -/
def Boxed (x : Word) : Prop := x.extractLsb' 32 32 = BitVec.allOnes 32

instance (x : Word) : Decidable x.Boxed := inferInstanceAs (Decidable (_ = _))

/-- The single-precision number in a register, which is the canonical NaN if the register holds none. -/
def single (x : Word) : BitVec 32 := if x.Boxed then x.setWidth 32 else 0x7fc00000

def box (number : BitVec 32) : Word := BitVec.allOnes 32 ++ number

end Word

/-- A number with the sign of another one. -/
def injectSign {w : Nat} (number sign : BitVec w) : BitVec w :=
  number &&& ~~~BitVec.intMin w ||| sign &&& BitVec.intMin w

/-- A machine that executes code: its registers, and all else that instructions work on. -/
structure Hart (M : Type) where
  regs : Reg → Word
  rest : M

/-- The register that an instruction writes and the value, for the instructions that may be written like copies and for
constants. -/
def Inst.result? {τ : Type} (read : Reg → Word) : Inst τ → Option (Reg × Word)
  | li rd value => some (rd, value.toBitVec)
  | binary .add rd rs1 rs2 => some (rd, read rs1 + read rs2)
  | binary .addw rd rs1 rs2 => some (rd, .extend ((read rs1).setWidth 32 + (read rs2).setWidth 32))
  | immediate .addi rd rs value => some (rd, read rs + value.bits.signExtend 64)
  | immediate .addiw rd rs value => some (rd, .extend ((read rs).setWidth 32 + value.bits.signExtend 32))
  | floatBinary .fsgnjS _ rd rs1 rs2 => some (rd, .box (injectSign (read rs1).single (read rs2).single))
  | floatBinary .fsgnjD _ rd rs1 rs2 => some (rd, injectSign (read rs1) (read rs2))
  | _ => none

/-- Whether a content of its source comes out whole of an instruction that is written like a copy. -/
def Inst.Passes {τ : Type} (inst : Inst τ) (x : Word) : Prop :=
  match inst with
  | binary .addw .. | immediate .addiw .. => -2 ^ 31 ≤ x.toInt ∧ x.toInt < 2 ^ 31
  | floatBinary .fsgnjS .. => x.Boxed
  | _ => True

namespace Hart

variable {M τ : Type}

def read (s : Hart M) (reg : Reg) : Word := if reg = PhysReg.zero then 0 else s.regs reg

/-- What is written to the zero register is lost. -/
def write (s : Hart M) (reg : Reg) (value : Word) : Hart M :=
  if reg = PhysReg.zero then s else { s with regs := Function.update s.regs reg value }

/-- Execute an instruction. What those do that cannot be written like copies is left open. -/
def step (other : Inst τ → Hart M → Hart M) (s : Hart M) (inst : Inst τ) : Hart M :=
  match inst.result? s.read with
  | some (rd, value) => s.write rd value
  | none => other inst s

def run (other : Inst τ → Hart M → Hart M) (s : Hart M) (insts : List (Inst τ)) : Hart M := insts.foldl (step other) s

@[simp] theorem read_zero (s : Hart M) : s.read PhysReg.zero = 0 := if_pos rfl

theorem read_write_self (s : Hart M) {reg : Reg} (normal : reg ≠ PhysReg.zero) (value : Word) :
    (s.write reg value).read reg = value := by
  simp [read, write, normal]

theorem read_write_of_ne (s : Hart M) {reg other : Reg} (differ : other ≠ reg) (value : Word) :
    (s.write reg value).read other = s.read other := by
  unfold read write
  split
  · rfl
  · split
    · rfl
    · exact Function.update_of_ne differ ..

theorem rest_write (s : Hart M) (reg : Reg) (value : Word) : (s.write reg value).rest = s.rest := by
  unfold write
  split <;> rfl

theorem write_read_self (s : Hart M) (reg : Reg) : s.write reg (s.read reg) = s := by
  unfold read write
  split
  · rfl
  · simp

theorem run_append (other : Inst τ → Hart M → Hart M) (s : Hart M) (insts insts' : List (Inst τ)) :
    s.run other (insts ++ insts') = (s.run other insts).run other insts' := List.foldl_append

end Hart

/-! ## What fits -/

namespace Word

theorem extend_setWidth_iff (x : Word) :
    extend (x.setWidth 32) = x ↔ -2 ^ 31 ≤ x.toInt ∧ x.toInt < 2 ^ 31 := by
  have value : (extend (x.setWidth 32)).toInt = Int.bmod x.toInt (2 ^ 32) := by
    rw [extend, BitVec.toInt_signExtend_of_le (by decide), BitVec.toInt_setWidth, BitVec.toInt_eq_toNat_bmod,
      Int.bmod_bmod_of_dvd (by decide)]
  rw [← BitVec.toInt_inj, value]
  constructor
  · intro same
    rw [← same]
    have low := Int.le_bmod (x := x.toInt) (m := 2 ^ 32) (by decide)
    have high := Int.bmod_lt (x := x.toInt) (m := 2 ^ 32) (by decide)
    omega
  · rintro ⟨low, high⟩
    apply Int.bmod_eq_of_le <;> omega

theorem getLsbD_box (number : BitVec 32) (i : Nat) :
    (box number).getLsbD i = if i < 32 then number.getLsbD i else (BitVec.allOnes 32).getLsbD (i - 32) :=
  BitVec.getLsbD_append

theorem boxed_box (number : BitVec 32) : (box number).Boxed := by
  apply BitVec.eq_of_getLsbD_eq
  intro i bound
  rw [BitVec.getLsbD_extractLsb', getLsbD_box, if_neg (by omega), Nat.add_sub_cancel_left, decide_eq_true bound,
    Bool.true_and]

theorem box_setWidth {x : Word} (boxed : x.Boxed) : box (x.setWidth 32) = x := by
  apply BitVec.eq_of_getLsbD_eq
  intro i bound
  rw [getLsbD_box]
  split
  · next lower => rw [BitVec.getLsbD_setWidth, decide_eq_true lower, Bool.true_and]
  · next upper =>
    rw [← boxed, BitVec.getLsbD_extractLsb', decide_eq_true (by omega), Bool.true_and, Nat.add_sub_cancel' (by omega)]

theorem box_single_iff (x : Word) : box x.single = x ↔ x.Boxed := by
  constructor
  · intro same
    rw [← same]
    exact boxed_box _
  · intro boxed
    rw [single, if_pos boxed]
    exact box_setWidth boxed

end Word

theorem injectSign_self {w : Nat} (number : BitVec w) : injectSign number number = number := by
  unfold injectSign
  ext i bound
  simp only [BitVec.getElem_or, BitVec.getElem_and, BitVec.getElem_not]
  cases number[i] <;> simp

namespace Inst

variable {τ : Type} {inst : Inst τ} {dst src : Reg}

theorem copy?_cases (copies : inst.copy? = some (dst, src)) :
    (∃ op rs1 rs2, inst = binary op dst rs1 rs2 ∧ (op = .add ∨ op = .addw) ∧
      (rs1 = src ∧ rs2 = PhysReg.zero ∨ rs1 = PhysReg.zero ∧ rs2 = src)) ∨
    (∃ op value, inst = immediate op dst src value ∧ (op = .addi ∨ op = .addiw) ∧ value.bits = 0) ∨
    ∃ op mode, inst = floatBinary op mode dst src src ∧ (op = .fsgnjS ∨ op = .fsgnjD) := by
  cases inst with
  | binary op rd rs1 rs2 =>
    simp only [copy?] at copies
    split at copies
    · next adds =>
      split at copies
      · next second =>
        cases copies
        exact .inl ⟨op, _, _, rfl, adds, .inl ⟨rfl, second⟩⟩
      · split at copies
        · next first =>
          cases copies
          exact .inl ⟨op, _, _, rfl, adds, .inr ⟨first, rfl⟩⟩
        · cases copies
    · cases copies
  | immediate op rd rs value =>
    simp only [copy?] at copies
    split at copies
    · next adds =>
      cases copies
      exact .inr (.inl ⟨op, value, rfl, adds.1, by simpa [Imm12.isZero] using adds.2⟩)
    · cases copies
  | floatBinary op mode rd rs1 rs2 =>
    simp only [copy?] at copies
    split at copies
    · next injects =>
      cases copies
      obtain ⟨injects, rfl⟩ := injects
      exact .inr (.inr ⟨op, mode, rfl, injects⟩)
    · cases copies
  | _ => cases copies

/-- What an instruction that is written like a copy writes: the content of its source, if that fits. -/
theorem result?_of_copy (copies : inst.copy? = some (dst, src)) {read : Reg → Word} (zero : read PhysReg.zero = 0) :
    ∃ value, inst.result? read = some (dst, value) ∧ (value = read src ↔ inst.Passes (read src)) := by
  rcases copy?_cases copies with ⟨op, rs1, rs2, rfl, adds, operands⟩ | ⟨op, value, rfl, adds, bits⟩ |
    ⟨op, mode, rfl, injects⟩
  · have whole : read rs1 + read rs2 = read src := by
      rcases operands with ⟨rfl, rfl⟩ | ⟨rfl, rfl⟩ <;> simp [zero]
    have low : (read rs1).setWidth 32 + (read rs2).setWidth 32 = (read src).setWidth 32 := by
      rcases operands with ⟨rfl, rfl⟩ | ⟨rfl, rfl⟩ <;> simp [zero]
    rcases adds with rfl | rfl
    · exact ⟨_, rfl, by simp [Passes, whole]⟩
    · refine ⟨_, rfl, ?_⟩
      rw [low]
      exact (read src).extend_setWidth_iff
  · rcases adds with rfl | rfl
    · exact ⟨_, rfl, by simp [Passes, bits]⟩
    · refine ⟨_, rfl, ?_⟩
      simpa [Passes, bits] using (read src).extend_setWidth_iff
  · rcases injects with rfl | rfl
    · refine ⟨_, rfl, ?_⟩
      rw [injectSign_self]
      exact (read src).box_single_iff
    · exact ⟨_, rfl, by simp [Passes, injectSign_self]⟩

theorem uses_of_copy (copies : inst.copy? = some (dst, src)) {reg : Reg} (reads : reg ∈ inst.uses) :
    reg = src ∨ reg = PhysReg.zero := by
  rcases copy?_cases copies with ⟨op, rs1, rs2, rfl, -, operands⟩ | ⟨op, value, rfl, -⟩ | ⟨op, mode, rfl, -⟩
  · rcases operands with ⟨rfl, rfl⟩ | ⟨rfl, rfl⟩
    · exact List.mem_pair.mp reads
    · exact (List.mem_pair.mp reads).symm
  · exact .inl (List.mem_singleton.mp reads)
  · exact .inl ((or_self_iff).mp (List.mem_pair.mp reads))

/-- A copy stays one under renaming, if only the zero register becomes the zero register. -/
theorem copy?_of_copy (copies : inst.copy? = some (dst, src)) {f g : Reg → Reg}
    (zero : ∀ reg, f reg = PhysReg.zero ↔ reg = PhysReg.zero) :
    ((inst.mapUses f).mapDefs g).copy? = some (g dst, f src) := by
  rw [copy?_renamed _ fun reg _ => zero reg, copies]
  · rfl
  · intro a readsA b readsB same
    rcases uses_of_copy copies readsA with rfl | rfl
    · rcases uses_of_copy copies readsB with rfl | rfl
      · rfl
      · rw [(zero PhysReg.zero).mpr rfl, zero] at same
        exact same
    · rw [(zero PhysReg.zero).mpr rfl] at same
      exact ((zero b).mp same.symm).symm

end Inst

namespace Hart

variable {M τ : Type} {other : Inst τ → Hart M → Hart M} {inst : Inst τ} {dst src reg : Reg}

theorem step_of_copy (s : Hart M) (copies : inst.copy? = some (dst, src)) :
    ∃ value, s.step other inst = s.write dst value ∧ (value = s.read src ↔ inst.Passes (s.read src)) := by
  obtain ⟨value, result, fits⟩ := inst.result?_of_copy copies s.read_zero
  exact ⟨value, by rw [step, result], fits⟩

/-- A copy of a register to itself can be left out exactly if the content fits. -/
theorem step_eq_self_iff (s : Hart M) (copies : inst.copy? = some (reg, reg)) (normal : reg ≠ PhysReg.zero) :
    s.step other inst = s ↔ inst.Passes (s.read reg) := by
  obtain ⟨value, result, fits⟩ := s.step_of_copy copies
  rw [result, ← fits]
  constructor
  · intro same
    rw [← s.read_write_self normal value, same]
  · rintro rfl
    exact s.write_read_self reg

end Hart

/-! ## Taking instructions out -/

/-- Instructions, each marked by whether it stays, can be executed without those that do not stay: at every point the
state is the same. -/
def Removable {M τ : Type} (other : Inst τ → Hart M → Hart M) (s : Hart M) (code : List (Bool × Inst τ)) : Prop :=
  ∀ pre, pre <+: code → s.run other (pre.map Prod.snd) = s.run other ((pre.filter Prod.fst).map Prod.snd)

theorem removable_iff {M τ : Type} {other : Inst τ → Hart M → Hart M} {s : Hart M} {code : List (Bool × Inst τ)} :
    Removable other s code ↔ ∀ pre inst, pre ++ [(false, inst)] <+: code →
      (s.run other (pre.map Prod.snd)).step other inst = s.run other (pre.map Prod.snd) := by
  constructor
  · intro removable pre inst here
    have before := removable pre ((List.prefix_append ..).trans here)
    have after := removable _ here
    simp only [List.map_append, List.filter_append, Hart.run_append] at after
    rw [← before] at after
    exact after
  · intro steps pre
    induction pre using List.reverseRecOn with
    | nil => exact fun _ => rfl
    | append_singleton pre marked ih =>
      intro here
      have before := ih ((List.prefix_append ..).trans here)
      obtain ⟨stays, inst⟩ := marked
      simp only [List.map_append, List.filter_append, Hart.run_append]
      rw [← before]
      cases stays with
      | true => rfl
      | false => exact steps pre inst here

/-- The code that stands in place of an instruction, the instruction marked by whether it stays. -/
def Allocation.marked (a : Allocation) (p : Patch) : List (Bool × Inst Nat) :=
  p.before.map (true, ·) ++ [((a.dropped? p).isNone, p.inst)] ++ p.after.map (true, ·)

namespace Allocation

variable {a : Allocation} {p : Patch}

/-- An instruction and the spill code around it, whether it stays or not. -/
def wholeCode (p : Patch) : List (Inst Nat) := p.before ++ [p.inst] ++ p.after

theorem map_marked (a : Allocation) (path : List Patch) :
    (path.flatMap a.marked).map Prod.snd = path.flatMap wholeCode := by
  rw [List.map_flatMap]
  apply List.flatMap_congr
  intro p _
  simp [marked, wholeCode, Function.comp_def]

theorem filter_marked (a : Allocation) (path : List Patch) :
    ((path.flatMap a.marked).filter Prod.fst).map Prod.snd = path.flatMap a.codeOf := by
  have all (insts : List (Inst Nat)) : ((insts.map (Prod.mk true)).filter Prod.fst).map Prod.snd = insts := by
    induction insts with
    | nil => rfl
    | cons inst rest ih => simpa using ih
  rw [List.filter_flatMap, List.map_flatMap]
  apply List.flatMap_congr
  intro p _
  simp only [codeOf, marked, List.filter_append, List.map_append, all]
  cases a.dropped? p <;> rfl

theorem dropped_of_marked {inst : Inst Nat} (member : (false, inst) ∈ a.marked p) :
    inst = p.inst ∧ ∃ reg, a.dropped? p = some reg := by
  simp only [marked, List.mem_append, List.mem_map, List.mem_singleton, Prod.mk.injEq, Bool.true_eq_false, false_and,
    and_false, exists_false, false_or, or_false] at member
  obtain ⟨gone, same⟩ := member
  exact ⟨same, Option.ne_none_iff_exists'.mp fun none => by simp [none] at gone⟩

theorem source_of_dropped {reg : Reg} (dropped : a.dropped? p = some reg) :
    ∃ dst src, p.source.copy? = some (dst, src) ∧ (dst.isVirt || src.isVirt) = true := by
  simp only [dropped?] at dropped
  split at dropped
  · simp only [Patch.identity?, Option.bind_eq_bind, Option.bind_eq_some_iff, Option.guard_eq_some'] at dropped
    obtain ⟨⟨dst, src⟩, copies, _, virt, -⟩ := dropped
    exact ⟨dst, src, copies, virt⟩
  · cases dropped

end Allocation

/-- Neither the scratch registers nor those that are handed out are the zero register. -/
theorem Patch.Carries.identity_ne_zero {p : Patch} {slots : List (VirtReg × UInt64)} {loads stores : List Transfer}
    {rename : Reg → Reg} {place : Reg → Reg ⊕ UInt64} (carries : p.Carries slots slots loads stores)
    (placing : Placing slots rename place) {dst src reg : Reg} (copies : p.source.copy? = some (dst, src))
    (virt : (dst.isVirt || src.isVirt) = true) (identity : (p.rename rename).inst.copy? = some (reg, reg)) :
    reg ≠ PhysReg.zero := by
  have fromLoads (operand : Reg) : (rename ∘ substitute loads) operand = PhysReg.zero ↔ operand = PhysReg.zero :=
    placing.eq_reserved (fun t member => PhysReg.mem_scratchRegs (carries.scratch t member).1) rfl rfl
  have fromStores (operand : Reg) : (rename ∘ substitute stores) operand = PhysReg.zero ↔ operand = PhysReg.zero :=
    placing.eq_reserved carries.stores_scratch rfl rfl
  rw [carries.inst_renamed, Inst.copy?_of_copy copies fromLoads, Option.some.injEq, Prod.mk.injEq] at identity
  rintro rfl
  rw [(fromStores dst).mp identity.1, (fromLoads src).mp identity.2] at virt
  cases virt

theorem dropped_copy {config : Config} {body : Body} {frame : UInt64} (plain : body = .ofBlocks body.blocks)
    (complete : (Allocation.make config body frame).plan.ending = .complete) {p : Patch}
    (member : p ∈ (Allocation.make config body frame).patches) {reg : Reg}
    (dropped : (Allocation.make config body frame).dropped? p = some reg) :
    p.inst.copy? = some (reg, reg) ∧ reg ≠ PhysReg.zero := by
  obtain ⟨n, located⟩ := List.mem_iff_getElem?.mp member
  rw [make_getElem?_patches plain complete, Option.map_eq_some_iff] at located
  obtain ⟨q, inPlan, rfl⟩ := located
  have bound := (Array.getElem?_eq_some_iff.mp inPlan).1
  rw [make_size_patches plain complete] at bound
  obtain ⟨q', loads, stores, inPlan', -, carries⟩ :=
    (spills_planned plain complete).patches n _ (List.getElem?_eq_getElem bound)
  obtain rfl : q = q' := Option.some.inj (inPlan.symm.trans inPlan')
  have identity := Allocation.copy?_of_dropped dropped
  obtain ⟨dst, src, copies, virt⟩ := Allocation.source_of_dropped dropped
  exact ⟨identity, carries.identity_ne_zero (make_placing plain complete) copies virt identity⟩

/-- Along any path through a function, what is taken out can be left out exactly where the registers fit. -/
theorem removable_marked_iff {config : Config} {body : Body} {frame : UInt64} (plain : body = .ofBlocks body.blocks)
    (complete : (Allocation.make config body frame).plan.ending = .complete) {M : Type}
    {other : Inst Nat → Hart M → Hart M} {s : Hart M} {path : List Patch}
    (members : ∀ p ∈ path, p ∈ (Allocation.make config body frame).patches) :
    Removable other s (path.flatMap (Allocation.make config body frame).marked) ↔
      ∀ pre inst, pre ++ [(false, inst)] <+: path.flatMap (Allocation.make config body frame).marked →
        ∃ reg, inst.copy? = some (reg, reg) ∧ inst.Passes ((s.run other (pre.map Prod.snd)).read reg) := by
  rw [removable_iff]
  apply forall₂_congr
  intro pre inst
  apply imp_congr_right
  intro here
  obtain ⟨p, inPath, marked⟩ := List.mem_flatMap.mp (here.subset (List.mem_append_right _ List.mem_cons_self))
  obtain ⟨rfl, reg, dropped⟩ := Allocation.dropped_of_marked marked
  obtain ⟨copies, normal⟩ := dropped_copy plain complete (members p inPath) dropped
  rw [Hart.step_eq_self_iff _ copies normal]
  constructor
  · intro passes
    exact ⟨reg, copies, passes⟩
  · rintro ⟨other, copies', passes⟩
    rw [copies] at copies'
    cases copies'
    exact passes

/-- An instruction that is written like a copy gives its destination the content of its source exactly if that fits, and
changes nothing else. The copies that an allocation takes out are missed at no point of a path exactly if the registers
that they copy fit whenever they would be reached. -/
theorem copies_removable_iff {M : Type} (other : Inst Nat → Hart M → Hart M) (s : Hart M) :
    (∀ (inst : Inst Nat) (dst src : Reg), inst.copy? = some (dst, src) → dst ≠ PhysReg.zero →
      ((s.step other inst).read dst = s.read src ↔ inst.Passes (s.read src)) ∧
        (∀ reg, reg ≠ dst → (s.step other inst).read reg = s.read reg) ∧ (s.step other inst).rest = s.rest) ∧
    ∀ (m : Machine) (f : FuncId) (node : FuncNode) (body : Body) (config : Config) (done : Machine.Allocated)
      (choice : Choice), m.WellFormed → m.func f = .ok node → m.body f = .ok body → m.allocate config f = .ok done →
      done.outcome = .ok choice →
      done.machine.HasCode f (Allocation.make config body node.frame).result ∧
        ∀ path : List Patch, (∀ p ∈ path, p ∈ (Allocation.make config body node.frame).patches) →
          (Removable other s (path.flatMap (Allocation.make config body node.frame).marked) ↔
            ∀ pre inst, pre ++ [(false, inst)] <+: path.flatMap (Allocation.make config body node.frame).marked →
              ∃ reg, inst.copy? = some (reg, reg) ∧ inst.Passes ((s.run other (pre.map Prod.snd)).read reg)) ∧
          (Removable other s (path.flatMap (Allocation.make config body node.frame).marked) →
            s.run other (path.flatMap Allocation.wholeCode) =
              s.run other (path.flatMap (Allocation.make config body node.frame).codeOf)) := by
  refine ⟨fun inst dst src copies normal => ?_, ?_⟩
  · obtain ⟨value, result, fits⟩ := s.step_of_copy copies
    rw [result, s.read_write_self normal]
    exact ⟨fits, fun reg differ => s.read_write_of_ne differ value, s.rest_write dst value⟩
  · intro m f node body config done choice ⟨code, layout, formed⟩ stored body_ok allocated success
    obtain ⟨complete, rewritten, -⟩ := formed.allocate_code stored body_ok allocated success
    refine ⟨rewritten, fun path members => ⟨?_, fun removable => ?_⟩⟩
    · exact removable_marked_iff (formed.body_eq body_ok) complete members
    · rw [← Allocation.map_marked, ← Allocation.filter_marked]
      exact removable _ List.prefix_rfl

/-- A function that extends the sign of a constant of 32 bits. -/
def smallExtended : String := ".func f\nli $r0, 7\naddiw $r0, $r0, 0\nmv a0, $r0\nret a0\n"

/-- Both copies are taken out and never missed. -/
theorem small_extension_removable :
    ∃ m node body done choice, Source.read smallExtended = .ok m ∧ m.WellFormed ∧ m.func ⟨0⟩ = .ok node ∧
      m.body ⟨0⟩ = .ok body ∧ m.allocate {} ⟨0⟩ = .ok done ∧ done.outcome = .ok choice ∧
      choice.stats.movesRemoved = 2 ∧ ∀ (other : Inst Nat → Hart Unit → Hart Unit) (s : Hart Unit),
        (s.step other (.immediate .addi (.phys (.x 10)) (.phys (.x 11)) .zero)).read (.phys (.x 10)) =
          s.read (.phys (.x 11)) ∧
        s.run other ((Allocation.make {} body node.frame).patches.flatMap Allocation.wholeCode) =
          s.run other ((Allocation.make {} body node.frame).patches.flatMap
            (Allocation.make {} body node.frame).codeOf) := by
  have run : (do
      let m ← (Source.read smallExtended).toOption
      let node ← (m.func ⟨0⟩).toOption
      let body ← (m.body ⟨0⟩).toOption
      let done ← (m.allocate {} ⟨0⟩).toOption
      let choice ← done.outcome.toOption
      return decide (choice.stats.movesRemoved = 2 ∧
        (Allocation.make {} body node.frame).patches.flatMap (Allocation.make {} body node.frame).marked =
          [(true, .li (.phys (.x 10)) 7), (false, .immediate .addiw (.phys (.x 10)) (.phys (.x 10)) .zero),
            (false, .immediate .addi (.phys (.x 10)) (.phys (.x 10)) .zero), (true, .ret [.x 10])])) = some true := by
    decide +kernel
  simp only [bind, Option.bind_eq_some_iff, toOption_eq_some, pure, Option.some.injEq, decide_eq_true_eq] at run
  obtain ⟨m, read, node, stored, body, body_ok, done, allocated, choice, success, removed, code⟩ := run
  have wellFormed := Source.read_wellFormed read
  refine ⟨m, node, body, done, choice, read, wellFormed, stored, body_ok, allocated, success, removed,
    fun other s => ?_⟩
  obtain ⟨copies, removes⟩ := copies_removable_iff other s
  constructor
  · exact (copies _ _ _ rfl (by decide)).1.mpr trivial
  · obtain ⟨-, paths⟩ := removes m ⟨0⟩ node body {} done choice wellFormed stored body_ok allocated success
    obtain ⟨iff, conserved⟩ := paths _ fun _ member => member
    apply conserved
    rw [iff, code]
    intro pre inst ⟨rest, split⟩
    match pre, split with
    | [], split => simp at split
    | [first], split =>
      simp only [List.cons_append, List.nil_append, List.cons.injEq, Prod.mk.injEq, true_and] at split
      obtain ⟨rfl, rfl, -⟩ := split
      refine ⟨.phys (.x 10), rfl, ?_⟩
      have constant : (s.run other [.li (.phys (.x 10)) 7]).read (.phys (.x 10)) = 7 :=
        s.read_write_self (by decide) _
      rw [List.map_singleton, constant]
      show -2 ^ 31 ≤ (7 : Word).toInt ∧ (7 : Word).toInt < 2 ^ 31
      decide
    | [first, second], split =>
      simp only [List.cons_append, List.nil_append, List.cons.injEq, Prod.mk.injEq, true_and] at split
      obtain ⟨rfl, rfl, rfl, -⟩ := split
      exact ⟨.phys (.x 10), rfl, trivial⟩
    | [first, second, third], split => simp at split
    | first :: second :: third :: fourth :: more, split => simp at split

/-- A function that extends the sign of a constant of more than 32 bits. -/
def largeExtended : String := ".func f\nli $r0, 4294967296\naddiw $r0, $r0, 0\nmv a0, $r0\nret a0\n"

/-- The sign extension is taken out as a copy: the function returns the constant and not zero. -/
theorem sign_extension_removed :
    ∃ m node body done choice, Source.read largeExtended = .ok m ∧ m.func ⟨0⟩ = .ok node ∧ m.body ⟨0⟩ = .ok body ∧
      m.allocate {} ⟨0⟩ = .ok done ∧ done.outcome = .ok choice ∧ choice.stats.movesRemoved = 2 ∧
      ∀ {M : Type} (other : Inst Nat → Hart M → Hart M) (s : Hart M),
        (s.run other (((Allocation.make {} body node.frame).patches.take 3).flatMap Allocation.wholeCode)).read
          (.phys (.x 10)) = 0 ∧
        (s.run other (((Allocation.make {} body node.frame).patches.take 3).flatMap
          (Allocation.make {} body node.frame).codeOf)).read (.phys (.x 10)) = 4294967296 := by
  have run : (do
      let m ← (Source.read largeExtended).toOption
      let node ← (m.func ⟨0⟩).toOption
      let body ← (m.body ⟨0⟩).toOption
      let done ← (m.allocate {} ⟨0⟩).toOption
      let choice ← done.outcome.toOption
      return decide (choice.stats.movesRemoved = 2 ∧
        ((Allocation.make {} body node.frame).patches.take 3).flatMap Allocation.wholeCode =
          [.li (.phys (.x 10)) 4294967296, .immediate .addiw (.phys (.x 10)) (.phys (.x 10)) .zero,
            .immediate .addi (.phys (.x 10)) (.phys (.x 10)) .zero] ∧
        ((Allocation.make {} body node.frame).patches.take 3).flatMap (Allocation.make {} body node.frame).codeOf =
          [.li (.phys (.x 10)) 4294967296])) = some true := by
    decide +kernel
  simp only [bind, Option.bind_eq_some_iff, toOption_eq_some, pure, Option.some.injEq, decide_eq_true_eq] at run
  obtain ⟨m, read, node, stored, body, body_ok, done, allocated, choice, success, removed, whole, kept⟩ := run
  refine ⟨m, node, body, done, choice, read, stored, body_ok, allocated, success, removed, fun other s => ?_⟩
  rw [whole, kept]
  have normal : Reg.phys (.x 10) ≠ PhysReg.zero := by decide
  constructor
  · simp only [Hart.run, Hart.step, Inst.result?, List.foldl_cons, List.foldl_nil, Hart.read_write_self _ normal]
    decide
  · exact s.read_write_self normal _

end RegisterAllocator
