import RegisterAllocator.Proofs.Copies
import RegisterAllocator.Proofs.Independence

/-!
# Slots of the frame

Registers that go to the stack get slots of eight bytes one after the other, from the end of the frame that the function
came with (`SlotsInOrder`). The code that accesses a slot computes its address from the stack pointer: executed on a
memory of bytes it makes one access, at that address, and overwrites nothing that it should not
(`Hart.Loads`, `Hart.Stores`). An address that does not fit into the access cannot be computed in the zero register.
-/

namespace RegisterAllocator

/-! ## A memory of bytes -/

def RegFile.wideLoad : RegFile → LoadOp
  | general => .ld
  | float => .fld

def RegFile.wideStore : RegFile → StoreOp
  | general => .sd
  | float => .fsd

inductive Access where
  | load (op : LoadOp) (address : Word)
  | store (op : StoreOp) (address value : Word)
deriving DecidableEq, Repr

/-- Bytes, and the accesses to them so far. -/
structure Memory where
  bytes : Word → BitVec 8
  accesses : List Access

namespace Memory

/-- The eight bytes from an address on, the lowest first. -/
def word (memory : Memory) (address : Word) : Word :=
  let byte (n : Nat) := memory.bytes (address + BitVec.ofNat 64 n)
  byte 7 ++ byte 6 ++ byte 5 ++ byte 4 ++ byte 3 ++ byte 2 ++ byte 1 ++ byte 0

def noteLoad (memory : Memory) (op : LoadOp) (address : Word) : Memory :=
  { memory with accesses := memory.accesses ++ [.load op address] }

def store (memory : Memory) (op : StoreOp) (address value : Word) : Memory where
  bytes place :=
    let distance := (place - address).toNat
    if distance < 8 then value.extractLsb' (8 * distance) 8 else memory.bytes place
  accesses := memory.accesses ++ [.store op address value]

theorem bytes_store (memory : Memory) (op : StoreOp) (address value : Word) {n : Nat} (near : n < 8) :
    (memory.store op address value).bytes (address + BitVec.ofNat 64 n) = value.extractLsb' (8 * n) 8 := by
  have distance : (address + BitVec.ofNat 64 n - address).toNat = n := by
    rw [BitVec.add_comm, BitVec.add_sub_cancel, BitVec.toNat_ofNat]
    omega
  simp only [store, distance, if_pos near]

theorem word_store (memory : Memory) (op : StoreOp) (address value : Word) :
    (memory.store op address value).word address = value := by
  have byte {n : Nat} (near : n < 8) := memory.bytes_store op address value near
  simp only [word, byte, Nat.reduceLT]
  apply BitVec.eq_of_getLsbD_eq
  intro i bound
  simp only [BitVec.getLsbD_append, BitVec.getLsbD_extractLsb']
  grind

end Memory

namespace Hart

variable {τ : Type}

/-- Execute a load or store of eight bytes. What other instructions do that cannot be written like copies is left
open. -/
def access (other : Inst τ → Hart Memory → Hart Memory) (inst : Inst τ) (s : Hart Memory) : Hart Memory :=
  match inst with
  | .load op rd base offset =>
    let address := s.read base + offset.bits.signExtend 64
    if op = .ld ∨ op = .fld then { s with rest := s.rest.noteLoad op address }.write rd (s.rest.word address)
    else other inst s
  | .store op source base offset =>
    let address := s.read base + offset.bits.signExtend 64
    if op = .sd ∨ op = .fsd then { s with rest := s.rest.store op address (s.read source) } else other inst s
  | _ => other inst s

/-- From `s` to `t` the slot at `offset` has been loaded: by one access, as wide as a register, into `data`. An address
that does not fit into the access has been computed in `address`. -/
structure Loads (data address : PhysReg) (offset : UInt64) (s t : Hart Memory) : Prop where
  access : t.rest = s.rest.noteLoad data.file.wideLoad (s.read PhysReg.sp + offset.toBitVec)
  loaded : data ≠ PhysReg.zero → t.read data = s.rest.word (s.read PhysReg.sp + offset.toBitVec)
  others : ∀ reg : Reg, reg ≠ data → (slotFits offset = true ∨ reg ≠ address) → t.read reg = s.read reg

/-- From `s` to `t` the register `data` has been stored into the slot at `offset`. -/
structure Stores (data address : PhysReg) (offset : UInt64) (s t : Hart Memory) : Prop where
  access : t.rest = s.rest.store data.file.wideStore (s.read PhysReg.sp + offset.toBitVec) (s.read data)
  stored : t.rest.word (s.read PhysReg.sp + offset.toBitVec) = s.read data
  others : ∀ reg : Reg, (slotFits offset = true ∨ reg ≠ address) → t.read reg = s.read reg

end Hart

/-! ## Addresses -/

theorem Imm12.signExtend_of_ofNat? {offset : UInt64} {small : Imm12} (fits : Imm12.ofNat? offset.toNat = some small) :
    small.bits.signExtend 64 = offset.toBitVec := by
  have value : small.bits.toInt = offset.toNat := Imm12.toInt_of_ofInt? fits
  have bound : offset.toNat ≤ 2047 := by
    unfold Imm12.ofNat? Imm12.ofInt? at fits
    split at fits
    · omega
    · cases fits
  apply BitVec.eq_of_toInt_eq
  rw [BitVec.toInt_signExtend_of_le (by decide), value, BitVec.toInt_eq_toNat_of_lt]
  · rfl
  · show 2 * offset.toNat < 2 ^ 64
    omega

namespace Hart

variable {τ : Type} {other : Inst τ → Hart Memory → Hart Memory} {address : PhysReg} {offset : UInt64}

/-- What precedes the access leaves its address in the base register and changes at most the address register. -/
theorem run_accessSlot (other : Inst τ → Hart Memory → Hart Memory) (s : Hart Memory) (make : Reg → Imm12 → Inst τ)
    (usable : slotFits offset = false → address ≠ PhysReg.sp ∧ address ≠ PhysReg.zero) :
    ∃ (t : Hart Memory) (base : Reg) (small : Imm12),
      s.run (access other) (Inst.accessSlot make address offset) = t.step (access other) (make base small) ∧
      t.read base + small.bits.signExtend 64 = s.read PhysReg.sp + offset.toBitVec ∧ t.rest = s.rest ∧
      ∀ reg : Reg, (slotFits offset = true ∨ reg ≠ address) → t.read reg = s.read reg := by
  unfold Inst.accessSlot
  split
  · next small fits =>
    refine ⟨s, PhysReg.sp, small, rfl, ?_, rfl, fun _ _ => rfl⟩
    rw [Imm12.signExtend_of_ofNat? fits]
  · next far =>
    have beyond : slotFits offset = false := by rw [slotFits, far]; rfl
    obtain ⟨notSp, notZero⟩ := usable beyond
    have normal : (address : Reg) ≠ PhysReg.zero := fun same => notZero (Reg.phys.inj same)
    have apart : (PhysReg.sp : Reg) ≠ address := fun same => notSp (Reg.phys.inj same).symm
    have sum : (s.write address offset.toBitVec).read PhysReg.sp + (s.write address offset.toBitVec).read address =
        s.read PhysReg.sp + offset.toBitVec := by
      rw [s.read_write_of_ne apart, s.read_write_self normal]
    refine ⟨(s.write address offset.toBitVec).write address (s.read PhysReg.sp + offset.toBitVec), address, Imm12.zero,
      ?_, ?_, ?_, fun reg kept => ?_⟩
    · rw [← sum]
      rfl
    · rw [read_write_self _ normal]
      show _ + BitVec.signExtend 64 0#12 = _
      simp
    · rw [rest_write, rest_write]
    · have differ := kept.resolve_left (by simp [beyond])
      rw [read_write_of_ne _ differ, read_write_of_ne _ differ]

theorem step_load (other : Inst τ → Hart Memory → Hart Memory) (t : Hart Memory) (file : RegFile) (rd base : Reg)
    (small : Imm12) : t.step (access other) (.load file.wideLoad rd base small) =
      { t with rest := t.rest.noteLoad file.wideLoad (t.read base + small.bits.signExtend 64) }.write rd
        (t.rest.word (t.read base + small.bits.signExtend 64)) := by
  cases file <;> rfl

theorem step_store (other : Inst τ → Hart Memory → Hart Memory) (t : Hart Memory) (file : RegFile) (source base : Reg)
    (small : Imm12) : t.step (access other) (.store file.wideStore source base small) =
      { t with rest := t.rest.store file.wideStore (t.read base + small.bits.signExtend 64) (t.read source) } := by
  cases file <;> rfl

theorem loads_loadSlot (other : Inst τ → Hart Memory → Hart Memory) (s : Hart Memory) (data : PhysReg)
    (usable : slotFits offset = false → address ≠ PhysReg.sp ∧ address ≠ PhysReg.zero) :
    s.Loads data address offset (s.run (access other) (Inst.loadSlot data address offset)) := by
  obtain ⟨t, base, small, ends, addressed, rest, kept⟩ :=
    s.run_accessSlot other (Inst.load data.file.wideLoad data) usable
  have code : Inst.loadSlot data address offset =
      Inst.accessSlot (Inst.load (τ := τ) data.file.wideLoad data) address offset := rfl
  rw [code, ends, step_load, addressed, rest]
  constructor
  · rw [rest_write]
  · intro normal
    exact read_write_self _ (fun same => normal (Reg.phys.inj same)) _
  · intro reg differ unused
    rw [read_write_of_ne _ differ]
    exact kept reg unused

theorem stores_storeSlot (other : Inst τ → Hart Memory → Hart Memory) (s : Hart Memory) (data : PhysReg)
    (usable : slotFits offset = false → address ≠ PhysReg.sp ∧ address ≠ PhysReg.zero)
    (apart : slotFits offset = false → address ≠ data) :
    s.Stores data address offset (s.run (access other) (Inst.storeSlot data address offset)) := by
  obtain ⟨t, base, small, ends, addressed, rest, kept⟩ :=
    s.run_accessSlot other (Inst.store data.file.wideStore data) usable
  have untouched : t.read data = s.read data := by
    apply kept
    cases fits : slotFits offset with
    | true => exact .inl rfl
    | false => exact .inr fun same => apart fits (Reg.phys.inj same).symm
  have code : Inst.storeSlot data address offset =
      Inst.accessSlot (Inst.store (τ := τ) data.file.wideStore data) address offset := rfl
  rw [code, ends, step_store, addressed, rest, untouched]
  constructor
  · rfl
  · exact Memory.word_store ..
  · exact kept

end Hart

/-! ## Where the code is linked -/

namespace Machine

variable {m m' : Machine} {code : BlockId → List InstId} {layout : FuncId → List BlockId} {b : BlockId}
  {pre post : List InstId} {i : InstId}

/-- The machine `m'` is `m` with new instructions between `pre` and `post` in a block. -/
def Inserts (m m' : Machine) (b : BlockId) (pre : List InstId) (insts : List (Inst BlockId)) (post : List InstId) :
    Prop :=
  ∃ ids, m'.code b = .ok (pre ++ ids ++ post) ∧ List.Forall₂ (fun i inst => m'.inst i = .ok inst) ids insts ∧
    (∀ i inst, m.inst i = .ok inst → m'.inst i = .ok inst) ∧
    ∀ other ids, other ≠ b → m.code other = .ok ids → m'.code other = .ok ids

theorem Keeps.code_ok (keeps : Keeps m m') (formed : m'.Formed code layout) {ids : List InstId}
    (coded : m.code b = .ok ids) : m'.code b = .ok (code b) := by
  simp only [Machine.code, Chain.toList, Chain.Cursor.start, bind_eq_ok, Chain.ends_eq_ok] at coded
  obtain ⟨_, ⟨_, stored, -⟩, -⟩ := coded
  apply Chain.toList_linked formed.code
  have same := congrArg Option.isSome (keeps.labels b.slot)
  simp only [Chained.ends?, Option.isSome_map] at stored same ⊢
  rw [same]
  cases found : m.blocks.get? b.slot with
  | none => simp [found] at stored
  | some node => rfl

theorem Formed.inserts (formed : m.Formed code layout) (coded : m.code b = .ok (pre ++ i :: post))
    {before after : List InstId} {insts : List (Inst BlockId)} {ids : List InstId}
    (formed' : m'.Formed (Function.update code b (before ++ ids ++ after)) layout) (fresh : Fresh m m' ids insts)
    (keeps : Keeps m m') : m.Inserts m' b before insts after := by
  refine ⟨ids, ?_, fresh.stored, keeps.insts, fun other ids differ coded' => ?_⟩
  · rw [keeps.code_ok formed' coded, Function.update_self]
  · rw [keeps.code_ok formed' coded', Function.update_of_ne differ, formed.code_eq coded']

theorem WellFormed.insertBefore (wellFormed : m.WellFormed) (coded : m.code b = .ok (pre ++ i :: post))
    (insts : List (Inst BlockId)) :
    ∃ m', m.insertBefore i insts = .ok m' ∧ m.Inserts m' b pre insts (i :: post) := by
  obtain ⟨code, layout, formed⟩ := wellFormed
  obtain ⟨m', ids, inserted, formed', fresh, keeps⟩ := formed.insertBefore (formed.code_eq coded).symm insts
  exact ⟨m', inserted, formed.inserts coded formed' fresh keeps⟩

theorem WellFormed.insertAfter (wellFormed : m.WellFormed) (coded : m.code b = .ok (pre ++ i :: post))
    (insts : List (Inst BlockId)) :
    ∃ m', m.insertAfter i insts = .ok m' ∧ m.Inserts m' b (pre ++ [i]) insts post := by
  obtain ⟨code, layout, formed⟩ := wellFormed
  obtain ⟨m', ids, inserted, formed', fresh, keeps⟩ := formed.insertAfter (formed.code_eq coded).symm insts
  refine ⟨m', inserted, formed.inserts coded ?_ fresh keeps⟩
  simpa using formed'

end Machine

/-! ## Slots one after the other -/

/-- The registers `regs` have slots of eight bytes, in that order, between the old end of a frame and the new one. -/
structure SlotsInOrder (frame frame' : UInt64) (regs : List VirtReg) (slots : VirtMap UInt64) : Prop where
  once : regs.Nodup
  count : slots.length = regs.length
  offsets : ∀ v offset, (v, offset) ∈ slots ↔ ∃ n, regs[n]? = some v ∧ offset.toNat = frame.toNat + 8 * n
  grown : frame'.toNat = frame.toNat + 8 * regs.length
  apart : ∀ v w p q, (v, p) ∈ slots → (w, q) ∈ slots → v ≠ w → p.toNat + 8 ≤ q.toNat ∨ q.toNat + 8 ≤ p.toNat
  within : ∀ v p, (v, p) ∈ slots → frame.toNat ≤ p.toNat ∧ p.toNat + 8 ≤ frame'.toNat

namespace SpillPlan

variable {live : LiveRanges} {body : Body} {frame : UInt64} {regs : List VirtReg}

/-- All that is moved is moved between a scratch register of its file and its slot, and addresses are computed in general
registers. -/
theorem make_transfer {step : SpillStep} {t : Transfer} (complete : (make live body frame regs).ending = .complete)
    (member : step ∈ (make live body frame regs).steps) (moves : step.transfer? = some t) :
    (t.reg, t.offset) ∈ (make live body frame regs).slots ∧ t.data ∈ PhysReg.scratch t.reg.file ∧
      (slotFits t.offset = false → t.address ∈ PhysReg.scratchGeneral) := by
  induction regs using List.reverseRecOn with
  | nil => cases member
  | append_singleton regs reg ih =>
    rw [make_concat] at complete member ⊢
    obtain ⟨before, -, _, _, _, _, _, -, reloaded, writtenBack, result⟩ := spill_ok complete
    rw [result, List.mem_append, List.mem_append, List.mem_append, List.mem_singleton] at member
    rw [result, List.mem_append]
    rcases member with ((old | rfl) | load) | store
    · exact (ih before old).imp_left .inl
    · cases moves
    · obtain ⟨_, -, _, rfl, moved⟩ := forall₂_mem_right (reloads_steps reloaded) load
      cases moves
      refine ⟨?_, moved.data, moved.address⟩
      rw [moved.reg, moved.offset]
      exact .inr List.mem_cons_self
    · obtain ⟨_, -, _, rfl, moved⟩ := forall₂_mem_right (writeBacks_steps writtenBack) store
      cases moves
      refine ⟨?_, moved.data, moved.address⟩
      rw [moved.reg, moved.offset]
      exact .inr List.mem_cons_self

theorem make_offsets (complete : (make live body frame regs).ending = .complete) (v : VirtReg) (offset : UInt64) :
    (v, offset) ∈ (make live body frame regs).slots ↔ ∃ n, regs[n]? = some v ∧ offset.toNat = frame.toNat + 8 * n := by
  induction regs using List.reverseRecOn with
  | nil => simp [make]
  | append_singleton regs reg ih =>
    rw [make_concat] at complete ⊢
    obtain ⟨before, -, _, _, _, _, _, -, -, -, result⟩ := spill_ok complete
    have size := (make_frame before).1
    rw [result, List.mem_append, ih before, List.mem_singleton, Prod.mk.injEq]
    constructor
    · rintro (⟨n, located, there⟩ | ⟨rfl, rfl⟩)
      · exact ⟨n, List.getElem?_append_left (List.getElem?_eq_some_iff.mp located).1 ▸ located, there⟩
      · exact ⟨regs.length, by simp, size⟩
    · rintro ⟨n, located, there⟩
      by_cases old : n < regs.length
      · exact .inl ⟨n, by rwa [List.getElem?_append_left old] at located, there⟩
      · have bound := (List.getElem?_eq_some_iff.mp located).1
        rw [List.length_append, List.length_singleton] at bound
        obtain rfl : n = regs.length := by omega
        exact .inr ⟨by simpa using located.symm, UInt64.toNat_inj.mp (there.trans size.symm)⟩

theorem make_slotsInOrder (once : regs.Nodup) (complete : (make live body frame regs).ending = .complete) :
    SlotsInOrder frame (make live body frame regs).frame regs (.ofList (make live body frame regs).slots) := by
  have size := (make_frame complete).1
  have keys := make_slots complete
  have perm := VirtMap.ofList_perm (keys.symm ▸ once)
  have members (v : VirtReg) (offset : UInt64) : (v, offset) ∈ VirtMap.ofList (make live body frame regs).slots ↔
      ∃ n, regs[n]? = some v ∧ offset.toNat = frame.toNat + 8 * n := perm.mem_iff.trans (make_offsets complete v offset)
  refine ⟨once, ?_, members, size, fun v w p q inV inW differ => ?_, fun v p member => ?_⟩
  · rw [perm.length_eq, ← List.length_map (f := Prod.fst), keys]
  · obtain ⟨n, locatedV, thereV⟩ := (members v p).mp inV
    obtain ⟨k, locatedW, thereW⟩ := (members w q).mp inW
    have apart : n ≠ k := by
      rintro rfl
      exact differ (Option.some.inj (locatedV.symm.trans locatedW))
    omega
  · obtain ⟨n, located, there⟩ := (members v p).mp member
    have bound := (List.getElem?_eq_some_iff.mp located).1
    omega

end SpillPlan

/-- The registers of a function that go to the stack, in the order in which they go there, and the transfers of their
spill code. -/
def Machine.spilling (m : Machine) (config : Config) (f : FuncId) : Except Fault (List VirtReg × List Transfer) := do
  let node ← m.func f
  if node.layout.head.isNone then return ([], [])
  let a := Allocation.make config (← m.body f) node.frame
  return (a.problem.spills a.search.decisions, a.plan.steps.filterMap SpillStep.transfer?)

namespace Machine

variable {m : Machine} {config : Config} {f : FuncId} {node : FuncNode} {done : Allocated} {choice : Choice}

theorem allocate_bare (stored : m.func f = .ok node) (bare : node.layout.head = none)
    (allocated : m.allocate config f = .ok done) (success : done.outcome = .ok choice) :
    done.machine = m ∧ choice = {} := by
  simp only [allocate, stored, ok_bind, bare, Option.isNone_none, if_true, pure_eq_ok] at allocated
  subst allocated
  exact ⟨rfl, (Except.ok.inj success).symm⟩

theorem allocate_slotsInOrder (allocated : m.allocate config f = .ok done) (success : done.outcome = .ok choice) :
    ∃ node node' regs transfers, m.func f = .ok node ∧ done.machine.func f = .ok node' ∧
      m.spilling config f = .ok (regs, transfers) ∧ SlotsInOrder node.frame node'.frame regs choice.slots ∧
      ∀ t ∈ transfers, (t.reg, t.offset) ∈ choice.slots ∧ t.data ∈ PhysReg.scratch t.reg.file ∧
        (slotFits t.offset = false → t.address ∈ PhysReg.scratchGeneral) := by
  obtain ⟨node, stored, carriedOut⟩ := allocate_ok allocated success
  by_cases bare : node.layout.head = none
  · obtain ⟨same, rfl⟩ := allocate_bare stored bare allocated success
    refine ⟨node, node, [], [], stored, same ▸ stored, ?_, ?_, nofun⟩
    · simp only [spilling, stored, ok_bind, bare]
      rfl
    · constructor <;> simp
  · obtain ⟨body, ids, planned, body_ok, -, complete, plan_ok, result_ok, rfl⟩ :=
      carriedOut.resolve_left fun left => bare left.1
    have filled : ¬ node.layout.head.isNone = true := by simpa using bare
    have record := (applied_record stored complete plan_ok result_ok).1
    have inOrder : SlotsInOrder node.frame (Allocation.make config body node.frame).plan.frame
        ((Allocation.make config body node.frame).problem.spills
          (Allocation.make config body node.frame).search.decisions) (Allocation.make config body node.frame).slots :=
      SpillPlan.make_slotsInOrder (@spills_nodup config body node.frame) complete
    have moved : ∀ t ∈ (Allocation.make config body node.frame).plan.steps.filterMap SpillStep.transfer?,
        (t.reg, t.offset) ∈ (Allocation.make config body node.frame).slots ∧ t.data ∈ PhysReg.scratch t.reg.file ∧
          (slotFits t.offset = false → t.address ∈ PhysReg.scratchGeneral) := by
      intro t member
      obtain ⟨step, inSteps, moves⟩ := List.mem_filterMap.mp member
      have once := plan_slots complete ▸ @spills_nodup config body node.frame
      exact (SpillPlan.make_transfer complete inSteps moves).imp_left (VirtMap.ofList_perm once).mem_iff.mpr
    refine ⟨node, (Allocation.make config body node.frame).record node, _, _, stored, record, ?_, inOrder, moved⟩
    simp only [spilling, stored, body_ok, ok_bind, if_neg filled]
    rfl

end Machine

/-- Slots overlap neither each other nor the frame that a function came with, and spill code is linked right beside its
instruction and accesses its slot, provided that an address that does not fit is computed in a register that can hold
it. Execution gives a sum a value in the registers of both files; the spill code of an allocation computes addresses in
general registers only. -/
theorem slots_disjoint_and_addressed :
    (∀ (m : Machine) config f done choice, m.allocate config f = .ok done → done.outcome = .ok choice →
      ∃ node node' regs transfers, m.func f = .ok node ∧ done.machine.func f = .ok node' ∧
        m.spilling config f = .ok (regs, transfers) ∧ SlotsInOrder node.frame node'.frame regs choice.slots ∧
        ∀ t ∈ transfers, (t.reg, t.offset) ∈ choice.slots ∧ t.data ∈ PhysReg.scratch t.reg.file ∧
          (slotFits t.offset = false → t.address ∈ PhysReg.scratchGeneral)) ∧
    (∀ (m : Machine) b pre i post data address offset, m.WellFormed → m.code b = .ok (pre ++ i :: post) →
      (∃ m', m.insertBefore i (Inst.loadSlot data address offset) = .ok m' ∧
        m.Inserts m' b pre (Inst.loadSlot data address offset) (i :: post)) ∧
      ∃ m', m.insertAfter i (Inst.storeSlot data address offset) = .ok m' ∧
        m.Inserts m' b (pre ++ [i]) (Inst.storeSlot data address offset) post) ∧
    ∀ (τ : Type) (other : Inst τ → Hart Memory → Hart Memory) (s : Hart Memory) data address offset,
      (slotFits offset = false → address ≠ PhysReg.sp ∧ address ≠ PhysReg.zero) →
      s.Loads data address offset (s.run (Hart.access other) (Inst.loadSlot data address offset)) ∧
      ((slotFits offset = false → address ≠ data) →
        s.Stores data address offset (s.run (Hart.access other) (Inst.storeSlot data address offset))) := by
  refine ⟨?_, ?_, ?_⟩
  · intro m config f done choice allocated success
    exact Machine.allocate_slotsInOrder allocated success
  · intro m b pre i post data address offset wellFormed coded
    exact ⟨wellFormed.insertBefore coded _, wellFormed.insertAfter coded _⟩
  · intro τ other s data address offset usable
    exact ⟨s.loads_loadSlot other data usable, s.stores_storeSlot other data usable⟩

/-- Two values that go to the stack, at the last offset that fits and the first that does not. -/
def edge : String := ".func f\n.frame 2040\nli $r0, 1\nli $r1, 2\nadd a0, $r0, $r1\nret a0\n"

theorem edge_slots :
    ∃ m done choice, Source.read edge = .ok m ∧ m.allocate { registerLimit := some 0 } ⟨0⟩ = .ok done ∧
      done.outcome = .ok choice ∧ choice.slots.map Prod.snd = [2040, 2048] ∧
      (∃ node node' regs transfers, m.func ⟨0⟩ = .ok node ∧ done.machine.func ⟨0⟩ = .ok node' ∧
        m.spilling { registerLimit := some 0 } ⟨0⟩ = .ok (regs, transfers) ∧
        SlotsInOrder node.frame node'.frame regs choice.slots) ∧
      (∃ m', m.insertBefore ⟨2⟩ (Inst.loadSlot (.x 5) (.x 5) 2048) = .ok m' ∧
        m.Inserts m' ⟨0⟩ [⟨0⟩, ⟨1⟩] (Inst.loadSlot (.x 5) (.x 5) 2048) [⟨2⟩, ⟨3⟩]) ∧
      slotFits 2048 = false ∧
      Hart.Loads (.x 5) (.x 5) 2048 ⟨fun _ => 8, ⟨fun _ => 0, []⟩⟩
        (Hart.run (Hart.access fun _ s => s) ⟨fun _ => 8, ⟨fun _ => 0, []⟩⟩
          (Inst.loadSlot (τ := Nat) (.x 5) (.x 5) 2048)) ∧
      Hart.Stores (.x 6) (.x 5) 2048 ⟨fun _ => 8, ⟨fun _ => 0, []⟩⟩
        (Hart.run (Hart.access fun _ s => s) ⟨fun _ => 8, ⟨fun _ => 0, []⟩⟩
          (Inst.storeSlot (τ := Nat) (.x 6) (.x 5) 2048)) := by
  have run : (do
      let m ← (Source.read edge).toOption
      let done ← (m.allocate { registerLimit := some 0 } ⟨0⟩).toOption
      let choice ← done.outcome.toOption
      let code ← (m.code ⟨0⟩).toOption
      return decide (choice.slots.map Prod.snd = [2040, 2048] ∧ code = [⟨0⟩, ⟨1⟩] ++ ⟨2⟩ :: [⟨3⟩])) = some true := by
    decide +kernel
  simp only [bind, Option.bind_eq_some_iff, toOption_eq_some, pure, Option.some.injEq, decide_eq_true_eq] at run
  obtain ⟨m, read, done, allocated, choice, success, code, coded, offsets, rfl⟩ := run
  obtain ⟨inOrder, linked, executed⟩ := slots_disjoint_and_addressed
  obtain ⟨node, node', regs, transfers, stored, stored', spilling, slots, -⟩ := inOrder _ _ _ _ _ allocated success
  have far : slotFits 2048 = false := by decide
  obtain ⟨loads, -⟩ := executed Nat (fun _ s => s) ⟨fun _ => 8, ⟨fun _ => 0, []⟩⟩ (.x 5) (.x 5) 2048 fun _ => by decide
  obtain ⟨-, stores⟩ := executed Nat (fun _ s => s) ⟨fun _ => 8, ⟨fun _ => 0, []⟩⟩ (.x 6) (.x 5) 2048 fun _ => by decide
  exact ⟨m, done, choice, read, allocated, success, offsets,
    ⟨node, node', regs, transfers, stored, stored', spilling, slots⟩,
    (linked m _ _ _ _ _ _ _ (Source.read_wellFormed read) coded).1, far, loads, stores fun _ => by decide⟩

/-- In the zero register the address of a far slot is lost, and the access goes elsewhere. -/
theorem zero_holds_no_address :
    ¬ ∀ (s : Hart Memory) (data address : PhysReg) (offset : UInt64), address ≠ PhysReg.sp →
      s.Loads data address offset
        (s.run (Hart.access fun _ t => t) (Inst.loadSlot (τ := Nat) data address offset)) := by
  intro all
  have loads := all ⟨fun _ => 8, ⟨fun _ => 0, []⟩⟩ (.x 5) PhysReg.zero 4096 (by decide)
  have accesses := congrArg Memory.accesses loads.access
  exact absurd accesses (by decide)

end RegisterAllocator
