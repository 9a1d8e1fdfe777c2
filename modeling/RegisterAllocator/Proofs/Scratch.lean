import RegisterAllocator.Proofs.Conservation

/-!
# Scratch registers in spill code

Which scratch registers the spill code around an instruction overwrites (`spill_code_overwrites_iff`). Values are loaded
into the registers that the instruction does not read, in the order of the slots, and stored from fixed registers. Whether
the code keeps a value of its own in such a register is not looked at, so spill code may destroy one
(`live_scratch_overwritten`).
-/

namespace RegisterAllocator

/-! ## Scratch registers that are free -/

theorem find?_not_mem_take {α : Type} [DecidableEq α] {list : List α} (nodup : list.Nodup) (k : Nat) :
    list.find? (fun a => a ∉ list.take k) = list[k]? := by
  have go (pre post : List α) (nodup : (pre ++ post).Nodup) :
      (pre ++ post).find? (fun a => a ∉ pre) = post.head? := by
    have none : pre.find? (fun a => a ∉ pre) = none := List.find?_eq_none.mpr (by simp)
    rw [List.find?_append, none, Option.none_or]
    cases post with
    | nil => rfl
    | cons first rest =>
      have outside : first ∉ pre := fun inside =>
        (List.nodup_append.mp nodup).2.2 first inside first List.mem_cons_self rfl
      simp [outside]
  have whole := List.take_append_drop k list
  rw [← List.head?_drop, ← go (list.take k) (list.drop k) (whole.symm ▸ nodup), whole]

namespace Inst

def freeScratch (inst : Inst Nat) (file : RegFile) : List PhysReg :=
  (PhysReg.scratch file).filter fun reg => .phys reg ∉ inst.uses

/-- The number of registers of a file that an instruction reads from the given slots. -/
def readFrom (inst : Inst Nat) (slots : List (VirtReg × UInt64)) (file : RegFile) : Nat :=
  slots.countP fun slot => slot.1.file = file ∧ .virt slot.1 ∈ inst.uses

/-- The scratch register of a file that comes next when the registers in the given slots are loaded. -/
def nextScratch? (inst : Inst Nat) (slots : List (VirtReg × UInt64)) (file : RegFile) : Option PhysReg :=
  (inst.freeScratch file)[inst.readFrom slots file]?

end Inst

def Overwrites (insts : List (Inst Nat)) (reg : PhysReg) : Prop := ∃ inst ∈ insts, .phys reg ∈ inst.defs

/-- A load from a slot before an instruction writes a scratch register, for the value or, if that is no address, for the
address of a slot that is far off. -/
def Inst.LoadsInto (inst : Inst Nat) (slots : List (VirtReg × UInt64)) (reg : PhysReg) : Prop :=
  ∃ slot ∈ slots, .virt slot.1 ∈ inst.uses ∧
    (slot.1.file = reg.file ∨ slot.1.file = .float ∧ slotFits slot.2 = false ∧ reg.file = .general) ∧
    inst.nextScratch? (slots.filter (·.2 < slot.2)) reg.file = some reg

/-- A scratch register is written for a store into a slot after an instruction, for the value, if the instruction is
kept, or for the address of a slot that is far off. -/
def Inst.StoresFrom (inst : Inst Nat) (kept : Prop) (slots : List (VirtReg × UInt64)) (reg : PhysReg) : Prop :=
  ∃ slot ∈ slots, .virt slot.1 ∈ inst.defs ∧
    (kept ∧ reg = (writeBackRegs slot.1.file slot.2).1 ∨
      slotFits slot.2 = false ∧ reg = (writeBackRegs slot.1.file slot.2).2)

instance (insts : List (Inst Nat)) (reg : PhysReg) : Decidable (Overwrites insts reg) :=
  inferInstanceAs (Decidable (∃ inst ∈ insts, _))

instance (inst : Inst Nat) (slots : List (VirtReg × UInt64)) (reg : PhysReg) : Decidable (inst.LoadsInto slots reg) :=
  inferInstanceAs (Decidable (∃ slot ∈ slots, _))

instance (inst : Inst Nat) (kept : Prop) [Decidable kept] (slots : List (VirtReg × UInt64)) (reg : PhysReg) :
    Decidable (inst.StoresFrom kept slots reg) :=
  inferInstanceAs (Decidable (∃ slot ∈ slots, _))

section

variable {reg data address : PhysReg} {offset : UInt64}

theorem overwrites_append {insts insts' : List (Inst Nat)} :
    Overwrites (insts ++ insts') reg ↔ Overwrites insts reg ∨ Overwrites insts' reg := by
  simp only [Overwrites, List.mem_append, or_and_right, exists_or]

theorem overwrites_flatMap {α : Type} {list : List α} {code : α → List (Inst Nat)} :
    Overwrites (list.flatMap code) reg ↔ ∃ a ∈ list, Overwrites (code a) reg := by
  simp only [Overwrites, List.mem_flatMap]
  constructor
  · rintro ⟨inst, ⟨a, member, here⟩, writes⟩
    exact ⟨a, member, inst, here, writes⟩
  · rintro ⟨a, member, inst, here, writes⟩
    exact ⟨inst, ⟨a, member, here⟩, writes⟩

theorem overwrites_accessSlot {access : Reg → Imm12 → Inst Nat} (defs : List Reg)
    (plain : ∀ base offset, (access base offset).defs = defs) :
    Overwrites (Inst.accessSlot access address offset) reg ↔
      .phys reg ∈ defs ∨ slotFits offset = false ∧ reg = address := by
  unfold Inst.accessSlot slotFits
  cases Imm12.ofNat? offset.toNat with
  | some small => simp [Overwrites, plain]
  | none =>
    have constant (value : Int64) : (Inst.li address value : Inst Nat).defs = [.phys address] := rfl
    have sum : (Inst.binary .add address PhysReg.sp address : Inst Nat).defs = [.phys address] := rfl
    simp [Overwrites, plain, constant, sum, or_comm]

theorem overwrites_loadSlot :
    Overwrites (Inst.loadSlot data address offset) reg ↔ reg = data ∨ slotFits offset = false ∧ reg = address := by
  apply (overwrites_accessSlot [.phys data] fun _ _ => rfl).trans
  simp

theorem overwrites_storeSlot :
    Overwrites (Inst.storeSlot data address offset) reg ↔ slotFits offset = false ∧ reg = address := by
  apply (overwrites_accessSlot [] fun _ _ => rfl).trans
  simp

end

/-! ## The registers of loads -/

namespace Inst

variable {inst : Inst Nat} {slots : List (VirtReg × UInt64)} {file : RegFile} {offset : UInt64}

theorem freeScratch_nodup (inst : Inst Nat) (file : RegFile) : (inst.freeScratch file).Nodup := by
  have once : (PhysReg.scratch file).Nodup := by cases file <;> decide
  exact once.filter _

theorem mem_freeScratch {reg : PhysReg} (free : reg ∈ inst.freeScratch file) :
    reg.file = file ∧ .phys reg ∉ inst.uses := by
  have own : ∀ reg ∈ PhysReg.scratch file, reg.file = file := by cases file <;> decide
  obtain ⟨member, unread⟩ := List.mem_filter.mp free
  exact ⟨own reg member, of_decide_eq_true unread⟩

theorem mem_of_nextScratch? {reg : PhysReg} (found : inst.nextScratch? slots file = some reg) :
    reg.file = file ∧ .phys reg ∉ inst.uses := mem_freeScratch (List.mem_of_getElem? found)

theorem readFrom_append {slot : VirtReg × UInt64} : inst.readFrom (slots ++ [slot]) file =
    inst.readFrom slots file + if slot.1.file = file ∧ .virt slot.1 ∈ inst.uses then 1 else 0 := by
  simp [readFrom, List.countP_append, List.countP_singleton]

/-- A slot behind all others leaves the registers of their loads as they are. -/
theorem loadsInto_append {reg : PhysReg} {slot : VirtReg × UInt64} (below : ∀ other ∈ slots, other.2 < slot.2) :
    inst.LoadsInto (slots ++ [slot]) reg ↔ inst.LoadsInto slots reg ∨ .virt slot.1 ∈ inst.uses ∧
      (slot.1.file = reg.file ∨ slot.1.file = .float ∧ slotFits slot.2 = false ∧ reg.file = .general) ∧
      inst.nextScratch? slots reg.file = some reg := by
  have same (other : VirtReg × UInt64) (member : other ∈ slots) :
      (slots ++ [slot]).filter (·.2 < other.2) = slots.filter (·.2 < other.2) := by
    have behind : ¬slot.2 < other.2 := UInt64.not_lt.mpr (UInt64.le_of_lt (below other member))
    simp [behind]
  have last : (slots ++ [slot]).filter (·.2 < slot.2) = slots := by
    rw [List.filter_append, List.filter_eq_self.mpr fun other member => decide_eq_true (below other member)]
    simp
  unfold LoadsInto
  simp only [List.mem_append, List.mem_singleton, or_and_right, exists_or, exists_eq_left, last]
  apply or_congr_left
  apply exists_congr
  intro other
  apply and_congr_right
  intro member
  rw [same other member]

/-- The order of the slots in a list does not matter: loads go by offset. -/
theorem loadsInto_perm {slots' : List (VirtReg × UInt64)} (perm : slots.Perm slots') {reg : PhysReg} :
    inst.LoadsInto slots reg ↔ inst.LoadsInto slots' reg := by
  simp only [LoadsInto, nextScratch?, readFrom, perm.mem_iff, (perm.filter _).countP_eq]

theorem storesFrom_perm {slots' : List (VirtReg × UInt64)} (perm : slots.Perm slots') {kept : Prop} {reg : PhysReg} :
    inst.StoresFrom kept slots reg ↔ inst.StoresFrom kept slots' reg := by
  simp only [StoresFrom, perm.mem_iff]

end Inst

namespace Patch

/-- Loads take the free scratch registers of each file one after another. -/
structure Picks (slots : List (VirtReg × UInt64)) (p : Patch) : Prop where
  kept : ∀ reg : PhysReg, .phys reg ∈ p.source.uses → .phys reg ∈ p.inst.uses
  named : ∀ reg : PhysReg, .phys reg ∈ p.inst.uses → .phys reg ∈ p.source.uses ∨ reg ∈ p.taken
  taken : ∀ file, p.taken.filter (·.file = file) = (p.source.freeScratch file).take (p.source.readFrom slots file)
  writes : ∀ reg, Overwrites p.before reg ↔ p.source.LoadsInto slots reg

variable {slots : List (VirtReg × UInt64)} {p : Patch} {reg : VirtReg} {offset : UInt64}

theorem picks_ofInst (inst : Inst Nat) : Picks [] (ofInst inst) where
  kept _ reads := reads
  named _ reads := .inl reads
  taken _ := by simp [ofInst, Inst.readFrom]
  writes _ := by simp [Overwrites, ofInst, Inst.LoadsInto]

/-- The scratch register of a file that the next load takes, also when more of the other file are taken. -/
theorem Picks.scratch? (picks : Picks slots p) (file : RegFile) (more : List PhysReg)
    (others : ∀ reg ∈ more, reg.file ≠ file) :
    { p with taken := p.taken ++ more }.scratch? file = p.source.nextScratch? slots file := by
  have own : ∀ reg ∈ PhysReg.scratch file, reg.file = file := by cases file <;> decide
  rw [Inst.nextScratch?, ← find?_not_mem_take (p.source.freeScratch_nodup file), ← picks.taken file, Patch.scratch?,
    Inst.freeScratch, List.find?_filter, ← List.head?_filter, ← List.head?_filter]
  congr 1
  apply List.filter_congr
  intro reg member
  have mine := own reg member
  have untouched : reg ∉ more := fun here => others reg here mine
  have inst : .phys reg ∈ p.inst.uses ↔ .phys reg ∈ p.source.uses ∨ .phys reg ∈ p.inst.uses ∧ reg ∈ p.taken := by
    constructor
    · intro reads
      rcases picks.named reg reads with source | taken
      · exact .inl source
      · exact .inr ⟨reads, taken⟩
    · rintro (source | ⟨reads, -⟩)
      · exact picks.kept reg source
      · exact reads
  simp only [List.mem_append, untouched, or_false, List.mem_filter, mine, decide_true, and_true, decide_eq_decide,
    decide_eq_true_eq]
  rw [inst]
  tauto

/-- The registers of a load: the next free one for the value, and for an address that needs another one the next free
general register. -/
theorem Picks.reloadRegs (picks : Picks slots p) {data address : PhysReg}
    (chosen : p.reloadRegs? reg offset = some (data, address)) :
    p.source.nextScratch? slots reg.file = some data ∧
      ((reg.file = .float ∧ slotFits offset = false) ∧ p.source.nextScratch? slots .general = some address ∨
        ¬(reg.file = .float ∧ slotFits offset = false) ∧ address = data) := by
  simp only [reloadRegs?, Option.bind_eq_bind, Option.bind_eq_some_iff] at chosen
  obtain ⟨free, found, chosen⟩ := chosen
  have first := picks.scratch? reg.file [] (by simp)
  rw [List.append_nil] at first
  rw [← first]
  by_cases far : reg.file = .float ∧ slotFits offset = false
  · rw [if_pos (by simpa using far)] at chosen
    simp only [Option.bind_eq_some_iff, pure, Option.some.injEq, Prod.mk.injEq] at chosen
    obtain ⟨other, found', rfl, rfl⟩ := chosen
    refine ⟨found, .inl ⟨far, ?_⟩⟩
    rw [← found', picks.scratch?]
    intro taken member general
    rw [List.mem_singleton.mp member, (Inst.mem_of_nextScratch? (first ▸ found)).1, far.1] at general
    cases general
  · rw [if_neg (by simpa using far)] at chosen
    simp only [pure, Option.some.injEq, Prod.mk.injEq] at chosen
    obtain ⟨rfl, rfl⟩ := chosen
    exact ⟨found, .inr ⟨far, rfl⟩⟩

theorem Picks.reloaded (picks : Picks slots p) (below : ∀ slot ∈ slots, slot.2 < offset) {q : Patch}
    (reloaded : p.Reloaded reg offset q) : Picks (slots ++ [(reg, offset)]) q := by
  cases reloaded with
  | loaded number data address reads chosen =>
    obtain ⟨first, second⟩ := picks.reloadRegs chosen
    have own := (Inst.mem_of_nextScratch? first).1
    have uses : (p.inst.replaceUse reg data).uses = p.inst.uses.map (Inst.swapping reg data) :=
      Inst.uses_mapUses (fun _ => rfl) p.inst
    refine ⟨fun r source => ?_, fun r named => ?_, fun file => ?_, fun r => ?_⟩
    · rw [reload, uses]
      exact List.mem_map.mpr ⟨.phys r, picks.kept r source, rfl⟩
    · rw [reload, uses] at named
      obtain ⟨operand, here, same⟩ := List.mem_map.mp named
      cases operand with
      | phys other =>
        cases same
        exact (picks.named r here).imp_right fun taken => List.mem_append_left _ taken
      | virt v =>
        simp only [Inst.swapping] at same
        split at same
        · cases same
          exact .inr (List.mem_append_right _ List.mem_cons_self)
        · cases same
    · simp only [reload, List.filter_append, picks.taken file, Inst.readFrom_append, reads, and_true]
      by_cases here : reg.file = file
      · subst here
        unfold Inst.nextScratch? at first
        simp [own, List.take_add_one, first]
      · simp [own, here]
    · simp only [reload]
      rw [overwrites_append, picks.writes r, overwrites_loadSlot, Inst.loadsInto_append below]
      apply or_congr_right
      constructor
      · rintro (rfl | ⟨far, rfl⟩)
        · exact ⟨reads, .inl own.symm, own.symm ▸ first⟩
        · rcases second with ⟨⟨float, -⟩, second⟩ | ⟨-, rfl⟩
          · have general := (Inst.mem_of_nextScratch? second).1
            exact ⟨reads, .inr ⟨float, far, general⟩, general.symm ▸ second⟩
          · exact ⟨reads, .inl own.symm, own.symm ▸ first⟩
      · rintro ⟨-, same | ⟨float, far, general⟩, next⟩
        · rw [← same, first] at next
          exact .inl (Option.some.inj next).symm
        · rcases second with ⟨-, second⟩ | ⟨near, -⟩
          · rw [general, second] at next
            exact .inr ⟨far, (Option.some.inj next).symm⟩
          · exact absurd ⟨float, far⟩ near
  | kept unread =>
    refine { picks with taken := fun file => ?_, writes := fun r => ?_ }
    · rw [picks.taken file, Inst.readFrom_append]
      simp [unread]
    · rw [picks.writes r, Inst.loadsInto_append below]
      simp [unread]

theorem Picks.writtenBack (picks : Picks slots p) {q : Patch} (writtenBack : p.WrittenBack reg offset q) :
    Picks slots q := by
  cases writtenBack with
  | stored number data address writes chosen =>
    have same : (p.inst.replaceDef reg data).uses = p.inst.uses := Inst.uses_mapDefs ..
    exact ⟨fun r reads => same ▸ picks.kept r reads, fun r reads => picks.named r (same ▸ reads), picks.taken,
      picks.writes⟩
  | kept unwritten => exact picks

theorem Picks.unread (picks : Picks slots p) {reg : PhysReg} (reads : .phys reg ∈ p.source.uses) :
    ¬Overwrites p.before reg := by
  rw [picks.writes]
  rintro ⟨_, -, -, -, next⟩
  exact (Inst.mem_of_nextScratch? next).2 reads

end Patch

theorem SpillPlan.make_picks {live : LiveRanges} {body : Body} (plain : body = .ofBlocks body.blocks)
    (spans : live.Spans body) {frame : UInt64} {regs : List VirtReg} (once : regs.Nodup)
    (complete : (make live body frame regs).ending = .complete) {n : Nat} {inst : Inst Nat}
    (located : body.insts[n]? = some inst) : ∃ p, (make live body frame regs).patches[n]? = some p ∧
      p.source = inst ∧ p.Picks (make live body frame regs).slots := by
  induction regs using List.reverseRecOn with
  | nil => exact ⟨.ofInst inst, by simp [make, located], rfl, Patch.picks_ofInst inst⟩
  | append_singleton regs reg ih =>
    rw [make_concat] at complete ⊢
    rw [← List.concat_eq_append] at once
    obtain ⟨new, once⟩ := List.nodup_concat regs reg |>.mp once
    obtain ⟨before, -, walk, _, _, _, _, walked, reloaded, writtenBack, result⟩ := spill_ok complete
    have planned := make_planned plain spans once before
    obtain ⟨_, walked', finds⟩ := planned.finds plain spans new
    cases walked.symm.trans walked'
    obtain ⟨p, found, rfl, picks⟩ := ih once before
    obtain ⟨q, r, inPlan, reloaded, writtenBack⟩ := spill_patch finds reloaded writtenBack located found
    rw [result]
    exact ⟨r, inPlan, writtenBack.source.trans reloaded.source,
      (picks.reloaded planned.below reloaded).writtenBack writtenBack⟩

/-! ## The registers of stores -/

namespace Patch

variable {slots : List (VirtReg × UInt64)} {loads stores : List Transfer} {p : Patch} {rename : Reg → Reg}
  {place : Reg → Reg ⊕ UInt64} {reg : PhysReg}

/-- Of the scratch registers an instruction writes those from which values are stored, and those that it wrote
before. -/
theorem Carries.defs_renamed (carries : p.Carries slots slots loads stores) (placing : Placing slots rename place)
    (scratch : reg ∈ PhysReg.scratchRegs) (unwritten : .phys reg ∉ p.source.defs) :
    .phys reg ∈ (p.rename rename).inst.defs ↔ ∃ t ∈ stores, reg = t.data := by
  have defs : (p.rename rename).inst.defs = p.source.defs.map (rename ∘ substitute stores) := by
    have steady : Inst.Steady (rename ∘ substitute stores) := placing.steady
    rw [carries.inst_renamed, Inst.defs_mapDefs steady, Inst.defs_mapUses]
  rw [defs, List.mem_map]
  constructor
  · rintro ⟨operand, writes, same⟩
    cases operand with
    | phys other =>
      rw [Function.comp_apply, substitute_steady, placing.steady] at same
      exact absurd (same ▸ writes) unwritten
    | virt v =>
      simp only [Function.comp_apply, substitute] at same
      split at same
      · next t found =>
        rw [placing.steady] at same
        exact ⟨t, List.mem_of_find?_eq_some found, (Reg.phys.inj same).symm⟩
      · rcases placing.renamed v with kept | ⟨home, moved, handed⟩
        · rw [kept] at same
          cases same
        · rw [moved] at same
          cases same
          rw [PhysReg.isAllocatable_of_scratch reg scratch] at handed
          cases handed
  · rintro ⟨t, member, rfl⟩
    refine ⟨.virt t.reg, ((carries.stored t.reg t.offset).mp ⟨t, member, rfl, rfl⟩).2, ?_⟩
    rw [Function.comp_apply, substitute_of_mem carries.storesOnce member]
    exact placing.steady t.data

theorem Carries.overwrites_after (carries : p.Carries slots slots loads stores) (placing : Placing slots rename place)
    (scratch : reg ∈ PhysReg.scratchRegs) (unwritten : .phys reg ∉ p.source.defs) (kept : Prop) [Decidable kept] :
    Overwrites ((if kept then [(p.rename rename).inst] else []) ++ p.after) reg ↔
      p.source.StoresFrom kept slots reg := by
  have first : Overwrites (if kept then [(p.rename rename).inst] else []) reg ↔ kept ∧ ∃ t ∈ stores, reg = t.data := by
    rw [← carries.defs_renamed placing scratch unwritten]
    by_cases here : kept <;> simp [Overwrites, here]
  rw [overwrites_append, first, carries.after, overwrites_flatMap]
  simp only [overwrites_storeSlot]
  constructor
  · rintro (⟨here, t, member, data⟩ | ⟨t, member, far, address⟩)
    · obtain ⟨inSlots, writes⟩ := (carries.stored t.reg t.offset).mp ⟨t, member, rfl, rfl⟩
      exact ⟨(t.reg, t.offset), inSlots, writes, .inl ⟨here, by rw [← carries.writeBack t member, data]⟩⟩
    · obtain ⟨inSlots, writes⟩ := (carries.stored t.reg t.offset).mp ⟨t, member, rfl, rfl⟩
      exact ⟨(t.reg, t.offset), inSlots, writes, .inr ⟨far, by rw [← carries.writeBack t member, address]⟩⟩
  · rintro ⟨⟨v, offset⟩, inSlots, writes, written⟩
    obtain ⟨t, member, rfl, rfl⟩ := (carries.stored v offset).mpr ⟨inSlots, writes⟩
    rw [← carries.writeBack t member] at written
    exact written.imp (fun ⟨here, data⟩ => ⟨here, t, member, data⟩) fun ⟨far, address⟩ => ⟨t, member, far, address⟩

end Patch

/-! ## What spill code overwrites -/

/-- The scratch registers that are overwritten around an instruction: before it those of the loads, none of which the
instruction reads, and after it, the instruction included if it is kept, those of the stores. -/
structure Patch.Spills (slots : List (VirtReg × UInt64)) (kept : Bool) (p : Patch) : Prop where
  before : ∀ reg ∈ PhysReg.scratchRegs, Overwrites p.before reg ↔ p.source.LoadsInto slots reg
  unread : ∀ reg ∈ PhysReg.scratchRegs, .phys reg ∈ p.source.uses → ¬Overwrites p.before reg
  after : ∀ reg ∈ PhysReg.scratchRegs, .phys reg ∉ p.source.defs →
    (Overwrites ((if kept then [p.inst] else []) ++ p.after) reg ↔ p.source.StoresFrom kept slots reg)

theorem make_spills {config : Config} {body : Body} {frame : UInt64} (plain : body = .ofBlocks body.blocks)
    (complete : (Allocation.make config body frame).plan.ending = .complete) {n : Nat} {inst : Inst Nat}
    (located : body.insts[n]? = some inst) : ∃ p, (Allocation.make config body frame).patches[n]? = some p ∧
      p.source = inst ∧ p.Spills (Allocation.make config body frame).slots
        ((Allocation.make config body frame).dropped? p).isNone := by
  have planned := spills_planned plain complete
  have placing := make_placing plain complete
  have perm := VirtMap.ofList_perm (planned.slots ▸ spills_nodup)
  obtain ⟨p, loads, stores, found, rfl, carries⟩ := planned.patches n inst located
  obtain ⟨q, found', -, picks⟩ := SpillPlan.make_picks plain (LiveRanges.spans_ofBody body)
    (@spills_nodup config body frame) complete located
  obtain rfl : p = q := Option.some.inj (found.symm.trans found')
  refine ⟨p.rename (Allocation.make config body frame).rename, ?_, rfl, ?_⟩
  · rw [make_getElem?_patches plain complete, found, Option.map_some]
  · refine ⟨fun reg _ => ?_, fun reg _ reads => picks.unread reads, fun reg scratch unwritten => ?_⟩
    · exact (picks.writes reg).trans (Inst.loadsInto_perm perm).symm
    · exact (carries.overwrites_after placing scratch unwritten _).trans (Inst.storesFrom_perm perm).symm

/-- Of the scratch registers, exactly those of its loads and stores are overwritten around each instruction of a function
that is allocated, whatever the code keeps in them. -/
theorem spill_code_overwrites_iff {source : String} {m : Machine} {f : FuncId} {node : FuncNode} {body : Body}
    {config : Config} {done : Machine.Allocated} {choice : Choice} (read : Source.read source = .ok m)
    (stored : m.func f = .ok node) (body_ok : m.body f = .ok body) (allocated : m.allocate config f = .ok done)
    (success : done.outcome = .ok choice) :
    done.machine.HasCode f (Allocation.make config body node.frame).result ∧
      ∀ (n : Nat) inst, body.insts[n]? = some inst →
        ∃ p, (Allocation.make config body node.frame).patches[n]? = some p ∧ p.source = inst ∧
          p.Spills choice.slots ((Allocation.make config body node.frame).dropped? p).isNone := by
  obtain ⟨code, layout, formed⟩ := Source.read_wellFormed read
  obtain ⟨complete, rewritten, rfl⟩ := formed.allocate_code stored body_ok allocated success
  rw [Allocation.choice_slots]
  exact ⟨rewritten, fun n inst located => make_spills (formed.body_eq body_ok) complete located⟩

/-- A function that keeps its argument in `t0` and reads it together with a value on the stack. -/
def temporaryRead : String := ".func f\nmv t0, a0\nli $r0, 1\nsub $r0, $r0, t0\nadd a0, $r0, t0\nret a0\n"

/-- The value is loaded into `t1`, past the register that is read, but computed in `t0`. -/
theorem temporary_read_overwritten :
    ∃ m node body done choice p, Source.read temporaryRead = .ok m ∧ m.func ⟨0⟩ = .ok node ∧
      m.body ⟨0⟩ = .ok body ∧ m.allocate { registerLimit := some 0 } ⟨0⟩ = .ok done ∧ done.outcome = .ok choice ∧
      (Allocation.make { registerLimit := some 0 } body node.frame).patches[2]? = some p ∧
      body.insts[2]? = some p.source ∧ .phys (.x 5) ∈ p.source.uses ∧ ¬Overwrites p.before (.x 5) ∧
      Overwrites p.before (.x 6) ∧ Overwrites (p.inst :: p.after) (.x 5) := by
  have run : (do
      let m ← (Source.read temporaryRead).toOption
      let node ← (m.func ⟨0⟩).toOption
      let body ← (m.body ⟨0⟩).toOption
      let done ← (m.allocate { registerLimit := some 0 } ⟨0⟩).toOption
      let choice ← done.outcome.toOption
      let inst ← body.insts[2]?
      let p ← (Allocation.make { registerLimit := some 0 } body node.frame).patches[2]?
      return decide (choice.slots = [(⟨0, .general⟩, 0)] ∧
        inst = .binary .sub (.virt ⟨0, .general⟩) (.virt ⟨0, .general⟩) (.phys (.x 5)) ∧
        (Allocation.make { registerLimit := some 0 } body node.frame).dropped? p = none)) = some true := by
    decide +kernel
  simp only [bind, Option.bind_eq_some_iff, toOption_eq_some, pure, Option.some.injEq, decide_eq_true_eq] at run
  obtain ⟨m, read, node, stored, body, body_ok, done, allocated, choice, success, inst, located, p, found, slots, known,
    kept⟩ := run
  obtain ⟨q, found', source, spills⟩ :=
    (spill_code_overwrites_iff read stored body_ok allocated success).2 2 inst located
  obtain rfl : p = q := Option.some.inj (found.symm.trans found')
  rw [slots, kept] at spills
  rw [known] at source
  have reads : .phys (.x 5) ∈ p.source.uses := by
    rw [source]
    decide
  refine ⟨m, node, body, done, choice, p, read, stored, body_ok, allocated, success, found, ?_, reads,
    spills.unread _ (by decide) reads, (spills.before _ (by decide)).mpr ?_, (spills.after _ (by decide) ?_).mpr ?_⟩
  · rw [located, known, source]
  · rw [source]
    decide
  · rw [source]
    decide
  · rw [source]
    decide

/-- A function that keeps a constant in `t0`, and another one on the stack. -/
def temporaryKept : String := ".func f\nli t0, 7\nli $r0, 1\nadd a0, a0, $r0\nadd a0, a0, t0\nret a0\n"

/-- The constant is overwritten twice where it is live: when the other one is written and when it is loaded. -/
theorem live_scratch_overwritten :
    ∃ m node body done choice range writes reads, Source.read temporaryKept = .ok m ∧ m.func ⟨0⟩ = .ok node ∧
      m.body ⟨0⟩ = .ok body ∧ m.allocate { registerLimit := some 0 } ⟨0⟩ = .ok done ∧ done.outcome = .ok choice ∧
      range ∈ (liveRanges body).ranges (.phys (.x 5)) ∧ range.start < 1 ∧ 2 < range.stop ∧
      (Allocation.make { registerLimit := some 0 } body node.frame).patches[1]? = some writes ∧
      (Allocation.make { registerLimit := some 0 } body node.frame).patches[2]? = some reads ∧
      .phys (.x 5) ∉ writes.source.defs ∧ Overwrites (writes.inst :: writes.after) (.x 5) ∧
      Overwrites reads.before (.x 5) := by
  have run : (do
      let m ← (Source.read temporaryKept).toOption
      let node ← (m.func ⟨0⟩).toOption
      let body ← (m.body ⟨0⟩).toOption
      let done ← (m.allocate { registerLimit := some 0 } ⟨0⟩).toOption
      let choice ← done.outcome.toOption
      let range ← ((liveRanges body).ranges (.phys (.x 5))).head?
      let writes ← (Allocation.make { registerLimit := some 0 } body node.frame).patches[1]?
      let reads ← (Allocation.make { registerLimit := some 0 } body node.frame).patches[2]?
      return decide (range.start < 1 ∧ 2 < range.stop ∧ .phys (.x 5) ∉ writes.source.defs ∧
        Overwrites (writes.inst :: writes.after) (.x 5) ∧ Overwrites reads.before (.x 5))) = some true := by
    decide +kernel
  simp only [bind, Option.bind_eq_some_iff, toOption_eq_some, pure, Option.some.injEq, decide_eq_true_eq] at run
  obtain ⟨m, read, node, stored, body, body_ok, done, allocated, choice, success, range, first, writes, atWrite, reads,
    atRead, start, stop, unwritten, overwritten, loaded⟩ := run
  exact ⟨m, node, body, done, choice, range, writes, reads, read, stored, body_ok, allocated, success,
    List.mem_of_mem_head? first, start, stop, atWrite, atRead, unwritten, overwritten, loaded⟩

end RegisterAllocator
