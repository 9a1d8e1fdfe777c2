import Mathlib.Data.List.Perm.Subperm
import RegisterAllocator.Proofs.Operands
import RegisterAllocator.Proofs.Spilling

/-!
# Scratch registers do not run out

An instruction with its operands in the files that it asks for reads at most as many registers as there are scratch
registers of each file that it reads from. So while one operand still waits for its reload, a scratch register is left
for it (`Patch.Carries.exists_reloadRegs`), whatever was reloaded before and wherever the slots are. Hence a plan of
distinct registers ends without a lack of scratch registers (`SpillPlan.make_ending`), and it is complete if the frame
has room for the slots (`SpillPlan.make_complete`).
-/

namespace RegisterAllocator

theorem PhysReg.file_of_mem_scratch {file : RegFile} {reg : PhysReg} (member : reg ∈ scratch file) :
    reg.file = file := by
  have each : ∀ reg ∈ scratch file, reg.file = file := by cases file <;> decide
  exact each reg member

theorem PhysReg.scratch_nodup (file : RegFile) : (scratch file).Nodup := by
  cases file <;> decide

/-- An instruction that reads a virtual register reads three registers at most, and three only if all are float. -/
theorem Inst.Typed.uses_length {τ : Type} {inst : Inst τ} (typed : inst.Typed) {v : VirtReg}
    (reads : .virt v ∈ inst.uses) :
    inst.uses.length ≤ 2 ∨ inst.uses.length = 3 ∧ ∀ reg ∈ inst.uses, reg.file = .float := by
  cases inst with
  | fused op mode rd rs1 rs2 rs3 =>
    obtain ⟨-, first, second, third⟩ := typed
    exact .inr ⟨rfl, by simp [uses, first, second, third]⟩
  | call | ret => simp [uses] at reads
  | _ => exact .inl (by simp [uses])

/-- Distinct physical registers that are all among some registers, one of which is virtual, are fewer than these. -/
theorem exists_phys_notMem {regs : List PhysReg} (once : regs.Nodup) {uses : List Reg} {v : VirtReg}
    (reads : .virt v ∈ uses) (enough : uses.length ≤ regs.length) : ∃ reg ∈ regs, .phys reg ∉ uses := by
  by_contra none
  have inside : .virt v :: regs.map Reg.phys ⊆ uses := by
    intro reg member
    rcases List.mem_cons.mp member with rfl | member
    · exact reads
    · obtain ⟨reg, inRegs, rfl⟩ := List.mem_map.mp member
      exact not_not.mp fun absent => none ⟨reg, inRegs, absent⟩
  have distinct : (.virt v :: regs.map Reg.phys).Nodup :=
    List.nodup_cons.mpr ⟨by simp, once.map fun _ _ => Reg.phys.inj⟩
  have count := (distinct.subperm inside).length_le
  simp only [List.length_cons, List.length_map] at count
  omega

namespace Patch

variable {reads writes : List (VirtReg × UInt64)} {loads stores : List Transfer} {p : Patch} {reg : VirtReg}

theorem Carries.file_substitute (carries : Carries reads writes loads stores p) (operand : Reg) :
    (substitute loads operand).file = operand.file := by
  cases operand with
  | phys reg => rfl
  | virt v =>
    by_cases moved : ∃ t ∈ loads, t.reg = v
    · obtain ⟨t, member, rfl⟩ := moved
      rw [substitute_of_mem carries.loadsOnce member]
      exact PhysReg.file_of_mem_scratch (carries.scratch t member).1
    · rw [substitute_of_not_moved fun t member same => moved ⟨t, member, same⟩]

theorem Carries.taken_mem_uses (carries : Carries reads writes loads stores p) {data : PhysReg}
    (taken : data ∈ p.taken) : .phys data ∈ p.inst.uses := by
  rw [carries.taken] at taken
  obtain ⟨t, member, rfl⟩ := List.mem_map.mp taken
  have used := ((carries.loaded t.reg t.offset).mp ⟨t, member, rfl, rfl⟩).2
  rw [carries.uses, List.mem_map]
  exact ⟨_, used, substitute_of_mem carries.loadsOnce member⟩

theorem Carries.uses_length (carries : Carries reads writes loads stores p) (typed : p.source.Typed)
    (used : .virt reg ∈ p.source.uses) :
    p.inst.uses.length ≤ 2 ∨ p.inst.uses.length = 3 ∧ ∀ operand ∈ p.inst.uses, operand.file = .float := by
  rw [carries.uses, List.length_map]
  refine (typed.uses_length used).imp_right fun ⟨three, float⟩ => ⟨three, fun operand member => ?_⟩
  obtain ⟨operand, inSource, rfl⟩ := List.mem_map.mp member
  rw [carries.file_substitute]
  exact float operand inSource

theorem exists_scratch? {file : RegFile} {free : PhysReg} (found : p.Free file free) :
    ∃ chosen, p.scratch? file = some chosen := by
  apply Option.isSome_iff_exists.mp
  rw [scratch?, List.find?_isSome]
  exact ⟨free, found.scratch, by simp [found.unread, found.untaken]⟩

/-- While an operand waits for its reload, a scratch register of each file is free. -/
theorem Carries.exists_free (carries : Carries reads writes loads stores p) (typed : p.source.Typed)
    (unloaded : reg ∉ reads.map Prod.fst) (used : .virt reg ∈ p.source.uses) (file : RegFile) :
    ∃ free, p.Free file free := by
  have waiting := (carries.reads_iff unloaded).mpr used
  obtain ⟨free, scratch, unread⟩ : ∃ free ∈ PhysReg.scratch file, .phys free ∉ p.inst.uses := by
    rcases carries.uses_length typed used with two | ⟨three, float⟩
    · have two_le : 2 ≤ (PhysReg.scratch file).length := by cases file <;> decide
      exact exists_phys_notMem (PhysReg.scratch_nodup file) waiting (Nat.le_trans two two_le)
    · cases file with
      | float => exact exists_phys_notMem (PhysReg.scratch_nodup .float) waiting (Nat.le_of_eq three)
      | general =>
        -- All operands are float, so that no general register is read.
        exact ⟨.x 5, by decide, fun read => absurd (float _ read) (by decide)⟩
  exact ⟨free, scratch, unread, fun taken => unread (carries.taken_mem_uses taken)⟩

/-- A reload of an operand finds a scratch register for the value, and for the address if it needs one. -/
theorem Carries.exists_reloadRegs (carries : Carries reads writes loads stores p) (typed : p.source.Typed)
    (unloaded : reg ∉ reads.map Prod.fst) (used : .virt reg ∈ p.source.uses) (offset : UInt64) :
    ∃ data address, p.reloadRegs? reg offset = some (data, address) ∧ p.Free reg.file data ∧
      (reg.file = .float → slotFits offset = false → p.Free .general address) := by
  -- what a reload takes is free, so it is enough that it takes something
  suffices found : ∃ regs, p.reloadRegs? reg offset = some regs by
    obtain ⟨⟨data, address⟩, chosen⟩ := found
    obtain ⟨free, general⟩ := free_of_reloadRegs? chosen
    exact ⟨data, address, chosen, free, fun _ => general⟩
  obtain ⟨_, found⟩ := carries.exists_free typed unloaded used reg.file
  obtain ⟨data, chosen⟩ := exists_scratch? found
  simp only [reloadRegs?, chosen, Option.bind_eq_bind, Option.bind_some]
  by_cases far : reg.file = .float ∧ !slotFits offset
  · obtain ⟨general, found⟩ := carries.exists_free typed unloaded used .general
    -- The value is float, so its register is none for an address.
    have other : general ≠ data := by
      rintro rfl
      have files := (PhysReg.file_of_mem_scratch found.scratch).symm.trans
        (PhysReg.file_of_mem_scratch (free_of_scratch? chosen).scratch)
      rw [far.1] at files
      cases files
    have still : Free { p with taken := p.taken ++ [data] } .general general :=
      ⟨found.scratch, found.unread, by simp [found.untaken, other]⟩
    obtain ⟨address, chosen'⟩ := exists_scratch? still
    rw [if_pos far, chosen']
    exact ⟨(data, address), rfl⟩
  · rw [if_neg far]
    exact ⟨(data, data), rfl⟩

end Patch

namespace SpillPlan

variable {live : LiveRanges} {body : Body} {plan : SpillPlan} {reg : VirtReg} {regs : List VirtReg} {frame : UInt64}

/-- Reloads do not fail if each finds its registers on its own: what is reloaded at one instruction changes no other. -/
theorem reloads_total {offset : UInt64} {sites : List Site} {patches : Array Patch}
    (once : (sites.map Site.cell).Nodup) (each : ∀ site ∈ sites, ∃ p data address,
      patches[site.cell]? = some p ∧ p.reloadRegs? reg offset = some (data, address)) :
    (reloads reg offset sites patches).2.2 = none := by
  induction sites generalizing patches with
  | nil => rfl
  | cons site rest ih =>
    obtain ⟨absent, once⟩ := List.nodup_cons.mp once
    obtain ⟨p, data, address, located, chosen⟩ := each site List.mem_cons_self
    simp only [reloads, located, Option.bind_some, chosen]
    apply ih once
    intro other member
    obtain ⟨q, data', address', located', chosen'⟩ := each other (List.mem_cons_of_mem _ member)
    have apart : site.cell ≠ other.cell := fun same => absent (same ▸ List.mem_map_of_mem member)
    exact ⟨q, data', address', by simp [Array.getElem?_modify, apart, located'], chosen'⟩

theorem Planned.reloads_total (typed : ∀ inst ∈ body.insts, inst.Typed) (planned : Planned body regs plan)
    (new : reg ∉ regs) {walk : SiteWalk} (finds : walk.Finds body reg) (offset : UInt64) :
    (reloads reg offset walk.readers plan.patches).2.2 = none := by
  apply SpillPlan.reloads_total finds.readersOnce
  intro site member
  rw [← planned.slots] at new
  obtain ⟨same, inside⟩ := finds.number site (List.mem_append_left _ member)
  have located : body.insts[site.cell]? = some body.insts[site.cell] := List.getElem?_eq_getElem (same ▸ inside)
  have used := (finds.readers _ _ located).mp (List.mem_map_of_mem member)
  obtain ⟨p, loads, stores, found, source, carries⟩ := planned.patches _ _ located
  rw [← source] at located used
  obtain ⟨data, address, chosen, -⟩ :=
    carries.exists_reloadRegs (typed _ (List.mem_of_getElem? located)) new used offset
  exact ⟨p, data, address, found, chosen⟩

theorem Planned.spill_complete (plain : body = .ofBlocks body.blocks) (spans : live.Spans body)
    (typed : ∀ inst ∈ body.insts, inst.Typed) (planned : Planned body regs plan) (complete : plan.ending = .complete)
    (new : reg ∉ regs) (room : plan.frame.toNat + 8 < 2 ^ 64) :
    (spill live body plan reg).ending = .complete := by
  obtain ⟨walk, walked, finds⟩ := planned.finds plain spans new
  have total := planned.reloads_total typed new finds plan.frame
  have left : ¬ UInt64.size ≤ plan.frame.toNat + 8 := Nat.not_le.mpr room
  unfold spill
  simp only [if_neg (not_not.mpr complete), walked, if_neg left]
  generalize reloads reg plan.frame _ _ = outcome at total ⊢
  obtain ⟨loaded, loads, failure⟩ := outcome
  cases total
  rfl

theorem spill_overflow (overflow : plan.ending = .overflow) : (spill live body plan reg).ending = .overflow := by
  rw [spill, if_pos (by simp [overflow])]
  exact overflow

theorem Planned.spill_full (plain : body = .ofBlocks body.blocks) (spans : live.Spans body)
    (planned : Planned body regs plan) (complete : plan.ending = .complete) (new : reg ∉ regs)
    (full : 2 ^ 64 ≤ plan.frame.toNat + 8) : (spill live body plan reg).ending = .overflow := by
  obtain ⟨walk, walked, -⟩ := planned.finds plain spans new
  have none : UInt64.size ≤ plan.frame.toNat + 8 := full
  simp only [spill, if_neg (not_not.mpr complete), walked, if_pos none]

theorem make_ending (plain : body = .ofBlocks body.blocks) (spans : live.Spans body)
    (typed : ∀ inst ∈ body.insts, inst.Typed) (once : regs.Nodup) :
    (make live body frame regs).ending = .complete ∨ (make live body frame regs).ending = .overflow := by
  induction regs using List.reverseRecOn with
  | nil => exact .inl rfl
  | append_singleton regs reg ih =>
    rw [make_concat]
    obtain ⟨new, once⟩ := (List.nodup_concat regs reg).mp (List.concat_eq_append ▸ once)
    rcases ih once with complete | overflow
    · have planned := make_planned plain spans once complete
      rcases Nat.lt_or_ge ((make live body frame regs).frame.toNat + 8) (2 ^ 64) with room | full
      · exact .inl (planned.spill_complete plain spans typed complete new room)
      · exact .inr (planned.spill_full plain spans complete new full)
    · exact .inr (spill_overflow overflow)

theorem make_room (plain : body = .ofBlocks body.blocks) (spans : live.Spans body)
    (typed : ∀ inst ∈ body.insts, inst.Typed) (once : regs.Nodup) (room : frame.toNat + 8 * regs.length < 2 ^ 64) :
    (make live body frame regs).ending = .complete := by
  induction regs using List.reverseRecOn with
  | nil => rfl
  | append_singleton regs reg ih =>
    rw [make_concat]
    rw [List.length_append, List.length_singleton] at room
    obtain ⟨new, once⟩ := (List.nodup_concat regs reg).mp (List.concat_eq_append ▸ once)
    have complete := ih once (by omega)
    have size := (make_frame complete).1
    exact (make_planned plain spans once complete).spill_complete plain spans typed complete new (by omega)

end SpillPlan

/-! ## Room in the frame -/

theorem VirtReg.key_lt (reg : VirtReg) : reg.key < 2 ^ 33 := by
  have number := reg.number.toNat_lt
  have rank : reg.file.rank ≤ 1 := by cases reg.file <;> decide
  unfold key
  omega

/-- There are as many virtual registers as numbers, in each of two files. -/
theorem VirtReg.length_le_of_nodup {regs : List VirtReg} (once : regs.Nodup) : regs.length ≤ 2 ^ 33 := by
  have keys : (regs.map VirtReg.key).Nodup := once.map fun _ _ => VirtReg.key_injective
  have inside : regs.map VirtReg.key ⊆ List.range (2 ^ 33) := by
    intro key member
    obtain ⟨reg, -, rfl⟩ := List.mem_map.mp member
    exact List.mem_range.mpr reg.key_lt
  have count := (keys.subperm inside).length_le
  rwa [List.length_map, List.length_range] at count

/-- A frame of a size that a signed number can have has room for a slot of every virtual register. -/
theorem SpillPlan.make_complete {live : LiveRanges} {body : Body} {frame : UInt64} {regs : List VirtReg}
    (plain : body = .ofBlocks body.blocks) (spans : live.Spans body) (typed : ∀ inst ∈ body.insts, inst.Typed)
    (once : regs.Nodup) (signed : frame.toNat < 2 ^ 63) : (make live body frame regs).ending = .complete := by
  have few := VirtReg.length_le_of_nodup once
  exact make_room plain spans typed once (by omega)

end RegisterAllocator
