import Mathlib.Data.List.Basic
import RegisterAllocator.Inst.SlotAccess

/-!
# Renaming operands

How renaming the registers of an instruction acts on what the instruction reads, writes and copies. A renaming that
leaves physical registers alone (`Inst.Steady`) acts on the register lists of calls and returns too, since it changes
nothing there.
-/

namespace RegisterAllocator.Inst

variable {τ τ' : Type} {f g : Reg → Reg}

/-- A renaming of virtual registers only. -/
def Steady (f : Reg → Reg) : Prop := ∀ reg : PhysReg, f reg = reg

theorem uses_mapUses (steady : Steady f) (inst : Inst τ) : (inst.mapUses f).uses = inst.uses.map f := by
  cases inst with
  | call | ret => simp [mapUses, uses, Function.comp_def, show ∀ reg, f (.phys reg) = .phys reg from steady]
  | _ => rfl

theorem defs_mapDefs (steady : Steady f) (inst : Inst τ) : (inst.mapDefs f).defs = inst.defs.map f := by
  cases inst with
  | call => simp [mapDefs, defs, Function.comp_def, show ∀ reg, f (.phys reg) = .phys reg from steady]
  | _ => rfl

@[simp] theorem defs_mapUses (f : Reg → Reg) (inst : Inst τ) : (inst.mapUses f).defs = inst.defs := by
  cases inst <;> rfl

@[simp] theorem uses_mapDefs (f : Reg → Reg) (inst : Inst τ) : (inst.mapDefs f).uses = inst.uses := by
  cases inst <;> rfl

theorem mapUses_mapUses (f g : Reg → Reg) (inst : Inst τ) : (inst.mapUses f).mapUses g = inst.mapUses (g ∘ f) := by
  cases inst <;> rfl

theorem mapDefs_mapDefs (f g : Reg → Reg) (inst : Inst τ) : (inst.mapDefs f).mapDefs g = inst.mapDefs (g ∘ f) := by
  cases inst <;> rfl

theorem mapUses_mapDefs (f g : Reg → Reg) (inst : Inst τ) :
    (inst.mapDefs f).mapUses g = (inst.mapUses g).mapDefs f := by
  cases inst <;> rfl

theorem mapUses_congr {inst : Inst τ} (same : ∀ reg ∈ inst.uses, f reg = g reg) : inst.mapUses f = inst.mapUses g := by
  cases inst <;> simp_all [mapUses, uses]

theorem mapDefs_congr {inst : Inst τ} (same : ∀ reg ∈ inst.defs, f reg = g reg) : inst.mapDefs f = inst.mapDefs g := by
  cases inst <;> simp_all [mapDefs, defs]

@[simp] theorem mapUses_id (inst : Inst τ) : inst.mapUses id = inst := by cases inst <;> rfl

@[simp] theorem mapDefs_id (inst : Inst τ) : inst.mapDefs id = inst := by cases inst <;> rfl

/-- An instruction with all its register operands blanked out: the parts that are not registers. -/
def skeleton (inst : Inst τ) : Inst τ := (inst.mapUses fun _ => PhysReg.zero).mapDefs fun _ => PhysReg.zero

@[simp] theorem skeleton_mapUses (f : Reg → Reg) (inst : Inst τ) : (inst.mapUses f).skeleton = inst.skeleton := by
  cases inst <;> rfl

@[simp] theorem skeleton_mapDefs (f : Reg → Reg) (inst : Inst τ) : (inst.mapDefs f).skeleton = inst.skeleton := by
  cases inst <;> rfl

/-- An instruction is written like a copy after renaming exactly if it was before. Two sources that differ must not
become one register, and none must become the zero register. -/
theorem copy?_renamed {inst : Inst τ} (injective : ∀ a ∈ inst.uses, ∀ b ∈ inst.uses, f a = f b → a = b)
    (zero : ∀ a ∈ inst.uses, f a = PhysReg.zero ↔ a = PhysReg.zero) :
    ((inst.mapUses f).mapDefs g).copy? = inst.copy?.map fun (dst, src) => (g dst, f src) := by
  cases inst with
  | binary op rd rs1 rs2 =>
    have first := zero rs1 (by simp [uses])
    have second := zero rs2 (by simp [uses])
    simp only [mapUses, mapDefs, copy?, first, second]
    by_cases adds : op = .add ∨ op = .addw
    · simp only [if_pos adds]
      split
      · rfl
      · split <;> rfl
    · simp only [if_neg adds]
      rfl
  | floatBinary op mode rd rs1 rs2 =>
    have same : f rs1 = f rs2 ↔ rs1 = rs2 :=
      ⟨injective rs1 (by simp [uses]) rs2 (by simp [uses]), congrArg f⟩
    simp only [mapUses, mapDefs, copy?, same]
    split <;> rfl
  | immediate op rd rs value =>
    simp only [mapUses, mapDefs, copy?]
    split <;> rfl
  | _ => rfl

/-! ## What an instruction writes -/

section Writes

variable {inst : Inst τ}

theorem copy?_eq_some {dst src : Reg} (copies : inst.copy? = some (dst, src)) :
    inst.defs = [dst] ∧ src ∈ inst.uses := by
  cases inst with
  | binary op rd rs1 rs2 =>
    simp only [copy?] at copies
    split at copies
    · split at copies
      · cases copies
        exact ⟨rfl, by simp [uses]⟩
      · split at copies <;> cases copies
        exact ⟨rfl, by simp [uses]⟩
    · cases copies
  | immediate op rd rs value =>
    simp only [copy?] at copies
    split at copies <;> cases copies
    exact ⟨rfl, by simp [uses]⟩
  | floatBinary op mode rd rs1 rs2 =>
    simp only [copy?] at copies
    split at copies <;> cases copies
    exact ⟨rfl, by simp [uses]⟩
  | _ => cases copies

theorem defs_cases (inst : Inst τ) : (∃ reg, inst.defs = [reg]) ∨ ∀ reg ∈ inst.defs, ∃ phys : PhysReg, reg = phys := by
  cases inst with
  | call =>
    refine .inr fun reg member => ?_
    obtain ⟨phys, -, rfl⟩ := List.mem_map.mp member
    exact ⟨phys, rfl⟩
  | store | jump | branch | ret => exact .inr (by simp [defs])
  | _ => exact .inl ⟨_, rfl⟩

theorem idxOf_defs (steady : Steady f) {reg : Reg} (writes : reg ∈ inst.defs) :
    (inst.defs.map f).idxOf (f reg) = inst.defs.idxOf reg := by
  rcases inst.defs_cases with ⟨only, single⟩ | phys
  · rw [single, List.mem_singleton] at writes
    simp [single, writes]
  · have same : inst.defs.map f = inst.defs := by
      refine (List.map_congr_left fun other member => ?_).trans (List.map_id _)
      obtain ⟨phys, rfl⟩ := phys other member
      exact steady phys
    obtain ⟨phys, rfl⟩ := phys reg writes
    rw [same, show f (.phys phys) = .phys phys from steady phys]

end Writes

/-! ## Renaming targets -/

section Targets

variable (h : τ → τ') (inst : Inst τ)

@[simp] theorem uses_mapTarget : (inst.mapTarget h).uses = inst.uses := by cases inst <;> rfl

@[simp] theorem defs_mapTarget : (inst.mapTarget h).defs = inst.defs := by cases inst <;> rfl

@[simp] theorem copy?_mapTarget : (inst.mapTarget h).copy? = inst.copy? := by cases inst <;> rfl

theorem mapTarget_mapUses (f : Reg → Reg) : (inst.mapUses f).mapTarget h = (inst.mapTarget h).mapUses f := by
  cases inst <;> rfl

theorem mapTarget_mapDefs (f : Reg → Reg) : (inst.mapDefs f).mapTarget h = (inst.mapTarget h).mapDefs f := by
  cases inst <;> rfl

theorem map_mapTarget_accessSlot {access : Reg → Imm12 → Inst τ} {access' : Reg → Imm12 → Inst τ'}
    (same : ∀ base offset, (access base offset).mapTarget h = access' base offset) (address : PhysReg)
    (offset : UInt64) :
    (accessSlot access address offset).map (mapTarget h) = accessSlot access' address offset := by
  unfold accessSlot
  split
  · exact congrArg (fun inst => [inst]) (same _ _)
  · simp only [List.map_cons, List.map_nil, same]
    rfl

theorem map_mapTarget_loadSlot (data address : PhysReg) (offset : UInt64) :
    (loadSlot data address offset).map (mapTarget h) = loadSlot data address offset :=
  map_mapTarget_accessSlot h (fun _ _ => rfl) address offset

theorem map_mapTarget_storeSlot (data address : PhysReg) (offset : UInt64) :
    (storeSlot data address offset).map (mapTarget h) = storeSlot data address offset :=
  map_mapTarget_accessSlot h (fun _ _ => rfl) address offset

end Targets

end RegisterAllocator.Inst
