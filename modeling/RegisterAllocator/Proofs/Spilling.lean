import Mathlib.Algebra.Ring.Nat
import Mathlib.Data.List.Induction
import Mathlib.Data.List.Sigma
import RegisterAllocator.Allocation.Spill
import RegisterAllocator.Proofs.Outcome
import RegisterAllocator.Proofs.RangeScan
import RegisterAllocator.Proofs.Renaming

/-!
# Spill code around an instruction

What the plan for the spilled registers makes of one instruction (`Patch.Carries`): each spilled register that the
instruction reads is loaded once, into a scratch register of its own, each one that it writes is stored once, and the
operands are replaced accordingly. Loads do not disturb each other: the address of a later one is never computed in a
register that holds the value of an earlier one.

The instructions of a register are found by going through its live ranges. The ranges overlap and each instruction may
have been changed for other registers before; still every instruction that names the register is found, and once
(`SpillPlan.Planned.finds`).
-/

namespace RegisterAllocator

/-- The renaming that puts the data registers of transfers in place of the registers that they move. -/
def substitute (transfers : List Transfer) : Reg → Reg
  | .phys reg => .phys reg
  | .virt v =>
    match transfers.find? (·.reg = v) with
    | some t => .phys t.data
    | none => .virt v

theorem substitute_steady (transfers : List Transfer) : Inst.Steady (substitute transfers) := fun _ => rfl

theorem substitute_nil : substitute [] = id := by
  funext reg
  cases reg <;> rfl

theorem substitute_of_not_moved {transfers : List Transfer} {v : VirtReg} (absent : ∀ t ∈ transfers, t.reg ≠ v) :
    substitute transfers (.virt v) = .virt v := by
  have none : transfers.find? (·.reg = v) = none :=
    List.find?_eq_none.mpr fun t member => by simpa using absent t member
  simp only [substitute, none]

theorem substitute_of_mem {transfers : List Transfer} (once : (transfers.map Transfer.reg).Nodup) {t : Transfer}
    (member : t ∈ transfers) : substitute transfers (.virt t.reg) = .phys t.data := by
  have found : transfers.find? (·.reg = t.reg) = some t := by
    induction transfers with
    | nil => cases member
    | cons first rest ih =>
      obtain ⟨absent, once⟩ := List.nodup_cons.mp once
      rcases List.mem_cons.mp member with rfl | member
      · simp
      · have differ : first.reg ≠ t.reg := fun same => absent (same ▸ List.mem_map_of_mem member)
        simpa [differ] using ih once member
  simp only [substitute, found]

/-- A renaming of one more register, after or before the others. -/
theorem swapping_substitute {transfers : List Transfer} {t : Transfer} (absent : ∀ u ∈ transfers, u.reg ≠ t.reg) :
    Inst.swapping t.reg t.data ∘ substitute transfers = substitute (transfers ++ [t]) ∧
      Inst.swapping t.reg t.data ∘ substitute transfers = substitute (t :: transfers) := by
  constructor <;> funext reg <;> cases reg with
  | phys reg => simp [substitute, Inst.swapping]
  | virt v =>
    by_cases same : t.reg = v
    · subst same
      have none : transfers.find? (·.reg = t.reg) = none :=
        List.find?_eq_none.mpr fun u member => by simpa using absent u member
      simp [substitute, Inst.swapping, none, List.find?_append]
    · cases found : transfers.find? (·.reg = v) with
      | none => simp [substitute, Inst.swapping, found, List.find?_append, same, Ne.symm same]
      | some u => simp [substitute, Inst.swapping, found, List.find?_append, same]

theorem substitute_eq_virt {transfers : List Transfer} {reg : Reg} {v : VirtReg}
    (same : substitute transfers reg = .virt v) : reg = .virt v := by
  cases reg with
  | phys reg => cases same
  | virt w =>
    simp only [substitute] at same
    split at same
    · cases same
    · exact same

namespace Patch

def rename (p : Patch) (f : Reg → Reg) : Patch := { p with inst := (p.inst.mapUses f).mapDefs f }

/-- What becomes of an instruction: the registers `reads` that it reads are loaded from their slots, the registers
`writes` that it writes are stored. -/
structure Carries (reads writes : List (VirtReg × UInt64)) (loads stores : List Transfer) (p : Patch) : Prop where
  before : p.before = loads.flatMap fun t => Inst.loadSlot t.data t.address t.offset
  after : p.after = stores.flatMap fun t => Inst.storeSlot t.data t.address t.offset
  inst : p.inst = (p.source.mapUses (substitute loads)).mapDefs (substitute stores)
  taken : p.taken = loads.map Transfer.data
  loaded : ∀ v offset, (∃ t ∈ loads, t.reg = v ∧ t.offset = offset) ↔ (v, offset) ∈ reads ∧ .virt v ∈ p.source.uses
  stored : ∀ v offset, (∃ t ∈ stores, t.reg = v ∧ t.offset = offset) ↔ (v, offset) ∈ writes ∧ .virt v ∈ p.source.defs
  loadsOnce : (loads.map Transfer.reg).Nodup
  storesOnce : (stores.map Transfer.reg).Nodup
  takenOnce : (loads.map Transfer.data).Nodup
  scratch : ∀ t ∈ loads, t.data ∈ PhysReg.scratch t.reg.file ∧ .phys t.data ∉ p.source.uses
  address : ∀ pre t post, loads = pre ++ t :: post → slotFits t.offset = false →
    t.address ∈ PhysReg.scratchGeneral ∧ .phys t.address ∉ p.source.uses ∧ ∀ u ∈ pre, t.address ≠ u.data
  writeBack : ∀ t ∈ stores, (t.data, t.address) = writeBackRegs t.reg.file t.offset

variable {reads writes : List (VirtReg × UInt64)} {loads stores : List Transfer} {p : Patch} {reg : VirtReg}
  {offset : UInt64}

theorem carries_ofInst (inst : Inst Nat) : Carries [] [] [] [] (ofInst inst) where
  before := rfl
  after := rfl
  inst := by simp [substitute_nil, ofInst]
  taken := rfl
  loaded := by simp
  stored := by simp
  loadsOnce := .nil
  storesOnce := .nil
  takenOnce := .nil
  scratch := by simp
  address := by simp
  writeBack := by simp

/-- Transfers and a renaming act on the operands one after the other. -/
theorem Carries.inst_renamed (carries : Carries reads writes loads stores p) (f : Reg → Reg) :
    (p.rename f).inst = (p.source.mapUses (f ∘ substitute loads)).mapDefs (f ∘ substitute stores) := by
  simp only [rename, carries.inst, Inst.mapUses_mapDefs, Inst.mapUses_mapUses, Inst.mapDefs_mapDefs]

theorem Carries.uses (carries : Carries reads writes loads stores p) :
    p.inst.uses = p.source.uses.map (substitute loads) := by
  rw [carries.inst, Inst.uses_mapDefs, Inst.uses_mapUses (substitute_steady loads)]

theorem Carries.defs (carries : Carries reads writes loads stores p) :
    p.inst.defs = p.source.defs.map (substitute stores) := by
  rw [carries.inst, Inst.defs_mapDefs (substitute_steady stores), Inst.defs_mapUses]

theorem Carries.fresh (carries : Carries reads writes loads stores p) (unloaded : reg ∉ reads.map Prod.fst) :
    ∀ t ∈ loads, t.reg ≠ reg := by
  rintro t member rfl
  exact unloaded (List.mem_map_of_mem ((carries.loaded t.reg t.offset).mp ⟨t, member, rfl, rfl⟩).1)

theorem Carries.unstored (carries : Carries reads writes loads stores p) (absent : reg ∉ writes.map Prod.fst) :
    ∀ t ∈ stores, t.reg ≠ reg := by
  rintro t member rfl
  exact absent (List.mem_map_of_mem ((carries.stored t.reg t.offset).mp ⟨t, member, rfl, rfl⟩).1)

/-- A register that has not been planned is still read where it was. -/
theorem Carries.reads_iff (carries : Carries reads writes loads stores p) (unloaded : reg ∉ reads.map Prod.fst) :
    .virt reg ∈ p.inst.uses ↔ .virt reg ∈ p.source.uses := by
  rw [carries.uses, List.mem_map]
  constructor
  · rintro ⟨other, used, same⟩
    rwa [substitute_eq_virt same] at used
  · exact fun used => ⟨_, used, substitute_of_not_moved (carries.fresh unloaded)⟩

theorem Carries.writes_iff (carries : Carries reads writes loads stores p) (absent : reg ∉ writes.map Prod.fst) :
    .virt reg ∈ p.inst.defs ↔ .virt reg ∈ p.source.defs := by
  rw [carries.defs, List.mem_map]
  constructor
  · rintro ⟨other, defined, same⟩
    rwa [substitute_eq_virt same] at defined
  · exact fun defined => ⟨_, defined, substitute_of_not_moved (carries.unstored absent)⟩

/-- A scratch register of a file that can be loaded: the instruction does not read it, and it holds nothing. -/
structure Free (p : Patch) (file : RegFile) (reg : PhysReg) : Prop where
  scratch : reg ∈ PhysReg.scratch file
  unread : .phys reg ∉ p.inst.uses
  untaken : reg ∉ p.taken

theorem free_of_scratch? {file : RegFile} {chosen : PhysReg} (found : p.scratch? file = some chosen) :
    p.Free file chosen := by
  have holds := List.find?_some found
  simp only [decide_eq_true_eq] at holds
  exact ⟨List.mem_of_find?_eq_some found, holds.1, holds.2⟩

/-- A reload takes free registers, and an address that does not fit is computed in a general one. -/
theorem free_of_reloadRegs? {data address : PhysReg} (chosen : p.reloadRegs? reg offset = some (data, address)) :
    p.Free reg.file data ∧ (slotFits offset = false → p.Free .general address) := by
  simp only [reloadRegs?, Option.bind_eq_bind, Option.bind_eq_some_iff] at chosen
  obtain ⟨_, found, chosen⟩ := chosen
  have free := free_of_scratch? found
  by_cases far : reg.file = .float ∧ !slotFits offset
  · simp only [if_pos far, Option.bind_eq_some_iff, pure, Option.some.injEq, Prod.mk.injEq] at chosen
    obtain ⟨_, found', rfl, rfl⟩ := chosen
    obtain ⟨scratch, unread, untaken⟩ := free_of_scratch? found'
    exact ⟨free, fun _ => ⟨scratch, unread, fun taken => untaken (by simp [taken])⟩⟩
  · simp only [if_neg far, pure, Option.some.injEq, Prod.mk.injEq] at chosen
    obtain ⟨rfl, rfl⟩ := chosen
    refine ⟨free, fun beyond => ?_⟩
    have general : reg.file = .general := by
      cases file : reg.file with
      | general => rfl
      | float => exact absurd ⟨file, by simp [beyond]⟩ far
    rwa [general] at free

theorem Carries.of_free (carries : Carries reads writes loads stores p) {file : RegFile} {free : PhysReg}
    (found : p.Free file free) : .phys free ∉ p.source.uses ∧ free ∉ loads.map Transfer.data := by
  refine ⟨fun uses => found.unread ?_, carries.taken ▸ found.untaken⟩
  rw [carries.uses]
  exact List.mem_map.mpr ⟨_, uses, rfl⟩

theorem Carries.reloaded (carries : Carries reads writes loads stores p) {t : Transfer}
    (unloaded : t.reg ∉ reads.map Prod.fst) (used : .virt t.reg ∈ p.source.uses)
    (chosen : p.reloadRegs? t.reg t.offset = some (t.data, t.address)) :
    Carries (reads ++ [(t.reg, t.offset)]) writes (loads ++ [t]) stores (p.reload t) := by
  have fresh := carries.fresh unloaded
  obtain ⟨data, address⟩ := free_of_reloadRegs? chosen
  obtain ⟨unread, untaken⟩ := carries.of_free data
  refine { carries with
    before := ?before, inst := ?inst, taken := ?taken, loaded := ?loaded, loadsOnce := ?loadsOnce,
    takenOnce := ?takenOnce, scratch := ?scratch, address := ?address }
  case before => simp [reload, carries.before]
  case inst =>
    simp only [reload, Inst.replaceUse, carries.inst]
    rw [Inst.mapUses_mapDefs, Inst.mapUses_mapUses, (swapping_substitute fresh).1]
  case taken => simp [reload, carries.taken]
  case loaded =>
    intro v offset
    have known := carries.loaded v offset
    simp only [List.mem_append, List.mem_singleton, Prod.mk.injEq, or_and_right, exists_or, exists_eq_left, known,
      reload]
    refine or_congr_right ⟨?_, ?_⟩
    · rintro ⟨rfl, rfl⟩
      exact ⟨⟨rfl, rfl⟩, used⟩
    · rintro ⟨⟨rfl, rfl⟩, -⟩
      exact ⟨rfl, rfl⟩
  case loadsOnce =>
    rw [List.map_append, List.map_singleton, ← List.concat_eq_append]
    refine carries.loadsOnce.concat fun member => ?_
    obtain ⟨u, inLoads, same⟩ := List.mem_map.mp member
    exact fresh u inLoads same
  case takenOnce =>
    rw [List.map_append, List.map_singleton, ← List.concat_eq_append]
    exact carries.takenOnce.concat untaken
  case scratch =>
    intro u member
    rcases List.mem_append.mp member with member | member
    · exact carries.scratch u member
    · rw [List.mem_singleton.mp member]
      exact ⟨data.scratch, unread⟩
  case address =>
    intro pre u post split beyond
    -- Only the last load is new; an earlier one has the same loads before it as it had.
    rcases List.eq_nil_or_concat post with rfl | ⟨post, last, rfl⟩
    · obtain ⟨rfl, same⟩ := List.append_inj' split rfl
      cases same
      obtain ⟨unused, differ⟩ := carries.of_free (address beyond)
      exact ⟨(address beyond).scratch, unused, fun other inLoads same => differ (same ▸ List.mem_map_of_mem inLoads)⟩
    · rw [List.concat_eq_append, ← List.cons_append, ← List.append_assoc] at split
      exact carries.address pre u post (List.append_inj' split rfl).1 beyond

theorem Carries.unread (carries : Carries reads writes loads stores p) (unused : .virt reg ∉ p.source.uses) :
    Carries (reads ++ [(reg, offset)]) writes loads stores p := by
  refine { carries with loaded := fun v other => (carries.loaded v other).trans ?_ }
  refine and_congr_left fun used => ?_
  have differ : v ≠ reg := fun same => unused (same ▸ used)
  simp [differ]

theorem Carries.writtenBack (carries : Carries reads writes loads stores p) {t : Transfer}
    (absent : t.reg ∉ writes.map Prod.fst) (defined : .virt t.reg ∈ p.source.defs)
    (chosen : (t.data, t.address) = writeBackRegs t.reg.file t.offset) :
    Carries reads (writes ++ [(t.reg, t.offset)]) loads (t :: stores) (p.writeBack t) := by
  have fresh := carries.unstored absent
  refine { carries with
    after := ?after, inst := ?inst, stored := ?stored, storesOnce := ?storesOnce, writeBack := ?writeBack }
  case after => simp [Patch.writeBack, carries.after]
  case inst =>
    simp only [Patch.writeBack, Inst.replaceDef, carries.inst]
    rw [Inst.mapDefs_mapDefs, (swapping_substitute fresh).2]
  case stored =>
    intro v offset
    have known := carries.stored v offset
    simp only [List.mem_append, List.mem_cons, List.not_mem_nil, or_false, Prod.mk.injEq, or_and_right, exists_or,
      exists_eq_left, known, Patch.writeBack]
    rw [or_comm]
    refine or_congr_right ⟨?_, ?_⟩
    · rintro ⟨rfl, rfl⟩
      exact ⟨⟨rfl, rfl⟩, defined⟩
    · rintro ⟨⟨rfl, rfl⟩, -⟩
      exact ⟨rfl, rfl⟩
  case storesOnce =>
    refine List.nodup_cons.mpr ⟨fun member => ?_, carries.storesOnce⟩
    obtain ⟨u, inStores, same⟩ := List.mem_map.mp member
    exact fresh u inStores same
  case writeBack =>
    intro u member
    rcases List.mem_cons.mp member with rfl | member
    · exact chosen
    · exact carries.writeBack u member

theorem Carries.unwritten (carries : Carries reads writes loads stores p) (unused : .virt reg ∉ p.source.defs) :
    Carries reads (writes ++ [(reg, offset)]) loads stores p := by
  refine { carries with stored := fun v other => (carries.stored v other).trans ?_ }
  refine and_congr_left fun used => ?_
  have differ : v ≠ reg := fun same => unused (same ▸ used)
  simp [differ]

/-- What planning a register puts before an instruction: a load if the instruction reads it. -/
inductive Reloaded (reg : VirtReg) (offset : UInt64) (p : Patch) : Patch → Prop
  | loaded (number : Nat) (data address : PhysReg) (reads : .virt reg ∈ p.source.uses)
    (chosen : p.reloadRegs? reg offset = some (data, address)) :
    Reloaded reg offset p (p.reload { number, reg, data, address, offset })
  | kept (unread : .virt reg ∉ p.source.uses) : Reloaded reg offset p p

/-- What planning a register puts after an instruction: a store if the instruction writes it. -/
inductive WrittenBack (reg : VirtReg) (offset : UInt64) (p : Patch) : Patch → Prop
  | stored (number : Nat) (data address : PhysReg) (writes : .virt reg ∈ p.source.defs)
    (chosen : (data, address) = writeBackRegs reg.file offset) :
    WrittenBack reg offset p (p.writeBack { number, reg, data, address, offset })
  | kept (unwritten : .virt reg ∉ p.source.defs) : WrittenBack reg offset p p

theorem Reloaded.source {q : Patch} (reloaded : Reloaded reg offset p q) : q.source = p.source := by
  cases reloaded <;> rfl

theorem WrittenBack.source {q : Patch} (writtenBack : WrittenBack reg offset p q) : q.source = p.source := by
  cases writtenBack <;> rfl

end Patch

/-! ## Where a register is read and written -/

/-- In a body of blocks that share nothing every instruction is stored under its own number. -/
theorem Body.getElem?_cells {body : Body} (plain : body = .ofBlocks body.blocks) {n : Nat}
    (inside : n < body.insts.length) : body.cells[n]? = some n := by
  have cells : body.cells = List.range body.insts.length := by
    rw [plain]
    rfl
  rw [cells, List.getElem?_range inside]

namespace SiteWalk

variable {body : Body} {patches : Array Patch} {reg : Reg} {w : SiteWalk}

/-- What a walk has found at the instructions that it has come to. -/
structure Sound (body : Body) (patches : Array Patch) (reg : Reg) (w : SiteWalk) : Prop where
  number : ∀ site ∈ w.readers ++ w.writers, site.number = site.cell ∧ site.number < body.insts.length
  readersOnce : (w.readers.map Site.cell).Nodup
  writersOnce : (w.writers.map Site.cell).Nodup
  readers : ∀ n, n ∈ w.readers.map Site.cell ↔ n ∈ w.seen ∧ ∃ p, patches[n]? = some p ∧ reg ∈ p.inst.uses
  writers : ∀ n, n ∈ w.writers.map Site.cell ↔ n ∈ w.seen ∧ ∃ p, patches[n]? = some p ∧ reg ∈ p.inst.defs

theorem Sound.empty : Sound body patches reg {} where
  number := by simp
  readersOnce := .nil
  writersOnce := .nil
  readers := by simp
  writers := by simp

/-- Sites of the instructions with a property, after one more instruction has been looked at. -/
theorem sites_visited {sites : List Site} {seen : List Nat} {number : Nat} {holds : Nat → Prop} {here : Prop}
    [Decidable here] (once : (sites.map Site.cell).Nodup) (known : ∀ n, n ∈ sites.map Site.cell ↔ n ∈ seen ∧ holds n)
    (new : number ∉ seen) (now : here ↔ holds number) :
    ((if here then sites ++ [{ number, cell := number }] else sites).map Site.cell).Nodup ∧
      ∀ n, n ∈ (if here then sites ++ [{ number, cell := number }] else sites).map Site.cell ↔
        n ∈ number :: seen ∧ holds n := by
  have absent : number ∉ sites.map Site.cell := fun member => new ((known number).mp member).1
  split
  · next named =>
    rw [List.map_append, List.map_singleton]
    refine ⟨List.concat_eq_append ▸ once.concat absent, fun n => ?_⟩
    rw [List.mem_append, known, List.mem_singleton, List.mem_cons]
    by_cases same : n = number
    · simp [same, now.mp named]
    · simp [same]
  · next unnamed =>
    refine ⟨once, fun n => ?_⟩
    rw [known, List.mem_cons]
    by_cases same : n = number
    · simp [same, mt now.mpr unnamed]
    · simp [same]

theorem Sound.visited (plain : body = .ofBlocks body.blocks) (sound : Sound body patches reg w) {number : Nat}
    {p : Patch} (inside : number < body.insts.length) (located : patches[number]? = some p) :
    ∃ w', visit body patches reg w number = some w' ∧ Sound body patches reg w' ∧
      ∀ n, n ∈ w'.seen ↔ n = number ∨ n ∈ w.seen := by
  unfold visit
  split
  · next seen =>
    refine ⟨w, rfl, sound, fun n => ⟨.inr, ?_⟩⟩
    rintro (rfl | member)
    · exact seen
    · exact member
  · next new =>
    simp only [Body.getElem?_cells plain inside, located, Option.bind_eq_bind, Option.bind_some, pure]
    refine ⟨_, rfl, ?_, fun n => List.mem_cons⟩
    obtain ⟨readersOnce, readers⟩ := sites_visited sound.readersOnce sound.readers new
      (show reg ∈ p.inst.uses ↔ _ by simp [located])
    obtain ⟨writersOnce, writers⟩ := sites_visited sound.writersOnce sound.writers new
      (show reg ∈ p.inst.defs ↔ _ by simp [located])
    refine ⟨fun site member => ?_, readersOnce, writersOnce, readers, writers⟩
    -- a site is an old one or the one just visited
    have old := sound.number site
    grind

theorem Sound.walked (plain : body = .ofBlocks body.blocks)
    (known : ∀ n < body.insts.length, ∃ p, patches[n]? = some p) {numbers : List Nat}
    (inside : ∀ n ∈ numbers, n < body.insts.length) (sound : Sound body patches reg w) :
    ∃ w', numbers.foldlM (visit body patches reg) w = some w' ∧ Sound body patches reg w' ∧
      ∀ n, n ∈ w'.seen ↔ n ∈ numbers ∨ n ∈ w.seen := by
  induction numbers generalizing w with
  | nil => exact ⟨w, rfl, sound, by simp⟩
  | cons number rest ih =>
    obtain ⟨here, inside⟩ := List.forall_mem_cons.mp inside
    obtain ⟨p, located⟩ := known number here
    obtain ⟨next, step, sound, seen⟩ := sound.visited plain here located
    obtain ⟨w', steps, sound, seen'⟩ := ih inside sound
    refine ⟨w', by rw [List.foldlM_cons, step]; exact steps, sound, fun n => ?_⟩
    rw [seen', seen, List.mem_cons]
    tauto

/-- A walk over ranges that stay within the body. -/
theorem along_sound (reg : Reg) (plain : body = .ofBlocks body.blocks)
    (known : ∀ n < body.insts.length, ∃ p, patches[n]? = some p) {ranges : List LiveRange}
    (inside : ∀ r ∈ ranges, ∀ n ∈ r.numbers, n < body.insts.length) :
    ∃ w, along body patches reg ranges = some w ∧ Sound body patches reg w ∧
      ∀ n, n ∈ w.seen ↔ ∃ r ∈ ranges, n ∈ r.numbers := by
  have walk (ranges : List LiveRange) (w : SiteWalk) (sound : Sound body patches reg w)
      (inside : ∀ r ∈ ranges, ∀ n ∈ r.numbers, n < body.insts.length) :
      ∃ w', ranges.foldlM (fun w range => range.numbers.foldlM (visit body patches reg) w) w = some w' ∧
        Sound body patches reg w' ∧ ∀ n, n ∈ w'.seen ↔ (∃ r ∈ ranges, n ∈ r.numbers) ∨ n ∈ w.seen := by
    induction ranges generalizing w with
    | nil => exact ⟨w, rfl, sound, by simp⟩
    | cons range rest ih =>
      obtain ⟨here, inside⟩ := List.forall_mem_cons.mp inside
      obtain ⟨next, step, sound, seen⟩ := sound.walked plain known here
      obtain ⟨w', steps, sound, seen'⟩ := ih next sound inside
      refine ⟨w', by rw [List.foldlM_cons, step]; exact steps, sound, fun n => ?_⟩
      rw [seen', seen, List.exists_mem_cons_iff, or_left_comm, or_assoc]
  obtain ⟨w, found, sound, seen⟩ := walk ranges {} .empty inside
  exact ⟨w, found, sound, fun n => (seen n).trans (by simp)⟩

/-- What a walk finds: the instructions of a body that read a register and those that write it, each once. -/
structure Finds (body : Body) (reg : VirtReg) (w : SiteWalk) : Prop where
  number : ∀ site ∈ w.readers ++ w.writers, site.number = site.cell ∧ site.number < body.insts.length
  readersOnce : (w.readers.map Site.cell).Nodup
  writersOnce : (w.writers.map Site.cell).Nodup
  readers : ∀ n inst, body.insts[n]? = some inst → (n ∈ w.readers.map Site.cell ↔ .virt reg ∈ inst.uses)
  writers : ∀ n inst, body.insts[n]? = some inst → (n ∈ w.writers.map Site.cell ↔ .virt reg ∈ inst.defs)

end SiteWalk

/-! ## Plans -/

/-- A transfer of a register at an instruction, in registers for spill code. An address that does not fit is computed in
a general one. -/
structure Transfer.MovesAt (t : Transfer) (number : Nat) (reg : VirtReg) (offset : UInt64) : Prop where
  number : t.number = number
  reg : t.reg = reg
  offset : t.offset = offset
  data : t.data ∈ PhysReg.scratch t.reg.file
  address : slotFits t.offset = false → t.address ∈ PhysReg.scratchGeneral

theorem PhysReg.writeBackRegs_file (file : RegFile) (offset : UInt64) :
    (writeBackRegs file offset).1 ∈ scratch file ∧ (writeBackRegs file offset).2 ∈ scratchGeneral := by
  cases file <;> cases fits : slotFits offset <;> simp [writeBackRegs, fits] <;> decide

def SpillStep.transfer? : SpillStep → Option Transfer
  | .grow => none
  | .reload t | .writeBack t => some t

/-- What a step of a plan makes of the instructions that are stored under their numbers. -/
def SpillStep.patch (patches : Array Patch) : SpillStep → Array Patch
  | .grow => patches
  | .reload t => patches.modify t.number (·.reload t)
  | .writeBack t => patches.modify t.number (·.writeBack t)

namespace SpillPlan

variable {reg : VirtReg} {offset : UInt64} {sites : List Site} {patches patches' : Array Patch}
  {steps : List SpillStep}

theorem reloads_patch {failure : Option Nat} (same : ∀ site ∈ sites, site.number = site.cell)
    (result : reloads reg offset sites patches = (patches', steps, failure)) :
    patches' = steps.foldl SpillStep.patch patches := by
  induction sites generalizing patches steps with
  | nil =>
    cases result
    rfl
  | cons site rest ih =>
    unfold reloads at result
    split at result
    · cases result
      rfl
    · next data address chosen =>
      cases result
      rw [ih (fun other member => same other (List.mem_cons_of_mem _ member)) rfl, List.foldl_cons, SpillStep.patch,
        same site List.mem_cons_self]

theorem writeBacks_patch (same : ∀ site ∈ sites, site.number = site.cell)
    (result : writeBacks reg offset sites patches = (patches', steps)) :
    patches' = steps.foldl SpillStep.patch patches := by
  induction sites generalizing patches steps with
  | nil =>
    cases result
    rfl
  | cons site rest ih =>
    cases result
    rw [ih (fun other member => same other (List.mem_cons_of_mem _ member)) rfl, List.foldl_cons, SpillStep.patch,
      same site List.mem_cons_self]

/-- Reloads that all find a scratch register are one for each instruction. -/
theorem reloads_steps (result : reloads reg offset sites patches = (patches', steps, none)) :
    List.Forall₂ (fun site step => ∃ t : Transfer, step = .reload t ∧ t.MovesAt site.number reg offset) sites
      steps := by
  induction sites generalizing patches steps with
  | nil =>
    cases result
    exact .nil
  | cons site rest ih =>
    unfold reloads at result
    split at result
    · cases result
    · next data address chosen =>
      dsimp only at result
      generalize found : reloads reg offset rest _ = outcome at result
      obtain ⟨_, _, _⟩ := outcome
      cases result
      obtain ⟨p, -, chosen⟩ := Option.bind_eq_some_iff.mp chosen
      obtain ⟨free, general⟩ := Patch.free_of_reloadRegs? chosen
      exact .cons ⟨_, rfl, rfl, rfl, rfl, free.scratch, fun beyond => (general beyond).scratch⟩ (ih found)

theorem writeBacks_steps (result : writeBacks reg offset sites patches = (patches', steps)) :
    List.Forall₂ (fun site step => ∃ t : Transfer, step = .writeBack t ∧ t.MovesAt site.number reg offset) sites
      steps := by
  induction sites generalizing patches steps with
  | nil =>
    cases result
    exact .nil
  | cons site rest ih =>
    cases result
    obtain ⟨data, address⟩ := PhysReg.writeBackRegs_file reg.file offset
    exact .cons ⟨_, rfl, rfl, rfl, rfl, data, fun _ => address⟩ (ih rfl)

theorem grow_notMem_reloads (result : reloads reg offset sites patches = (patches', steps, none)) : .grow ∉ steps := by
  intro member
  obtain ⟨_, -, _, same, -⟩ := forall₂_mem_right (reloads_steps result) member
  cases same

theorem grow_notMem_writeBacks (result : writeBacks reg offset sites patches = (patches', steps)) : .grow ∉ steps := by
  intro member
  obtain ⟨_, -, _, same, -⟩ := forall₂_mem_right (writeBacks_steps result) member
  cases same

/-- Reloads that all find a scratch register change each given instruction once and no other one. -/
theorem reloads_ok (once : (sites.map Site.cell).Nodup)
    (result : reloads reg offset sites patches = (patches', steps, none)) {n : Nat} {p : Patch}
    (located : patches[n]? = some p) :
    (n ∈ sites.map Site.cell → ∃ t : Transfer, t.reg = reg ∧ t.offset = offset ∧
      p.reloadRegs? reg offset = some (t.data, t.address) ∧ patches'[n]? = some (p.reload t)) ∧
    (n ∉ sites.map Site.cell → patches'[n]? = some p) := by
  induction sites generalizing patches steps p with
  | nil =>
    cases result
    exact ⟨fun member => (nomatch member), fun _ => located⟩
  | cons site rest ih =>
    obtain ⟨absent, once⟩ := List.nodup_cons.mp once
    unfold reloads at result
    split at result
    · cases result
    · next data address chosen =>
      dsimp only at result
      generalize found : reloads reg offset rest _ = outcome at result
      obtain ⟨_, _, _⟩ := outcome
      cases result
      by_cases same : site.cell = n
      · subst same
        rw [located, Option.bind_some] at chosen
        refine ⟨fun _ => ⟨⟨site.number, reg, data, address, offset⟩, rfl, rfl, chosen, (ih once found ?_).2 absent⟩,
          fun outside => absurd List.mem_cons_self outside⟩
        simp [Array.getElem?_modify, located]
      · obtain ⟨inside, outside⟩ := ih once found (by simpa [Array.getElem?_modify, same] using located)
        simpa [Ne.symm same] using And.intro inside outside

theorem writeBacks_ok (once : (sites.map Site.cell).Nodup)
    (result : writeBacks reg offset sites patches = (patches', steps)) {n : Nat} {p : Patch}
    (located : patches[n]? = some p) :
    (n ∈ sites.map Site.cell → ∃ t : Transfer, t.reg = reg ∧ t.offset = offset ∧
      (t.data, t.address) = writeBackRegs reg.file offset ∧ patches'[n]? = some (p.writeBack t)) ∧
    (n ∉ sites.map Site.cell → patches'[n]? = some p) := by
  induction sites generalizing patches steps p with
  | nil =>
    cases result
    exact ⟨fun member => (nomatch member), fun _ => located⟩
  | cons site rest ih =>
    obtain ⟨absent, once⟩ := List.nodup_cons.mp once
    unfold writeBacks at result
    dsimp only at result
    generalize found : writeBacks reg offset rest _ = outcome at result
    obtain ⟨_, _⟩ := outcome
    cases result
    by_cases same : site.cell = n
    · subst same
      refine ⟨fun _ => ⟨⟨site.number, reg, (writeBackRegs reg.file offset).1, (writeBackRegs reg.file offset).2,
        offset⟩, rfl, rfl, rfl, (ih once found ?_).2 absent⟩, fun outside => absurd List.mem_cons_self outside⟩
      simp [Array.getElem?_modify, located]
    · obtain ⟨inside, outside⟩ := ih once found (by simpa [Array.getElem?_modify, same] using located)
      simpa [Ne.symm same] using And.intro inside outside

variable {live : LiveRanges} {body : Body} {plan : SpillPlan} {regs : List VirtReg}

/-- What planning a register without failure adds to a plan. -/
theorem spill_ok (complete : (spill live body plan reg).ending = .complete) :
    plan.ending = .complete ∧ plan.frame.toNat + 8 < 2 ^ 64 ∧ ∃ walk loaded loads stored stores,
      SiteWalk.along body plan.patches reg (live.ranges reg) = some walk ∧
      reloads reg plan.frame walk.readers plan.patches = (loaded, loads, none) ∧
      writeBacks reg plan.frame walk.writers loaded = (stored, stores) ∧
      spill live body plan reg = {
        patches := stored, frame := plan.frame + 8, steps := plan.steps ++ [.grow] ++ loads ++ stores
        slots := plan.slots ++ [(reg, plan.frame)] } := by
  unfold spill at complete ⊢
  by_cases going : plan.ending ≠ .complete
  · rw [if_pos going] at complete
    exact absurd complete going
  · rw [if_neg going] at complete ⊢
    cases walked : SiteWalk.along body plan.patches reg (live.ranges reg) with
    | none =>
      rw [walked] at complete
      cases complete
    | some walk =>
      simp only [walked] at complete ⊢
      by_cases full : UInt64.size ≤ plan.frame.toNat + 8
      · rw [if_pos full] at complete
        cases complete
      · rw [if_neg full] at complete ⊢
        generalize found : reloads reg plan.frame _ _ = outcome at complete ⊢
        obtain ⟨loaded, loads, failure⟩ := outcome
        cases failure with
        | some number => cases complete
        | none => exact ⟨not_not.mp going, Nat.lt_of_not_le full, walk, loaded, loads, _, _, rfl, found, rfl, rfl⟩

/-- The plan of registers in order: each has a slot of its own and is moved at the instructions that name it. -/
structure Planned (body : Body) (regs : List VirtReg) (plan : SpillPlan) : Prop where
  slots : plan.slots.map Prod.fst = regs
  offsets : (plan.slots.map Prod.snd).Nodup
  below : ∀ slot ∈ plan.slots, slot.2 < plan.frame
  patches : ∀ (n : Nat) inst, body.insts[n]? = some inst → ∃ (p : Patch) (loads stores : List Transfer),
    plan.patches[n]? = some p ∧ p.source = inst ∧ p.Carries plan.slots plan.slots loads stores

/-- The walk along the ranges of a register finds the instructions that name it, whatever has been planned for other
registers before. -/
theorem Planned.finds (plain : body = .ofBlocks body.blocks) (spans : live.Spans body)
    (planned : Planned body regs plan) (new : reg ∉ regs) :
    ∃ walk, SiteWalk.along body plan.patches reg (live.ranges reg) = some walk ∧ walk.Finds body reg := by
  rw [← planned.slots] at new
  have known (n : Nat) (inside : n < body.insts.length) : ∃ p, plan.patches[n]? = some p := by
    obtain ⟨p, _, _, located, -⟩ := planned.patches n _ (List.getElem?_eq_getElem inside)
    exact ⟨p, located⟩
  obtain ⟨walk, walked, sound, seen⟩ :=
    SiteWalk.along_sound reg plain known fun r member => spans.within reg r member
  refine ⟨walk, walked, sound.number, sound.readersOnce, sound.writersOnce, fun n inst located => ?_,
    fun n inst located => ?_⟩
  · obtain ⟨p, loads, stores, found, rfl, carries⟩ := planned.patches n inst located
    rw [sound.readers, seen, found]
    simp only [Option.some.injEq, exists_eq_left', carries.reads_iff new]
    exact and_iff_right_of_imp fun reads => spans.covers n _ reg located (.inl reads)
  · obtain ⟨p, loads, stores, found, rfl, carries⟩ := planned.patches n inst located
    rw [sound.writers, seen, found]
    simp only [Option.some.injEq, exists_eq_left', carries.writes_iff new]
    exact and_iff_right_of_imp fun writes => spans.covers n _ reg located (.inr writes)

/-- What planning a register makes of one instruction. -/
theorem spill_patch {walk : SiteWalk} (finds : walk.Finds body reg) {loaded stored : Array Patch}
    {loads stores : List SpillStep} (reloaded : reloads reg offset walk.readers patches = (loaded, loads, none))
    (writtenBack : writeBacks reg offset walk.writers loaded = (stored, stores)) {n : Nat} {p : Patch}
    (located : body.insts[n]? = some p.source) (found : patches[n]? = some p) :
    ∃ q r, stored[n]? = some r ∧ p.Reloaded reg offset q ∧ q.WrittenBack reg offset r := by
  obtain ⟨q, inLoaded, first⟩ : ∃ q, loaded[n]? = some q ∧ p.Reloaded reg offset q := by
    obtain ⟨inside, outside⟩ := reloads_ok finds.readersOnce reloaded found
    rw [finds.readers n _ located] at inside outside
    by_cases reads : .virt reg ∈ p.source.uses
    · obtain ⟨⟨number, _, data, address, _⟩, rfl, rfl, chosen, inLoaded⟩ := inside reads
      exact ⟨_, inLoaded, .loaded number data address reads chosen⟩
    · exact ⟨p, outside reads, .kept reads⟩
  obtain ⟨inside, outside⟩ := writeBacks_ok finds.writersOnce writtenBack inLoaded
  rw [finds.writers n _ located, ← first.source] at inside outside
  by_cases writes : .virt reg ∈ q.source.defs
  · obtain ⟨⟨number, _, data, address, _⟩, rfl, rfl, chosen, inStored⟩ := inside writes
    exact ⟨q, _, inStored, first, .stored number data address writes chosen⟩
  · exact ⟨q, q, outside writes, first, .kept writes⟩

theorem Planned.spilled (plain : body = .ofBlocks body.blocks) (spans : live.Spans body)
    (planned : Planned body regs plan) (new : reg ∉ regs) (complete : (spill live body plan reg).ending = .complete) :
    Planned body (regs ++ [reg]) (spill live body plan reg) := by
  obtain ⟨-, room, walk, loaded, loads, stored, stores, walked, reloaded, writtenBack, result⟩ := spill_ok complete
  obtain ⟨_, walked', finds⟩ := planned.finds plain spans new
  obtain rfl := Option.some.inj (walked.symm.trans walked')
  rw [← planned.slots] at new
  have grown : plan.frame < plan.frame + 8 := by
    rw [UInt64.lt_iff_toNat_lt, UInt64.toNat_add]
    have eight : UInt64.toNat 8 = 8 := rfl
    omega
  rw [result]
  refine ⟨by simp [planned.slots], ?_, fun slot member => ?_, fun n inst located => ?_⟩
  · rw [List.map_append, List.map_singleton, ← List.concat_eq_append]
    refine planned.offsets.concat fun member => ?_
    obtain ⟨slot, inSlots, same⟩ := List.mem_map.mp member
    exact UInt64.lt_irrefl _ (same ▸ planned.below slot inSlots)
  · rcases List.mem_append.mp member with member | member
    · exact UInt64.lt_trans (planned.below slot member) grown
    · rw [List.mem_singleton.mp member]
      exact grown
  · obtain ⟨p, loads, stores, found, rfl, carries⟩ := planned.patches n inst located
    obtain ⟨q, r, inPlan, reloaded, writtenBack⟩ := spill_patch finds reloaded writtenBack located found
    obtain ⟨loads, carries⟩ : ∃ loads, q.Carries (plan.slots ++ [(reg, plan.frame)]) plan.slots loads stores := by
      cases reloaded with
      | loaded number data address reads chosen =>
        exact ⟨_, carries.reloaded (t := ⟨number, reg, data, address, plan.frame⟩) new reads chosen⟩
      | kept unread => exact ⟨_, carries.unread unread⟩
    refine ⟨r, loads, ?_⟩
    cases writtenBack with
    | stored number data address writes chosen =>
      exact ⟨_, inPlan, reloaded.source,
        carries.writtenBack (t := ⟨number, reg, data, address, plan.frame⟩) new writes chosen⟩
    | kept unwritten => exact ⟨_, inPlan, reloaded.source, carries.unwritten unwritten⟩

theorem make_concat (live : LiveRanges) (body : Body) (frame : UInt64) (regs : List VirtReg) (reg : VirtReg) :
    make live body frame (regs ++ [reg]) = spill live body (make live body frame regs) reg := by
  simp [make]

variable {frame : UInt64}

theorem make_slots (complete : (make live body frame regs).ending = .complete) :
    (make live body frame regs).slots.map Prod.fst = regs := by
  induction regs using List.reverseRecOn with
  | nil => rfl
  | append_singleton regs reg ih =>
    rw [make_concat] at complete ⊢
    obtain ⟨before, -, _, _, _, _, _, -, -, -, result⟩ := spill_ok complete
    simp [result, ih before]

/-- The frame grows by the eight bytes of a slot for each register. -/
theorem make_frame (complete : (make live body frame regs).ending = .complete) :
    (make live body frame regs).frame.toNat = frame.toNat + 8 * regs.length ∧
      (make live body frame regs).steps.count .grow = regs.length := by
  induction regs using List.reverseRecOn with
  | nil => exact ⟨rfl, rfl⟩
  | append_singleton regs reg ih =>
    rw [make_concat] at complete ⊢
    obtain ⟨before, room, _, _, loads, _, stores, -, reloaded, writtenBack, result⟩ := spill_ok complete
    obtain ⟨size, grows⟩ := ih before
    have loading := List.count_eq_zero.mpr (grow_notMem_reloads reloaded)
    have storing := List.count_eq_zero.mpr (grow_notMem_writeBacks writtenBack)
    have eight : UInt64.toNat 8 = 8 := rfl
    rw [result, List.length_append, List.length_singleton]
    constructor
    · rw [UInt64.toNat_add, eight, Nat.mod_eq_of_lt room, size]
      omega
    · simp [List.count_append, loading, storing, grows]

theorem make_planned (plain : body = .ofBlocks body.blocks) (spans : live.Spans body) (once : regs.Nodup)
    (complete : (make live body frame regs).ending = .complete) : Planned body regs (make live body frame regs) := by
  induction regs using List.reverseRecOn with
  | nil =>
    refine ⟨rfl, .nil, fun slot member => (nomatch member), fun n inst located => ?_⟩
    exact ⟨.ofInst inst, [], [], by simp [make, located], rfl, Patch.carries_ofInst inst⟩
  | append_singleton regs reg ih =>
    rw [make_concat] at complete ⊢
    rw [← List.concat_eq_append] at once
    obtain ⟨new, once⟩ := List.nodup_concat regs reg |>.mp once
    exact (ih once (spill_ok complete).1).spilled plain spans new complete

/-- The run of a plan that is complete: for each register in order, the walk that finds its instructions and the steps
that follow from it. -/
theorem make_steps (plain : body = .ofBlocks body.blocks) (spans : live.Spans body) (once : regs.Nodup) {reg : VirtReg}
    (complete : (make live body frame (regs ++ [reg])).ending = .complete) (new : reg ∉ regs) :
    (make live body frame regs).ending = .complete ∧ ∃ walk : SiteWalk, ∃ loaded loads stored stores,
      walk.Finds body reg ∧
      reloads reg (make live body frame regs).frame walk.readers (make live body frame regs).patches =
        (loaded, loads, none) ∧
      writeBacks reg (make live body frame regs).frame walk.writers loaded = (stored, stores) ∧
      (make live body frame (regs ++ [reg])).steps = (make live body frame regs).steps ++ [.grow] ++ loads ++ stores ∧
      (make live body frame (regs ++ [reg])).patches = stored := by
  rw [make_concat] at complete ⊢
  obtain ⟨before, -, walk, loaded, loads, stored, stores, walked, reloaded, writtenBack, result⟩ := spill_ok complete
  obtain ⟨_, walked', finds⟩ := (make_planned plain spans once before).finds plain spans new
  obtain rfl := Option.some.inj (walked.symm.trans walked')
  exact ⟨before, walk, loaded, loads, stored, stores, finds, reloaded, writtenBack, by rw [result], by rw [result]⟩

theorem make_number_lt (plain : body = .ofBlocks body.blocks) (spans : live.Spans body) (once : regs.Nodup)
    {step : SpillStep} {t : Transfer} (complete : (make live body frame regs).ending = .complete)
    (member : step ∈ (make live body frame regs).steps) (moves : step.transfer? = some t) :
    t.number < body.insts.length := by
  induction regs using List.reverseRecOn with
  | nil => cases member
  | append_singleton regs reg ih =>
    rw [← List.concat_eq_append] at once
    obtain ⟨new, once⟩ := List.nodup_concat regs reg |>.mp once
    obtain ⟨before, walk, _, loads, _, stores, finds, reloaded, writtenBack, steps, -⟩ :=
      make_steps plain spans once complete new
    rw [steps, List.mem_append, List.mem_append, List.mem_append, List.mem_singleton] at member
    rcases member with ((old | rfl) | load) | store
    · exact ih once before old
    · cases moves
    · obtain ⟨site, inReaders, _, rfl, moved⟩ := forall₂_mem_right (reloads_steps reloaded) load
      cases moves
      rw [moved.number]
      exact (finds.number site (List.mem_append_left _ inReaders)).2
    · obtain ⟨site, inWriters, _, rfl, moved⟩ := forall₂_mem_right (writeBacks_steps writtenBack) store
      cases moves
      rw [moved.number]
      exact (finds.number site (List.mem_append_right _ inWriters)).2

theorem make_patches (plain : body = .ofBlocks body.blocks) (spans : live.Spans body) (once : regs.Nodup)
    (complete : (make live body frame regs).ending = .complete) : (make live body frame regs).patches =
      (make live body frame regs).steps.foldl SpillStep.patch (body.insts.map .ofInst).toArray := by
  induction regs using List.reverseRecOn with
  | nil => rfl
  | append_singleton regs reg ih =>
    rw [← List.concat_eq_append] at once
    obtain ⟨new, once⟩ := List.nodup_concat regs reg |>.mp once
    obtain ⟨before, walk, loaded, loads, stored, stores, finds, reloaded, writtenBack, steps, patches⟩ :=
      make_steps plain spans once complete new
    have here (site : Site) (inWalk : site ∈ walk.readers ++ walk.writers) := (finds.number site inWalk).1
    rw [steps, patches, List.foldl_append, List.foldl_append, List.foldl_append, ← ih once before, List.foldl_cons,
      List.foldl_nil, SpillStep.patch, ← reloads_patch (fun _ => here _ ∘ List.mem_append_left _) reloaded,
      ← writeBacks_patch (fun _ => here _ ∘ List.mem_append_right _) writtenBack]

theorem size_patch (steps : List SpillStep) (patches : Array Patch) :
    (steps.foldl SpillStep.patch patches).size = patches.size := by
  induction steps generalizing patches with
  | nil => rfl
  | cons step rest ih =>
    rw [List.foldl_cons, ih]
    cases step with
    | grow => rfl
    | reload | writeBack => exact Array.size_modify ..

theorem make_size (plain : body = .ofBlocks body.blocks) (spans : live.Spans body) (once : regs.Nodup)
    (complete : (make live body frame regs).ending = .complete) :
    (make live body frame regs).patches.size = body.insts.length := by
  rw [make_patches plain spans once complete, size_patch]
  simp

end SpillPlan

end RegisterAllocator
