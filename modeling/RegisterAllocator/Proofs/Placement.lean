import RegisterAllocator.Proofs.Explicit
import RegisterAllocator.Proofs.Liveness
import RegisterAllocator.Proofs.Spilling

/-!
# Where registers go

After an allocation a virtual register is in the physical register or in the slot of the frame that was chosen for it
(`Choice.place`). No virtual register has both (`make_placing`), and registers that an instruction needs at the same
time are in different places (`make_apart`), provided that the code does not name the registers that are withheld from
it.

Registers are put in place web by web, at the instructions of the ranges of each web. Since the ranges go over every
instruction that names the register, this renames every instruction throughout (`make_getElem?_patches`).
-/

namespace RegisterAllocator

namespace VirtMap

variable {α : Type} {rows : VirtMap α} {reg : VirtReg} {value : α}

theorem find?_eq_some (once : (rows.map Prod.fst).Nodup) : rows.find? reg = some value ↔ (reg, value) ∈ rows := by
  induction rows with
  | nil => simp [find?]
  | cons first rest ih =>
    obtain ⟨key, other⟩ := first
    obtain ⟨absent, once⟩ := List.nodup_cons.mp once
    by_cases same : key = reg
    · subst same
      have gone : (key, value) ∉ rest := fun member => absent (List.mem_map.mpr ⟨_, member, rfl⟩)
      simp [find?, gone, eq_comm]
    · simp [find?, same, Ne.symm same, ih once]

theorem find?_insert (rows : VirtMap α) (key reg : VirtReg) (value : α) :
    (rows.insert key value).find? reg = if key = reg then some value else rows.find? reg := by
  induction rows with
  | nil => rfl
  | cons first rest ih =>
    obtain ⟨other, stored⟩ := first
    unfold insert
    split
    · rfl
    · split
      · next same =>
        subst same
        by_cases here : other = reg <;> simp [find?, here]
      · next differ =>
        by_cases here : other = reg
        · subst here
          simp [find?, Ne.symm differ]
        · simp [find?, here, ih]

theorem find?_ofList (once : (rows.map Prod.fst).Nodup) :
    (ofList rows).find? reg = some value ↔ (reg, value) ∈ rows := by
  have go (start : VirtMap α) : (rows.foldl (fun m row => m.insert row.1 row.2) start).find? reg = some value ↔
      (reg, value) ∈ rows ∨ reg ∉ rows.map Prod.fst ∧ start.find? reg = some value := by
    induction rows generalizing start with
    | nil => simp
    | cons first rest ih =>
      obtain ⟨key, other⟩ := first
      obtain ⟨absent, once⟩ := List.nodup_cons.mp once
      rw [List.foldl_cons, ih once, find?_insert]
      by_cases same : key = reg
      · subst same
        have gone : (key, value) ∉ rest := fun member => absent (List.mem_map.mpr ⟨_, member, rfl⟩)
        simp [gone, absent, eq_comm]
      · simp [same, Ne.symm same]
  exact (go []).trans (by simp [find?])

theorem insert_perm (new : reg ∉ rows.map Prod.fst) : (rows.insert reg value).Perm ((reg, value) :: rows) := by
  induction rows with
  | nil => exact .refl _
  | cons first rest ih =>
    obtain ⟨key, other⟩ := first
    rw [List.map_cons, List.mem_cons, not_or] at new
    unfold insert
    split
    · exact .refl _
    · rw [if_neg (Ne.symm new.1)]
      exact ((ih new.2).cons _).trans (.swap ..)

theorem ofList_perm (once : (rows.map Prod.fst).Nodup) : (ofList rows).Perm rows := by
  induction rows using List.reverseRecOn with
  | nil => exact .refl _
  | append_singleton rows row ih =>
    rw [List.map_append, List.map_singleton, ← List.concat_eq_append] at once
    obtain ⟨new, once⟩ := (List.nodup_concat _ _).mp once
    have kept := ih once
    have last : ofList (rows ++ [row]) = (ofList rows).insert row.1 row.2 := by simp [ofList]
    rw [last]
    have absent : row.1 ∉ (ofList rows).map Prod.fst := fun member => new ((kept.map Prod.fst).mem_iff.mp member)
    exact (insert_perm absent).trans ((kept.cons row).trans (List.perm_append_singleton row rows).symm)

end VirtMap

/-- The renaming of the virtual registers in a table. -/
def VirtMap.rename (rows : VirtMap PhysReg) : Reg → Reg
  | .phys reg => .phys reg
  | .virt v =>
    match rows.find? v with
    | some reg => .phys reg
    | none => .virt v

/-- The renaming of the virtual registers that got registers. -/
def Allocation.rename (a : Allocation) : Reg → Reg := a.assignment.rename

/-- Where a register is after allocation: in a register, or in the slot at an offset. -/
def Choice.place (choice : Choice) : Reg → Reg ⊕ UInt64
  | .phys reg => .inl reg
  | .virt v =>
    match choice.assignment.find? v with
    | some reg => .inl reg
    | none =>
      match choice.slots.find? v with
      | some offset => .inr offset
      | none => .inl (.virt v)

/-- A placing of registers by a renaming for those that stay in registers and by slots for the others. -/
structure Placing (slots : List (VirtReg × UInt64)) (rename : Reg → Reg) (place : Reg → Reg ⊕ UInt64) : Prop where
  steady : Inst.Steady rename
  renamed : ∀ v, rename (.virt v) = .virt v ∨ ∃ reg : PhysReg, rename (.virt v) = reg ∧ reg.isAllocatable = true
  phys : ∀ reg : PhysReg, place reg = .inl reg
  slot : ∀ v offset, place (.virt v) = .inr offset ↔ (v, offset) ∈ slots
  home : ∀ v, v ∉ slots.map Prod.fst → place (.virt v) = .inl (rename (.virt v))
  offsets : ∀ v w offset, (v, offset) ∈ slots → (w, offset) ∈ slots → v = w

theorem Placing.rename_eq {slots : List (VirtReg × UInt64)} {rename : Reg → Reg} {place : Reg → Reg ⊕ UInt64}
    (placing : Placing slots rename place) {v : VirtReg} {reg : Reg} (here : place (.virt v) = .inl reg) :
    v ∉ slots.map Prod.fst ∧ rename (.virt v) = reg := by
  have inRegister : v ∉ slots.map Prod.fst := by
    intro member
    obtain ⟨⟨w, offset⟩, slot, rfl⟩ := List.mem_map.mp member
    rw [(placing.slot w offset).mpr slot] at here
    cases here
  rw [placing.home v inRegister] at here
  exact ⟨inRegister, Sum.inl.inj here⟩

section

variable {config : Config} {body : Body} {frame : UInt64}

theorem webs_inj {v w : Nat} {web web' : Web} (knownV : (Allocation.make config body frame).problem.webs[v]? = some web)
    (knownW : (Allocation.make config body frame).problem.webs[w]? = some web') (same : web.reg = web'.reg) :
    v = w := by
  have nodup := @webs_nodup config body frame
  rw [← Array.getElem?_toList] at knownV knownW
  have placeV : ((Allocation.make config body frame).problem.webs.toList.map Web.reg)[v]? = some web.reg := by
    rw [List.getElem?_map, knownV]
    rfl
  have placeW : ((Allocation.make config body frame).problem.webs.toList.map Web.reg)[w]? = some web.reg := by
    rw [List.getElem?_map, knownW, same]
    rfl
  exact (List.getElem?_inj (List.getElem?_eq_some_iff.mp placeV).1 nodup).mp (placeV.trans placeW.symm)

theorem mem_spills {a : Allocation} {v : VirtReg} : v ∈ a.problem.spills a.search.decisions ↔
    ∃ web w, web ∈ SearchState.spilled a.search.trace ∧ a.problem.webs[web]? = some w ∧ w.reg = v := by
  simp only [Problem.spills, SearchState.decisions, SearchState.spilled, List.mem_filterMap, List.mem_reverse]
  constructor
  · rintro ⟨decision, member, found⟩
    cases decision <;> simp only [Option.map_eq_some_iff, reduceCtorEq] at found
    obtain ⟨w, known, same⟩ := found
    exact ⟨_, w, ⟨_, member, rfl⟩, known, same⟩
  · rintro ⟨web, w, ⟨decision, member, found⟩, known, same⟩
    cases decision <;> simp only [Option.some.injEq, reduceCtorEq] at found
    subst found
    exact ⟨_, member, by simp [known, same]⟩

/-- The registers on the stack are those of the webs there, the first one first. -/
theorem spills_eq (a : Allocation) : a.problem.spills a.search.decisions =
    (SearchState.spilled a.search.trace).reverse.filterMap fun web => a.problem.webs[web]?.map Web.reg := by
  simp only [Problem.spills, SearchState.decisions, SearchState.spilled, ← List.filterMap_reverse,
    List.filterMap_filterMap]
  congr 1
  funext decision
  cases decision <;> rfl

theorem spills_nodup : ((Allocation.make config body frame).problem.spills
    (Allocation.make config body frame).search.decisions).Nodup := by
  rw [spills_eq]
  refine List.Nodup.filterMap ?_ (List.nodup_reverse.mpr (SearchState.finish_reachable _).spilledOnce.1)
  intro v w reg inV inW
  simp only [Option.mem_def, Option.map_eq_some_iff] at inV inW
  obtain ⟨web, knownV, rfl⟩ := inV
  obtain ⟨web', knownW, same⟩ := inW
  exact webs_inj knownV knownW same.symm

theorem not_assigned_of_spilled {v : VirtReg} {reg : PhysReg}
    (spilled : v ∈ (Allocation.make config body frame).problem.spills
      (Allocation.make config body frame).search.decisions) :
    (v, reg) ∉ (Allocation.make config body frame).assignment := by
  intro assigned
  obtain ⟨web, w, member, known, rfl⟩ := mem_spills.mp spilled
  obtain ⟨web', w', known', same, home⟩ := mem_assignment.mp assigned
  obtain rfl := webs_inj known' known same
  have reached := SearchState.finish_reachable (Allocation.make config body frame).problem
  have sound := reached.sound problem_proper
  have holding := sound.holding web' reg home
  have done := reached.spilledOnce.2 web' member
  rw [holding] at done
  cases done

/-- A virtual register has one web, and the web one register. -/
theorem homed_nodup : ((Allocation.make config body frame).homed.map (·.1.reg)).Nodup := by
  have keys (webs : List (Web × Nat)) : (webs.filterMap fun row =>
      ((Allocation.make config body frame).search.home? row.2).map fun reg => (row.1, reg)).map (·.1.reg) =
      (webs.filter fun row => ((Allocation.make config body frame).search.home? row.2).isSome).map (·.1.reg) := by
    induction webs with
    | nil => rfl
    | cons first rest ih =>
      cases home : (Allocation.make config body frame).search.home? first.2 <;> simp [home, ih]
  have held : (Allocation.make config body frame).homed.map (·.1.reg) = _ :=
    keys (Allocation.make config body frame).problem.webs.toList.zipIdx
  rw [held]
  have all : (Allocation.make config body frame).problem.webs.toList.zipIdx.map (Web.reg ∘ Prod.fst) =
      (Allocation.make config body frame).problem.webs.toList.map Web.reg := by
    rw [← List.map_map, List.zipIdx_map_fst]
  exact (all ▸ webs_nodup).sublist (List.filter_sublist.map _)

theorem assignment_nodup : ((Allocation.make config body frame).assignment.map Prod.fst).Nodup := by
  have keys : (Allocation.make config body frame).assignment.map Prod.fst =
      (Allocation.make config body frame).homed.map (·.1.reg) := by
    simp [Allocation.assignment, Problem.assignment, Allocation.homed]
  exact keys ▸ homed_nodup

theorem rename_eq {v : VirtReg} {reg : PhysReg} : (Allocation.make config body frame).rename (.virt v) = .phys reg ↔
    (v, reg) ∈ (Allocation.make config body frame).assignment := by
  rw [← VirtMap.find?_eq_some assignment_nodup]
  simp only [Allocation.rename, VirtMap.rename]
  cases (Allocation.make config body frame).assignment.find? v <;> simp

theorem isAllocatable_of_handedOut {file : RegFile} {reg : PhysReg} (handed : HandedOut config file reg) :
    reg.isAllocatable = true := by
  obtain ⟨-, place, located, -⟩ := handed
  exact List.contains_iff_mem.mpr (List.mem_of_mem_filter (List.mem_of_getElem? located))

abbrev Allocation.choice (a : Allocation) : Choice := { assignment := a.assignment, slots := a.slots, stats := a.stats }

theorem Allocation.choice_assignment (a : Allocation) : a.choice.assignment = a.assignment := rfl

theorem Allocation.choice_slots (a : Allocation) : a.choice.slots = a.slots := rfl

theorem spills_planned (plain : body = .ofBlocks body.blocks)
    (complete : (Allocation.make config body frame).plan.ending = .complete) :
    SpillPlan.Planned body ((Allocation.make config body frame).problem.spills
      (Allocation.make config body frame).search.decisions) (Allocation.make config body frame).plan :=
  SpillPlan.make_planned plain (LiveRanges.spans_ofBody body) (@spills_nodup config body frame) complete

theorem make_placing (plain : body = .ofBlocks body.blocks)
    (complete : (Allocation.make config body frame).plan.ending = .complete) :
    Placing (Allocation.make config body frame).plan.slots (Allocation.make config body frame).rename
      (Allocation.make config body frame).choice.place := by
  have planned := spills_planned plain complete
  have once : ((Allocation.make config body frame).plan.slots.map Prod.fst).Nodup := planned.slots ▸ spills_nodup
  have unassigned {v : VirtReg} (onStack : v ∈ (Allocation.make config body frame).plan.slots.map Prod.fst) :
      (Allocation.make config body frame).assignment.find? v = none := by
    rw [planned.slots] at onStack
    refine Option.eq_none_iff_forall_ne_some.mpr fun reg found => ?_
    exact not_assigned_of_spilled onStack ((VirtMap.find?_eq_some assignment_nodup).mp found)
  refine ⟨fun _ => rfl, fun v => ?_, fun _ => rfl, fun v offset => ?_, fun v inRegister => ?_,
    fun v w offset inV inW => ?_⟩
  · cases found : (Allocation.make config body frame).assignment.find? v with
    | none => exact .inl (by simp only [Allocation.rename, VirtMap.rename, found])
    | some reg =>
      refine .inr ⟨reg, by simp only [Allocation.rename, VirtMap.rename, found], ?_⟩
      have assigned := (VirtMap.find?_eq_some assignment_nodup).mp found
      exact isAllocatable_of_handedOut (make_separates.handedOut v reg assigned)
  · rw [← VirtMap.find?_ofList once]
    change _ ↔ (Allocation.make config body frame).slots.find? v = some offset
    cases slot : (Allocation.make config body frame).slots.find? v with
    | none => cases found : (Allocation.make config body frame).assignment.find? v <;> simp [Choice.place, found, slot]
    | some other =>
      have member := (VirtMap.find?_ofList once).mp slot
      simp [Choice.place, unassigned (List.mem_map_of_mem member), slot]
  · have slot : (Allocation.make config body frame).slots.find? v = none := by
      refine Option.eq_none_iff_forall_ne_some.mpr fun offset found => inRegister ?_
      exact List.mem_map.mpr ⟨_, (VirtMap.find?_ofList once).mp found, rfl⟩
    cases found : (Allocation.make config body frame).assignment.find? v <;>
      simp [Choice.place, found, slot, Allocation.rename, VirtMap.rename]
  · obtain ⟨n, inV⟩ := List.mem_iff_getElem?.mp inV
    obtain ⟨k, inW⟩ := List.mem_iff_getElem?.mp inW
    have same : n = k := by
      -- Slots are told apart by their offsets, which only grow.
      refine (List.getElem?_inj ?_ planned.offsets).mp (?_ : _ = _)
      · simpa using (List.getElem?_eq_some_iff.mp inV).1
      · rw [List.getElem?_map, List.getElem?_map, inV, inW]
        rfl
    rw [same, inW] at inV
    cases inV
    rfl

end

/-! ## Registers in place of webs -/

/-- In a table with one more row in front the register of that row is renamed first. -/
theorem VirtMap.rename_cons (v : VirtReg) (home : PhysReg) (rows : VirtMap PhysReg) :
    rename ((v, home) :: rows) = rename rows ∘ Inst.swapping v home := by
  funext reg
  cases reg with
  | phys reg => simp [rename, Inst.swapping]
  | virt u =>
    by_cases same : v = u
    · subst same
      simp [rename, find?, Inst.swapping]
    · simp [rename, find?, Inst.swapping, same, Ne.symm same]

namespace Patch

variable {p : Patch} {v u : VirtReg} {home : PhysReg}

def Names (p : Patch) (v : VirtReg) : Prop := .virt v ∈ p.inst.uses ∨ .virt v ∈ p.inst.defs

theorem rename_id (p : Patch) : p.rename id = p := by simp [rename]

theorem rename_replaceReg (p : Patch) (v : VirtReg) (home : PhysReg) (rows : VirtMap PhysReg) :
    (p.replaceReg v home).rename rows.rename = p.rename (VirtMap.rename ((v, home) :: rows)) := by
  simp only [rename, replaceReg, Inst.replaceReg, Inst.replaceUse, Inst.replaceDef, Inst.mapUses_mapDefs,
    Inst.mapUses_mapUses, Inst.mapDefs_mapDefs, VirtMap.rename_cons]

theorem swapping_steady (v : VirtReg) (home : PhysReg) : Inst.Steady (Inst.swapping v home) := fun reg => by
  simp [Inst.swapping]

theorem replaceReg_idem (p : Patch) (v : VirtReg) (home : PhysReg) :
    (p.replaceReg v home).replaceReg v home = p.replaceReg v home := by
  have twice : Inst.swapping v home ∘ Inst.swapping v home = Inst.swapping v home := by
    funext reg
    by_cases same : reg = .virt v <;> simp [Inst.swapping, same]
  simp only [replaceReg, Inst.replaceReg, Inst.replaceUse, Inst.replaceDef, Inst.mapUses_mapDefs, Inst.mapUses_mapUses,
    Inst.mapDefs_mapDefs, twice]

theorem replaceReg_of_not_names (absent : ¬p.Names v) : p.replaceReg v home = p := by
  obtain ⟨unread, unwritten⟩ := not_or.mp absent
  have uses : p.inst.mapUses (Inst.swapping v home) = p.inst :=
    (Inst.mapUses_congr fun reg used => by simp [Inst.swapping, ne_of_mem_of_not_mem used unread]).trans
      (Inst.mapUses_id _)
  have defs : p.inst.mapDefs (Inst.swapping v home) = p.inst :=
    (Inst.mapDefs_congr fun reg defined => by simp [Inst.swapping, ne_of_mem_of_not_mem defined unwritten]).trans
      (Inst.mapDefs_id _)
  rw [replaceReg, Inst.replaceReg, Inst.replaceUse, Inst.replaceDef, uses, defs]

theorem names_of_replaceReg (names : (p.replaceReg v home).Names u) : p.Names u := by
  have kept {reg : Reg} (same : Inst.swapping (.virt v) (.phys home) reg = .virt u) : reg = .virt u := by
    by_cases here : reg = .virt v <;> simp_all [Inst.swapping]
  simp only [Names, replaceReg, Inst.replaceReg, Inst.replaceUse, Inst.replaceDef, Inst.uses_mapDefs,
    Inst.defs_mapDefs (swapping_steady v home), Inst.uses_mapUses (swapping_steady v home), Inst.defs_mapUses,
    List.mem_map] at names
  rcases names with ⟨reg, used, same⟩ | ⟨reg, defined, same⟩
  · exact .inl (kept same ▸ used)
  · exact .inr (kept same ▸ defined)

theorem Carries.names_source {reads writes : List (VirtReg × UInt64)} {loads stores : List Transfer}
    (carries : p.Carries reads writes loads stores) (names : p.Names v) :
    .virt v ∈ p.source.uses ∨ .virt v ∈ p.source.defs := by
  rw [Names, carries.uses, carries.defs, List.mem_map, List.mem_map] at names
  rcases names with ⟨reg, used, same⟩ | ⟨reg, defined, same⟩
  · exact .inl (substitute_eq_virt same ▸ used)
  · exact .inr (substitute_eq_virt same ▸ defined)

end Patch

namespace Allocation

variable {body : Body} {patches : Array Patch} {n : Nat} {p : Patch}

/-- Ranges overlap and a web may come to an instruction again, which changes nothing further. -/
theorem getElem?_modifyAll {change : Patch → Patch} (idem : ∀ p, change (change p) = change p) (numbers : List Nat)
    (patches : Array Patch) (n : Nat) : (numbers.foldl (fun patches number => patches.modify number change) patches)[n]? =
      patches[n]?.map fun p => if n ∈ numbers then change p else p := by
  induction numbers generalizing patches with
  | nil => simp
  | cons number rest ih =>
    rw [List.foldl_cons, ih, Array.getElem?_modify]
    cases patches[n]? with
    | none => simp
    | some p =>
      by_cases here : number = n
      · subst here
        by_cases again : number ∈ rest <;> simp [again, idem]
      · simp [here, Ne.symm here]

theorem placeWeb_eq (plain : body = .ofBlocks body.blocks) {w : Web} (inside : ∀ k ∈ w.numbers, k < body.insts.length)
    (patches : Array Patch) (home : PhysReg) : placeWeb body patches w home =
      w.numbers.foldl (fun patches number => patches.modify number (·.replaceReg w.reg home)) patches := by
  unfold placeWeb
  generalize w.numbers = numbers at inside
  induction numbers generalizing patches with
  | nil => rfl
  | cons number rest ih =>
    obtain ⟨here, inside⟩ := List.forall_mem_cons.mp inside
    simp only [List.foldl_cons, Body.getElem?_cells plain here]
    exact ih _ inside

theorem size_placeWeb (patches : Array Patch) (w : Web) (home : PhysReg) :
    (placeWeb body patches w home).size = patches.size := by
  unfold placeWeb
  induction w.numbers generalizing patches with
  | nil => rfl
  | cons number rest ih =>
    rw [List.foldl_cons, ih]
    split
    · exact Array.size_modify ..
    · rfl

/-- Replacing web after web over their ranges renames all of them at once, provided that each web is replaced at the
instructions that name its register. -/
theorem placed_renamed (plain : body = .ofBlocks body.blocks) {rows : List (Web × PhysReg)}
    (located : patches[n]? = some p) (inside : ∀ row ∈ rows, ∀ k ∈ row.1.numbers, k < body.insts.length)
    (covers : ∀ row ∈ rows, p.Names row.1.reg → n ∈ row.1.numbers) :
    (rows.foldl (fun patches row => placeWeb body patches row.1 row.2) patches)[n]? =
      some (p.rename (VirtMap.rename (rows.map fun row => (row.1.reg, row.2)))) := by
  induction rows generalizing patches p with
  | nil =>
    have unchanged : VirtMap.rename [] = id := by
      funext reg
      cases reg <;> rfl
    rw [List.foldl_nil, List.map_nil, unchanged, p.rename_id, located]
  | cons row rest ih =>
    obtain ⟨w, home⟩ := row
    obtain ⟨inside, insideRest⟩ := List.forall_mem_cons.mp inside
    obtain ⟨covers, coversRest⟩ := List.forall_mem_cons.mp covers
    have here : (placeWeb body patches w home)[n]? = some (p.replaceReg w.reg home) := by
      rw [placeWeb_eq plain inside, getElem?_modifyAll fun p => p.replaceReg_idem _ _, located, Option.map_some]
      split
      · rfl
      · next outside => rw [Patch.replaceReg_of_not_names fun names => outside (covers names)]
    rw [List.foldl_cons, ih here insideRest fun row member names => coversRest row member (Patch.names_of_replaceReg names),
      Patch.rename_replaceReg, List.map_cons]

theorem size_placed (a : Allocation) : a.placed.size = a.plan.patches.size := by
  unfold placed
  generalize a.plan.patches = patches
  induction a.homed generalizing patches with
  | nil => rfl
  | cons row rest ih => rw [List.foldl_cons, ih, size_placeWeb]

theorem filterMap_range {α : Type} (list : List α) : (List.range list.length).filterMap (list[·]?) = list := by
  induction list with
  | nil => rfl
  | cons first rest ih => simpa [List.range_succ_eq_map, List.filterMap_map, Function.comp_def] using ih

/-- In a body of blocks that share nothing what becomes of an instruction is stored under its number. -/
theorem getElem?_patches {a : Allocation} (plain : a.body = .ofBlocks a.body.blocks)
    (size : a.plan.patches.size = a.body.insts.length) (n : Nat) : a.patches[n]? = a.placed[n]? := by
  have cells : a.body.cells = List.range a.placed.size := by
    rw [size_placed, size, plain]
    rfl
  have all : (List.range a.placed.size).filterMap (a.placed[·]?) = a.placed.toList := by
    simpa only [Array.getElem?_toList, Array.length_toList] using filterMap_range a.placed.toList
  rw [patches, cells, all, Array.getElem?_toList]

end Allocation

section

variable {config : Config} {body : Body} {frame : UInt64}

theorem make_size_patches (plain : body = .ofBlocks body.blocks)
    (complete : (Allocation.make config body frame).plan.ending = .complete) :
    (Allocation.make config body frame).plan.patches.size = body.insts.length :=
  SpillPlan.make_size plain (LiveRanges.spans_ofBody body) (@spills_nodup config body frame) complete

theorem homed_inside {row : Web × PhysReg} (member : row ∈ (Allocation.make config body frame).homed) :
    ∀ k ∈ row.1.numbers, k < body.insts.length := by
  obtain ⟨web, known, -⟩ := mem_homed.mp member
  intro k inRanges
  obtain ⟨r, inWeb, inRange⟩ := List.mem_flatMap.mp inRanges
  rw [web_ranges known] at inWeb
  exact (LiveRanges.spans_ofBody body).within _ r inWeb k inRange

/-- After all webs have been replaced over their ranges every instruction is renamed throughout. -/
theorem make_getElem?_patches (plain : body = .ofBlocks body.blocks)
    (complete : (Allocation.make config body frame).plan.ending = .complete) (n : Nat) :
    (Allocation.make config body frame).patches[n]? = (Allocation.make config body frame).plan.patches[n]?.map
      (·.rename (Allocation.make config body frame).rename) := by
  have size := make_size_patches plain complete
  rw [Allocation.getElem?_patches plain size]
  cases found : (Allocation.make config body frame).plan.patches[n]? with
  | none =>
    rw [Option.map_none, Array.getElem?_eq_none_iff, Allocation.size_placed]
    exact Array.getElem?_eq_none_iff.mp found
  | some p =>
    have bound := (Array.getElem?_eq_some_iff.mp found).1
    rw [size] at bound
    have located := List.getElem?_eq_getElem bound
    obtain ⟨q, loads, stores, found', source, carries⟩ := (spills_planned plain complete).patches n _ located
    cases found.symm.trans found'
    refine Allocation.placed_renamed plain found (fun row => homed_inside) fun row member names => ?_
    -- an instruction that still names the register named it before, so one of its ranges goes there
    obtain ⟨r, inRanges, inRange⟩ := (LiveRanges.spans_ofBody body).covers n _ row.1.reg located
      (source ▸ carries.names_source names)
    obtain ⟨web, known, -⟩ := mem_homed.mp member
    rw [← web_ranges known] at inRanges
    exact List.mem_flatMap.mpr ⟨r, inRanges, inRange⟩

/-! ## Registers withheld from the code -/

/-- The registers for spill code and the callee-saved registers that are handed out. -/
def PhysReg.withheld : List PhysReg := scratchGeneral ++ scratchFloat ++ calleeSaved.filter isAllocatable

namespace Inst

variable {τ : Type}

/-- The registers that are written in an instruction. What a call overwrites is not written in it. -/
def named : Inst τ → List Reg
  | call _ arguments => arguments.map .phys
  | inst => inst.uses ++ inst.defs

/-- Whether an instruction leaves the withheld registers and the stack pointer alone. -/
def Spared (inst : Inst τ) : Prop := (∀ reg ∈ PhysReg.withheld, .phys reg ∉ inst.named) ∧ .phys PhysReg.sp ∉ inst.defs

instance (inst : Inst τ) : Decidable inst.Spared := inferInstanceAs (Decidable (_ ∧ _))

theorem named_of_uses {inst : Inst τ} {reg : Reg} (reads : reg ∈ inst.uses) : reg ∈ inst.named := by
  cases inst with
  | call => exact reads
  | _ => exact List.mem_append_left _ reads

theorem named_or_callerSaved {inst : Inst τ} {reg : PhysReg} (writes : .phys reg ∈ inst.defs) :
    .phys reg ∈ inst.named ∨ reg ∈ PhysReg.callerSaved := by
  cases inst with
  | call => exact .inr (by simpa [defs] using writes)
  | _ => exact .inl (List.mem_append_right _ writes)

theorem Spared.unread {inst : Inst τ} (spared : inst.Spared) {reg : PhysReg} (withheld : reg ∈ PhysReg.withheld) :
    .phys reg ∉ inst.uses := fun reads => spared.1 reg withheld (named_of_uses reads)

/-- The registers that an instruction names or overwrites are tracked if they are handed out. -/
theorem Spared.fixed {inst : Inst τ} (spared : inst.Spared) {reg : PhysReg} (handed : reg.isAllocatable = true)
    (met : .phys reg ∈ inst.uses ∨ .phys reg ∈ inst.defs) : reg.isFixed = true := by
  have named : ∀ reg ∈ PhysReg.allocatable, reg ∉ PhysReg.withheld → reg.isFixed = true := by decide
  have clobbered : ∀ reg ∈ PhysReg.callerSaved, reg.isAllocatable = true → reg.isFixed = true := by decide
  have known := List.contains_iff_mem.mp handed
  rcases met with reads | writes
  · exact named reg known fun withheld => spared.unread withheld reads
  · rcases named_or_callerSaved writes with inNamed | saved
    · exact named reg known fun withheld => spared.1 reg withheld inNamed
    · exact clobbered reg saved handed

end Inst

/-! ## Registers that are needed together -/

/-- The registers that are read together are in different places, and none of those that stay live is in the place of
one that is written. -/
structure Apart {τ : Type} (place : Reg → Reg ⊕ UInt64) (after : Reg → Prop) (inst : Inst τ) : Prop where
  reads : ∀ a ∈ inst.uses, ∀ b ∈ inst.uses, place a = place b → a = b
  writes : ∀ d ∈ inst.defs, ∀ reg, after reg → reg ∉ inst.defs → place reg ≠ place d

/-- Two registers are in different places if their ranges conflict. Of those that are not tracked none is handed out. -/
theorem place_ne (placing : Placing (Allocation.make config body frame).plan.slots
      (Allocation.make config body frame).rename (Allocation.make config body frame).choice.place) {a b : Reg}
    (conflict : a.isTracked = true → b.isTracked = true →
      LiveRange.anyConflict ((liveRanges body).ranges a) ((liveRanges body).ranges b) = true) (differ : a ≠ b)
    (fixedA : ∀ reg, a = .phys reg → reg.isAllocatable = true → reg.isFixed = true)
    (fixedB : ∀ reg, b = .phys reg → reg.isAllocatable = true → reg.isFixed = true) :
    (Allocation.make config body frame).choice.place a ≠ (Allocation.make config body frame).choice.place b := by
  have separates := @make_separates config body frame
  have clear {v : VirtReg} {reg : PhysReg} (handed : reg.isAllocatable = true → reg.isFixed = true)
      (here : (Allocation.make config body frame).choice.place (.virt v) = .inl (.phys reg)) : reg.isFixed = true ∧
      LiveRange.anyConflict ((liveRanges body).ranges v) ((liveRanges body).ranges reg) = false ∧
        LiveRange.anyConflict ((liveRanges body).ranges reg) ((liveRanges body).ranges v) = false := by
    have assigned := rename_eq.mp (placing.rename_eq here).2
    have fixed := handed (isAllocatable_of_handedOut (separates.handedOut v reg assigned))
    exact ⟨fixed, separates.clear v reg assigned fixed⟩
  intro same
  cases a with
  | phys p =>
    cases b with
    | phys q =>
      rw [placing.phys, placing.phys] at same
      exact differ (Sum.inl.inj same)
    | virt w =>
      rw [placing.phys] at same
      obtain ⟨fixed, -, none⟩ := clear (fixedA p rfl) same.symm
      exact absurd (conflict fixed rfl) (by simp [none])
  | virt v =>
    cases b with
    | phys q =>
      rw [placing.phys] at same
      obtain ⟨fixed, none, -⟩ := clear (fixedB q rfl) same
      exact absurd (conflict rfl fixed) (by simp [none])
    | virt w =>
      -- Both on the stack, both in one physical register, or neither given a place.
      have differ' : v ≠ w := fun equal => differ (congrArg Reg.virt equal)
      cases here : (Allocation.make config body frame).choice.place (.virt v) with
      | inr offset =>
        have slotV := (placing.slot v offset).mp here
        have slotW := (placing.slot w offset).mp (same.symm.trans here)
        exact differ' (placing.offsets v w offset slotV slotW)
      | inl reg =>
        have renamedV := (placing.rename_eq here).2
        have renamedW := (placing.rename_eq (same.symm.trans here)).2
        cases reg with
        | phys reg =>
          have none := separates.apart v w reg differ' (rename_eq.mp renamedV) (rename_eq.mp renamedW)
          exact absurd (conflict rfl rfl) (by simp [none])
        | virt u =>
          have own {x : VirtReg} (renamed : (Allocation.make config body frame).rename (.virt x) = .virt u) :
              x = u := by
            rcases placing.renamed x with kept | ⟨reg, moved, -⟩
            · exact Reg.virt.inj (kept.symm.trans renamed)
            · rw [moved] at renamed
              cases renamed
          exact differ' ((own renamedV).trans (own renamedW).symm)

theorem conflict_of_inBlock {position : Nat} {block : Block} {out : RegSet}
    (located : body.blocks[position]? = some block)
    (outs : (Liveness.ofBody Reg.isTracked body).outs[position]? = some out) {a b : Reg}
    (knownA : a ∈ Liveness.regs Reg.isTracked body) (knownB : b ∈ Liveness.regs Reg.isTracked body)
    (conflict : LiveRange.anyConflict
      (LiveRanges.inBlock a position (body.firstNumber position) (out.contains a) block.insts)
      (LiveRanges.inBlock b position (body.firstNumber position) (out.contains b) block.insts) = true) :
    LiveRange.anyConflict ((liveRanges body).ranges a) ((liveRanges body).ranges b) = true := by
  rw [LiveRanges.ranges_ofBody, LiveRanges.ranges_ofBody, if_pos knownA, if_pos knownB]
  exact LiveRanges.anyConflict_ofReg located outs conflict

theorem make_apart (plain : body = .ofBlocks body.blocks)
    (complete : (Allocation.make config body frame).plan.ending = .complete)
    (spared : ∀ inst ∈ body.insts, inst.Spared) {position : Nat} {block : Block}
    (located : body.blocks[position]? = some block) {pre post : List (Inst Nat)} {inst : Inst Nat}
    (split : block.insts = pre ++ inst :: post) :
    Apart (Allocation.make config body frame).choice.place
      (fun reg => reg.isTracked = true ∧ LiveBefore reg (body.LiveOut position reg) post) inst := by
  have placing := make_placing plain complete
  obtain ⟨-, out, -, outs⟩ : ∃ regs out, (Liveness.ofBody Reg.isTracked body).ins[position]? = some regs ∧ _ :=
    Liveness.ins_isSome located
  have inBody : inst ∈ body.insts :=
    List.mem_flatMap.mpr ⟨block, List.mem_of_getElem? located, by simp [split]⟩
  have fixed {reg : Reg} (met : reg ∈ inst.uses ∨ reg ∈ inst.defs) (phys : PhysReg) (same : reg = .phys phys)
      (handed : phys.isAllocatable = true) : phys.isFixed = true :=
    (spared inst inBody).fixed handed (same ▸ met)
  have known {reg : Reg} (tracked : reg.isTracked = true) (met : reg ∈ inst.uses ∨ reg ∈ inst.defs) :
      reg ∈ Liveness.regs Reg.isTracked body := Liveness.mem_regs.mpr ⟨tracked, inst, inBody, met⟩
  refine ⟨fun a readsA b readsB same => ?_, fun d writes reg ⟨tracked, live⟩ kept => ?_⟩
  · by_contra differ
    refine place_ne placing (fun trackedA trackedB => ?_) differ (fixed (.inl readsA)) (fixed (.inl readsB)) same
    refine conflict_of_inBlock located outs (known trackedA (.inl readsA)) (known trackedB (.inl readsB)) ?_
    rw [split]
    exact LiveRanges.conflict_of_reads readsA readsB
  · refine (place_ne placing (fun trackedD _ => ?_) ?_ (fixed (.inr writes)) ?_).symm
    · obtain ⟨other, inOther, reads⟩ := body.read_of_live located (split.trans (List.append_cons ..)) live
      refine conflict_of_inBlock located outs (known trackedD (.inr writes))
        (Liveness.mem_regs.mpr ⟨tracked, other, inOther, .inl reads⟩) ?_
      rw [split]
      refine LiveRanges.conflict_of_write writes kept (live.mono ?_)
      simp [Body.LiveOut, outs]
    · rintro rfl
      exact kept writes
    -- A physical register that is live is tracked, so what handed-out registers need holds of it.
    · rintro phys rfl -
      exact tracked

end

end RegisterAllocator
