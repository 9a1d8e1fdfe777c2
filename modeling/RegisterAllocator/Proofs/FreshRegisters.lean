import RegisterAllocator.Proofs.FunctionLines
import RegisterAllocator.Proofs.Independence
import RegisterAllocator.Proofs.PrintedSource

/-!
# Fresh virtual registers

The counter of a machine that was read is one more than the largest number of a virtual register in its code
(`Machine.ofProgram_counts`), and a register that is given out takes its number from the counter, which all
registers before it have passed (`Machine.serveAll_fresh`). A source cannot be read into a machine if the counter would
have to pass the last number (`Source.readProgram_failure`).
-/

namespace RegisterAllocator

/-! ## The registers that code names -/

namespace Inst

variable {τ τ' ε : Type}

def registers : Inst τ → List Reg
  | li rd _ | la rd _ => [rd]
  | unary _ rd rs | immediate _ rd rs _ | floatUnary _ _ rd rs => [rd, rs]
  | binary _ rd rs1 rs2 | floatBinary _ _ rd rs1 rs2 => [rd, rs1, rs2]
  | fused _ _ rd rs1 rs2 rs3 => [rd, rs1, rs2, rs3]
  | load _ rd base _ => [rd, base]
  | store _ source base _ => [source, base]
  | jump _ => []
  | branch _ rs1 rs2 _ => [rs1, rs2]
  | call _ arguments => arguments.map .phys
  | ret results => results.map .phys

def virtuals (inst : Inst τ) : List VirtReg := inst.registers.filterMap Reg.virt?

theorem mem_virtuals {inst : Inst τ} {r : VirtReg} :
    r ∈ (inst.uses ++ inst.defs).filterMap Reg.virt? ↔ r ∈ inst.virtuals := by
  have physical (regs : List PhysReg) : (regs.map Reg.phys).filterMap Reg.virt? = [] := by
    rw [List.filterMap_eq_nil_iff]
    simp [Reg.virt?]
  cases inst with
  | call symbol arguments | ret results =>
    simp only [uses, defs, virtuals, registers, List.filterMap_append, physical, List.append_nil]
  | _ =>
    rw [virtuals, List.mem_filterMap, List.mem_filterMap]
    simp [uses, defs, registers, or_comm, or_left_comm]

theorem virtuals_mapTargetM {find : τ → Except ε τ'} {inst : Inst τ} {inst' : Inst τ'}
    (found : inst.mapTargetM find = .ok inst') : inst'.virtuals = inst.virtuals := by
  cases inst with
  | jump target | branch op rs1 rs2 target =>
    simp only [mapTargetM, bind_eq_ok, pure_eq_ok] at found
    obtain ⟨_, -, rfl⟩ := found
    rfl
  | _ =>
    cases found
    rfl

end Inst

def Function.virtuals (f : Function) : List VirtReg := f.blocks.flatMap fun block => block.insts.flatMap Inst.virtuals

/-- The least number above those of `regs`. -/
def VirtReg.above (regs : List VirtReg) : Nat := regs.foldr (fun r top => max (r.number.toNat + 1) top) 0

namespace VirtReg

theorem above_append (regs more : List VirtReg) : above (regs ++ more) = max (above regs) (above more) := by
  induction regs with
  | nil => exact (Nat.zero_max _).symm
  | cons r regs ih =>
    show max _ (above (regs ++ more)) = max (max _ (above regs)) (above more)
    rw [ih, Nat.max_assoc]

theorem above_le {regs : List VirtReg} {top : Nat} : above regs ≤ top ↔ ∀ r ∈ regs, r.number.toNat < top := by
  induction regs with
  | nil => simp [above]
  | cons r regs ih =>
    rw [List.forall_mem_cons, ← ih]
    exact Nat.max_le

theorem above_congr {regs regs' : List VirtReg} (same : ∀ r, r ∈ regs ↔ r ∈ regs') : above regs = above regs' :=
  Nat.le_antisymm (above_le.mpr fun r member => above_le.mp (Nat.le_refl _) r ((same r).mp member))
    (above_le.mpr fun r member => above_le.mp (Nat.le_refl _) r ((same r).mpr member))

theorem exists_above {regs : List VirtReg} (nonempty : regs ≠ []) :
    ∃ r ∈ regs, above regs = r.number.toNat + 1 ∧ ∀ other ∈ regs, other.number ≤ r.number := by
  have attained : ∃ r ∈ regs, above regs = r.number.toNat + 1 := by
    induction regs with
    | nil => exact absurd rfl nonempty
    | cons first regs ih =>
      show ∃ r ∈ first :: regs, max (first.number.toNat + 1) (above regs) = r.number.toNat + 1
      rcases Nat.le_total (above regs) (first.number.toNat + 1) with lower | higher
      · exact ⟨first, List.mem_cons_self, Nat.max_eq_left lower⟩
      · have more : regs ≠ [] := by
          rintro rfl
          cases higher
        obtain ⟨r, member, same⟩ := ih more
        exact ⟨r, List.mem_cons_of_mem _ member, (Nat.max_eq_right higher).trans same⟩
  obtain ⟨r, member, same⟩ := attained
  refine ⟨r, member, same, fun other inRegs => ?_⟩
  have below := above_le.mp (Nat.le_of_eq same) other inRegs
  exact UInt32.le_iff_toNat_le.mpr (Nat.le_of_lt_succ below)

end VirtReg

/-! ## The counter -/

namespace Machine

variable {m m' m'' : Machine} {regs more : List VirtReg}

theorem toNat_nextNumber {number next : UInt32} (found : nextNumber number = .ok next) :
    next.toNat = number.toNat + 1 := by
  unfold nextNumber VirtReg.nextNumber? at found
  split at found
  · next value here =>
    split at here
    · next room =>
      cases here
      cases found
      rw [UInt32.toNat_add]
      exact Nat.mod_eq_of_lt room
    · cases here
  · cases found

/-- The counter has passed `regs` on the way from `m` to `m'`, and nothing else. -/
def Counts (m m' : Machine) (regs : List VirtReg) : Prop :=
  m'.nextVirt.toNat = max m.nextVirt.toNat (VirtReg.above regs)

theorem Counts.of_eq (same : m'.nextVirt = m.nextVirt) : Counts m m' [] := by
  rw [Counts, same]
  exact (Nat.max_zero _).symm

theorem Counts.trans (first : Counts m m' regs) (second : Counts m' m'' more) : Counts m m'' (regs ++ more) := by
  rw [Counts, second, first, VirtReg.above_append, Nat.max_assoc]

theorem foldlM_counts {α : Type} {step : Machine → α → Except Fault Machine} {named : α → List VirtReg} {list : List α}
    (each : ∀ s a t, step s a = .ok t → Counts s t (named a)) (folded : list.foldlM step m = .ok m') :
    Counts m m' (list.flatMap named) := by
  induction list generalizing m with
  | nil =>
    cases folded
    exact .of_eq rfl
  | cons a list ih =>
    rw [List.foldlM_cons, bind_eq_ok] at folded
    obtain ⟨next, first, rest⟩ := folded
    exact (each m a next first).trans (ih rest)

theorem reserveVirt_counts {r : VirtReg} (reserved : m.reserveVirt r = .ok m') : Counts m m' [r] := by
  simp only [reserveVirt, bind_eq_ok, pure_eq_ok] at reserved
  obtain ⟨next, found, rfl⟩ := reserved
  show (if m.nextVirt ≤ next then next else m.nextVirt).toNat = max m.nextVirt.toNat (max (r.number.toNat + 1) 0)
  rw [Nat.max_zero, ← toNat_nextNumber found, Nat.max_def, apply_ite UInt32.toNat]
  rfl

theorem reserveRegs_counts {τ : Type} {inst : Inst τ} (reserved : m.reserveRegs inst = .ok m') :
    Counts m m' inst.virtuals := by
  have counts : Counts m m' (((inst.uses ++ inst.defs).filterMap Reg.virt?).flatMap fun r => [r]) :=
    foldlM_counts (fun _ _ _ => reserveVirt_counts) reserved
  rw [Counts, counts, List.flatMap_singleton', VirtReg.above_congr fun r => Inst.mem_virtuals]

theorem nextVirt_of_edits (edits : Chain.Edits BlockId FuncId m m') : m'.nextVirt = m.nextVirt := by
  induction edits with
  | refl => rfl
  | links b place _ ih =>
    rw [← ih]
    simp only [Chained.setLinks]
    split <;> rfl
  | ends f found _ ih =>
    rw [← ih]
    simp only [Chained.setEnds]
    split <;> rfl

theorem storeInsts_counts {blocks : List BlockId} {b : BlockId} {insts : List (Inst Nat)}
    (stored : m.storeInsts blocks b insts = .ok m') : Counts m m' (insts.flatMap Inst.virtuals) := by
  induction insts generalizing m with
  | nil =>
    cases stored
    exact .of_eq rfl
  | cons inst insts ih =>
    simp only [storeInsts_cons, bind_eq_ok] at stored
    obtain ⟨located, target, reserved, reserve, pushed, push, rest⟩ := stored
    have first : Counts (m.addInst located).1 reserved located.virtuals := reserveRegs_counts reserve
    have second : Counts reserved pushed [] := .of_eq (recorded_of_edits (Chain.pushBack_edits push)).nextVirt
    rw [Inst.virtuals_mapTargetM target] at first
    exact first.trans (second.trans (ih rest))

theorem storeBlocks_kept {f : FuncId} {labels : List String} {before blocks : List BlockId}
    (stored : labels.foldlM (fun (m, blocks) label => do
        let (m, b) := m.addBlock label
        pure (← m.pushBlock f b, blocks ++ [b])) (m, before) =
      (.ok (m', blocks) : Except Fault (Machine × List BlockId))) :
    m'.nextVirt = m.nextVirt ∧ blocks.length = before.length + labels.length := by
  induction labels generalizing m before with
  | nil =>
    cases stored
    exact ⟨rfl, rfl⟩
  | cons label labels ih =>
    simp only [List.foldlM_cons, bind_eq_ok, pure_eq_ok] at stored
    obtain ⟨_, ⟨pushed, push, rfl⟩, rest⟩ := stored
    obtain ⟨kept, length⟩ := ih rest
    have same : pushed.nextVirt = (m.addBlock label).1.nextVirt := nextVirt_of_edits (Chain.pushBack_edits push)
    refine ⟨kept.trans same, ?_⟩
    rw [length, List.length_append, List.length_singleton, List.length_cons]
    omega

theorem storeItem_counts {item : Item} (stored : m.storeItem item = .ok m') :
    Counts m m' item.record.function.virtuals := by
  cases item with
  | external label =>
    cases stored
    exact .of_eq rfl
  | function function =>
    simp only [storeItem_function, bind_eq_ok] at stored
    obtain ⟨headed, modified, ⟨laid, blocks⟩, lay, filled⟩ := stored
    have head : headed.nextVirt = m.nextVirt := by
      simp only [modifyFunc, bind_eq_ok, pure_eq_ok] at modified
      obtain ⟨_, -, rfl⟩ := modified
      rfl
    obtain ⟨kept, length⟩ := storeBlocks_kept lay
    have counts : Counts laid m' ((blocks.zip function.blocks).flatMap fun entry =>
        entry.2.insts.flatMap Inst.virtuals) :=
      foldlM_counts (fun _ _ _ => storeInsts_counts) filled
    have paired : (blocks.zip function.blocks).map Prod.snd = function.blocks :=
      List.map_snd_zip (by rw [length, List.length_map]; exact Nat.le_add_left _ _)
    rw [← List.flatMap_map Prod.snd fun block : Block => block.insts.flatMap Inst.virtuals, paired] at counts
    exact (Counts.of_eq (kept.trans head)).trans counts

theorem ofProgram_counts {program : Program} (stored : ofProgram program = .ok m) :
    m.nextVirt.toNat = VirtReg.above (program.flatMap fun item => item.record.function.virtuals) := by
  have counts : Counts {} m (program.flatMap fun item => item.record.function.virtuals) :=
    foldlM_counts (fun _ _ _ => storeItem_counts) stored
  rw [counts]
  exact Nat.zero_max _

/-! ## Giving out registers -/

/-- What a machine can be asked: for a new register of a file, or to keep a register apart. -/
inductive Request where
  | new (file : RegFile)
  | reserve (r : VirtReg)

/-- Serve a request, and say which register it was about. -/
def serve (m : Machine) : Request → Except Fault (Machine × VirtReg)
  | .new file => m.newVirt file
  | .reserve r => do pure (← m.reserveVirt r, r)

def serveAll (m : Machine) : List Request → Except Fault (Machine × List VirtReg)
  | [] => .ok (m, [])
  | request :: rest => do
    let (m, r) ← m.serve request
    let (m, regs) ← m.serveAll rest
    pure (m, r :: regs)

/-- The counter passes the register of a request, and that of a new register was not passed before. -/
theorem serve_counts {request : Request} {r : VirtReg} (served : m.serve request = .ok (m', r)) :
    Counts m m' [r] ∧ ∀ file, request = .new file → r = ⟨m.nextVirt, file⟩ := by
  cases request with
  | new file =>
    simp only [serve, newVirt, bind_eq_ok, pure_eq_ok, Prod.mk.injEq] at served
    obtain ⟨next, found, rfl, rfl⟩ := served
    refine ⟨?_, fun other same => by cases same; rfl⟩
    show next.toNat = max m.nextVirt.toNat (max (m.nextVirt.toNat + 1) 0)
    have value := toNat_nextNumber found
    omega
  | reserve other =>
    simp only [serve, bind_eq_ok, pure_eq_ok, Prod.mk.injEq] at served
    obtain ⟨next, reserved, rfl, rfl⟩ := served
    exact ⟨reserveVirt_counts reserved, nofun⟩

theorem serveAll_fresh {requests : List Request} {taken : List VirtReg}
    (passed : VirtReg.above taken ≤ m.nextVirt.toNat) (served : m.serveAll requests = .ok (m', regs)) {k : Nat}
    {file : RegFile} (asked : requests[k]? = some (.new file)) : ∃ r, regs[k]? = some r ∧ r.file = file ∧
      ∀ other ∈ taken ++ regs.take k, other.number ≠ r.number := by
  induction requests generalizing m taken regs k with
  | nil => cases asked
  | cons request rest ih =>
    simp only [serveAll, bind_eq_ok, pure_eq_ok, Prod.mk.injEq, Prod.exists] at served
    obtain ⟨next, r, first, last, later, others, rfl, rfl⟩ := served
    obtain ⟨counts, new⟩ := serve_counts first
    cases k with
    | zero =>
      cases new file (Option.some.inj asked)
      refine ⟨_, rfl, rfl, fun other member same => ?_⟩
      rw [List.take_zero, List.append_nil] at member
      have below := VirtReg.above_le.mp passed other member
      rw [same] at below
      exact Nat.lt_irrefl _ below
    | succ k =>
      have passed' : VirtReg.above (taken ++ [r]) ≤ next.nextVirt.toNat := by
        rw [VirtReg.above_append, counts]
        omega
      obtain ⟨fresh, located, ofFile, apart⟩ := ih passed' others asked
      refine ⟨fresh, located, ofFile, ?_⟩
      rw [List.append_assoc] at apart
      exact apart

end Machine

/-! ## The first failure -/

section Failure

variable {ε α β γ : Type}

def failure? : Except ε α → Option ε
  | .ok _ => none
  | .error e => some e

theorem failure?_eq_some {x : Except ε α} {e : ε} : failure? x = some e ↔ x = .error e := by
  cases x <;> simp [failure?]

theorem failure?_bind_pure (x : Except ε α) (f : α → β) : failure? (x >>= fun a => pure (f a)) = failure? x := by
  cases x <;> rfl

theorem failure?_mapM (f : α → Except ε β) (as : List α) :
    failure? (as.mapM f) = as.findSome? fun a => failure? (f a) := by
  induction as with
  | nil => rfl
  | cons a as ih =>
    rw [List.mapM_cons, List.findSome?_cons, ← ih]
    cases f a with
    | error e => rfl
    | ok b => exact failure?_bind_pure _ _

theorem findSome?_flatMap (f : β → Option γ) (g : α → List β) (as : List α) :
    (as.flatMap g).findSome? f = as.findSome? fun a => (g a).findSome? f := by
  induction as with
  | nil => rfl
  | cons a as ih =>
    rw [List.flatMap_cons, List.findSome?_append, List.findSome?_cons, ih]
    cases (g a).findSome? f <;> rfl

end Failure

/-! ## Numbers that cannot be passed -/

namespace Source

/-- The drafts of the instructions of all functions in order, each with the labels of its function. -/
def drafts (items : List DraftItem) : List (List String × DraftInst) :=
  (items.filterMap DraftItem.function?).flatMap fun f => f.insts.map (f.labels, ·)

/-- Build the instruction of a draft, whatever registers it names. -/
def build (labels : List String) (draft : DraftInst) : Except Complaint (Inst Nat) := do
  (← readInst draft).mapTargetM (findLabel labels)

/-- The instruction names a register with the last number. -/
def NamesLast (inst : Inst Nat) : Prop := ∃ r ∈ inst.virtuals, r.number = 4294967295

theorem hasRoom_eq_false {inst : Inst Nat} : hasRoom inst = false ↔ NamesLast inst := by
  have full (number : UInt32) : (VirtReg.nextNumber? number).isSome = false ↔ number = 4294967295 := by
    have bound := number.toNat_lt
    rw [VirtReg.nextNumber?, UInt32.size, ← UInt32.toNat_inj]
    split
    · next room => simpa using by omega
    · next full => simpa using by omega
  rw [hasRoom, List.all_eq_false]
  simp only [Inst.mem_virtuals, Bool.not_eq_true, full, NamesLast]

theorem resolve_eq (labels : List String) (draft : DraftInst) : resolve labels draft =
    match build labels draft with
    | .error complaint => .error (.malformed { line := draft.line, complaint })
    | .ok inst => if hasRoom inst then .ok inst else .error (.fault .overflow) := rfl

theorem resolve_failure {labels : List String} {draft : DraftInst} {inst : Inst Nat}
    (built : build labels draft = .ok inst) :
    failure? (resolve labels draft) = if hasRoom inst then none else some (.fault .overflow) := by
  rw [resolve_eq, built]
  dsimp only
  split <;> rfl

theorem exists_build {labels : List String} {draft : DraftInst}
    (unrefused : ∀ error, failure? (resolve labels draft) ≠ some (.malformed error)) :
    ∃ inst, build labels draft = .ok inst := by
  cases built : build labels draft with
  | ok inst => exact ⟨inst, rfl⟩
  | error complaint =>
    rw [resolve_eq, built] at unrefused
    exact absurd rfl (unrefused _)

theorem readItem_failure (f : DraftFunction) :
    failure? (readItem (.function f)) = f.insts.findSome? fun draft => failure? (resolve f.labels draft) := by
  simp only [readItem, failure?_bind_pure, failure?_mapM, DraftFunction.insts, findSome?_flatMap]

theorem readItems_failure (items : List DraftItem) :
    failure? (items.mapM readItem) = (drafts items).findSome? fun entry => failure? (resolve entry.1 entry.2) := by
  rw [failure?_mapM]
  induction items with
  | nil => rfl
  | cons item items ih =>
    rw [List.findSome?_cons, ih]
    cases item with
    | external label => rfl
    | function f =>
      have split : drafts (.function f :: items) = f.insts.map (f.labels, ·) ++ drafts items := rfl
      have first : (f.insts.map (f.labels, ·)).findSome? (fun entry => failure? (resolve entry.1 entry.2)) =
          failure? (readItem (.function f)) := by
        rw [List.findSome?_map, readItem_failure]
        rfl
      rw [split, List.findSome?_append, first]
      cases failure? (readItem (.function f)) <;> rfl

/-- An instruction names the last number, and everything before it can be built. -/
def Overruns (source : String) : Prop :=
  ∃ items before labels draft after inst, outline source = .ok items ∧
    drafts items = before ++ (labels, draft) :: after ∧
    (∀ entry ∈ before, ∃ earlier, build entry.1 entry.2 = .ok earlier) ∧
    build labels draft = .ok inst ∧ NamesLast inst

theorem readProgram_failure {source : String} {fault : Fault} :
    readProgram source = .error (.fault fault) ↔ fault = .overflow ∧ Overruns source := by
  unfold readProgram
  cases drawn : outline source with
  | error error =>
    constructor
    · nofun
    · rintro ⟨-, items, _, _, _, _, _, drawn', -⟩
      rw [drawn] at drawn'
      cases drawn'
  | ok items =>
    dsimp only
    rw [← failure?_eq_some, readItems_failure]
    constructor
    · intro failed
      obtain ⟨before, ⟨labels, draft⟩, after, cut, failed, earlier⟩ := List.findSome?_eq_some_iff.mp failed
      dsimp only at failed
      have builds : ∃ inst, build labels draft = .ok inst := exists_build (by rw [failed]; nofun)
      obtain ⟨inst, built⟩ := builds
      rw [resolve_failure built] at failed
      split at failed
      · cases failed
      · next full =>
        cases failed
        refine ⟨rfl, items, before, labels, draft, after, inst, drawn, cut, fun entry member => ?_, built,
          hasRoom_eq_false.mp (by simpa using full)⟩
        exact exists_build (by rw [earlier entry member]; nofun)
    · rintro ⟨rfl, items', before, labels, draft, after, inst, drawn', cut, builds, built, last⟩
      cases drawn.symm.trans drawn'
      rw [cut, List.findSome?_append]
      cases first : before.findSome? fun entry => failure? (resolve entry.1 entry.2) with
      | none =>
        rw [List.findSome?_cons]
        dsimp only
        rw [resolve_failure built, hasRoom_eq_false.mpr last]
        rfl
      | some failure =>
        -- what was built before can only have run out of numbers too
        obtain ⟨entry, member, failed⟩ := List.exists_of_findSome?_eq_some first
        obtain ⟨earlier, built⟩ := builds entry member
        rw [resolve_failure built] at failed
        split at failed
        · cases failed
        · exact failed.symm

theorem read_failure {source : String} {fault : Fault} :
    Source.read source = .error (.fault fault) ↔ readProgram source = .error (.fault fault) := by
  rw [Source.read, bind_eq_error]
  constructor
  · rintro (failed | ⟨program, read, failed⟩)
    · exact failed
    · obtain ⟨m, _, _, stored, -⟩ := Machine.ofProgram_stores fun function => readProgram_storable read
      rw [stored] at failed
      cases failed
  · exact .inl

/-- A source runs out of register numbers exactly if it names the last one. Otherwise the counter of the machine is one
more than the largest number in the code, and new registers differ from those of the code and those before them. -/
theorem new_registers_fresh (source : String) :
    (∀ fault, Source.read source = .error (.fault fault) ↔ fault = .overflow ∧ Overruns source) ∧
    ∀ m, Source.read source = .ok m → ∃ records, m.records = .ok records ∧
      let named := records.flatMap fun record => record.function.virtuals
      (named = [] → m.nextVirt = 0) ∧
      (named ≠ [] → ∃ r ∈ named, m.nextVirt.toNat = r.number.toNat + 1 ∧ ∀ other ∈ named, other.number ≤ r.number) ∧
      ∀ requests m' regs, m.serveAll requests = .ok (m', regs) → ∀ k file, requests[k]? = some (.new file) →
        ∃ r, regs[k]? = some r ∧ r.file = file ∧ ∀ other ∈ named ++ regs.take k, other.number ≠ r.number := by
  refine ⟨fun fault => read_failure.trans readProgram_failure, fun m read => ?_⟩
  obtain ⟨program, readable, stored⟩ := read_eq_ok read
  obtain ⟨m', code, layout, stored', stores⟩ := Machine.ofProgram_stores fun function => readProgram_storable readable
  cases stored.symm.trans stored'
  have counter : m.nextVirt.toNat =
      VirtReg.above ((program.map Item.record).flatMap fun record => record.function.virtuals) := by
    rw [List.flatMap_map]
    exact Machine.ofProgram_counts stored
  refine ⟨_, stores.records_eq, fun empty => ?_, fun nonempty => ?_, fun requests m' regs served k file asked => ?_⟩
  · rw [empty] at counter
    exact UInt32.toNat_inj.mp counter
  · rw [counter]
    exact VirtReg.exists_above nonempty
  · exact Machine.serveAll_fresh (Nat.le_of_eq counter.symm) served asked

/-- Two functions, the second with the largest number in the other file. -/
def numberedSource : String := ".func f\n\tli $r7, 1\n.func g\n\tfadd.d $f9, $f2, $f2\n\tret\n"

/-- The last number as a base, before a line that cannot be read. -/
def lastSource : String := ".func f\n\tli $r1, 1\n\tsd a0, 0($r4294967295)\n\tbogus\n"

theorem numbered_registers_fresh :
    (Source.read lastSource = .error (.fault .overflow) ∧ Overruns lastSource) ∧
    ∃ m records m' regs r, Source.read numberedSource = .ok m ∧ m.nextVirt = 10 ∧ m.records = .ok records ∧
      m.serveAll [.new .general, .reserve ⟨20, .general⟩, .new .float] = .ok (m', regs) ∧ regs[2]? = some r ∧
      r.file = .float ∧ ∀ other ∈ (records.flatMap fun record => record.function.virtuals) ++ regs.take 2,
        other.number ≠ r.number := by
  have last : readProgram lastSource = .error (.fault .overflow) := by decide +kernel
  have failed : Source.read lastSource = .error (.fault .overflow) := by
    rw [Source.read, last]
    rfl
  refine ⟨⟨failed, (((new_registers_fresh lastSource).1 _).mp failed).2⟩, ?_⟩
  have run : (do
      let m ← (Source.read numberedSource).toOption
      let _ ← (m.serveAll [.new .general, .reserve ⟨20, .general⟩, .new .float]).toOption
      return decide (m.nextVirt = 10)) = some true := by
    decide +kernel
  simp only [bind, Option.bind_eq_some_iff, toOption_eq_some, pure, Option.some.injEq, decide_eq_true_eq] at run
  obtain ⟨m, read, ⟨m', regs⟩, served, counter⟩ := run
  obtain ⟨records, shown, -, -, fresh⟩ := (new_registers_fresh numberedSource).2 m read
  obtain ⟨r, located, ofFile, apart⟩ := fresh _ m' regs served 2 .float rfl
  exact ⟨m, records, m', regs, r, read, counter, shown, served, located, ofFile, apart⟩

end Source

end RegisterAllocator
