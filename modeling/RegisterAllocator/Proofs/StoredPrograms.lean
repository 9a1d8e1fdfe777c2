import RegisterAllocator.Proofs.Contents
import RegisterAllocator.Proofs.Success

/-!
# Programs in a machine

A machine has a record of each of its functions (`Machine.records`). Every program whose branches have targets and whose
virtual registers leave room for more can be stored (`Machine.ofProgram_stores`), and the records of the machine are
then those of its items (`Machine.Stores.records_eq`).
-/

namespace RegisterAllocator

/-- A function that can be stored. -/
structure Function.Storable (f : Function) : Prop where
  room : ∀ block ∈ f.blocks, ∀ inst ∈ block.insts, Source.hasRoom inst = true
  targets : ∀ block ∈ f.blocks, ∀ inst ∈ block.insts, ∀ target ∈ inst.targets, target < f.blocks.length

namespace Machine

/-- What a machine holds of a function: whether it is external, its name, its frame and its blocks. -/
structure Record where
  external : Bool
  function : Function
deriving DecidableEq

def record (m : Machine) (f : FuncId) : Except Fault Record := do
  let node ← m.func f
  let layout ← m.layout f
  let blocks ← layout.mapM fun b => do
    let insts ← (← m.blockInsts b).mapM (Inst.mapTargetM (position layout))
    return { label := ← m.label b, insts : Block }
  return { external := node.external, function := { label := node.label, frame := node.frame, blocks } }

def records (m : Machine) : Except Fault (List Record) := m.funcIds.mapM m.record

end Machine

/-- What is stored of an item. An external function has an empty frame and no blocks. -/
def Item.record : Item → Machine.Record
  | external label => { external := true, function := { label, frame := 0, blocks := [] } }
  | function f => { external := false, function := f }

namespace Machine

variable {m m' : Machine} {code code' : BlockId → List InstId} {layout layout' : FuncId → List BlockId} {f : FuncId}

/-- The machine has a record at `f`, whose blocks are `blocks`. -/
structure Shown (m : Machine) (code : BlockId → List InstId) (blocks : List BlockId) (f : FuncId) (record : Record) :
    Prop where
  head : m.head? f = some (record.function.label, record.external, record.function.frame)
  blocks : List.Forall₂ (fun b block => Shows m blocks (code b) b block) blocks record.function.blocks

theorem Shown.func {blocks : List BlockId} {record : Record} (shown : m.Shown code blocks f record) :
    ∃ node, m.func f = .ok node ∧ node.label = record.function.label ∧ node.external = record.external ∧
      node.frame = record.function.frame := by
  obtain ⟨node, stored, same⟩ := Option.map_eq_some_iff.mp shown.head
  simp only [Prod.mk.injEq] at same
  exact ⟨node, func_eq_ok.mpr stored, same⟩

theorem Formed.record_eq (formed : m.Formed code layout) {record : Record}
    (shown : m.Shown code (layout f) f record) : m.record f = .ok record := by
  obtain ⟨node, found, label, external, frame⟩ := shown.func
  have blocks : (layout f).mapM (fun b => do
      let insts ← (← m.blockInsts b).mapM (Inst.mapTargetM (position (layout f)))
      return { label := ← m.label b, insts : Block }) = .ok record.function.blocks := by
    rw [mapM_eq_ok]
    refine forall₂_imp_mem shown.blocks fun b member block shown => ?_
    obtain ⟨insts, read, located⟩ := shown.blockInsts (formed.code_ok member)
    rw [read, ok_bind, located, ok_bind, shown.label]
    rfl
  simp only [Machine.record, found, ok_bind, formed.layout_ok found, blocks, label, external, frame]
  rfl

/-! ## Machines that grow -/

/-- Everything that `m` stores is unchanged in `m'`. -/
structure Extends (m m' : Machine) : Prop where
  insts : ∀ i inst, m.inst i = .ok inst → m'.inst i = .ok inst
  labels : ∀ b label, m.label b = .ok label → m'.label b = .ok label
  heads : ∀ g head, m.head? g = some head → m'.head? g = some head

theorem Extends.trans {m₁ m₂ m₃ : Machine} (first : Extends m₁ m₂) (second : Extends m₂ m₃) : Extends m₁ m₃ :=
  ⟨fun i inst found => second.insts i inst (first.insts i inst found),
    fun b label found => second.labels b label (first.labels b label found),
    fun g head found => second.heads g head (first.heads g head found)⟩

theorem Keeps.extends (keeps : Keeps m m') : Extends m m' :=
  ⟨keeps.insts, fun b label found => by rw [label_congr (keeps.labels b.slot), found],
    fun g head found => by rw [head?, keeps.funcs]; exact found⟩

theorem Shows.extends {all : List BlockId} {ids : List InstId} {b : BlockId} {block : Block}
    (shown : Shows m all ids b block) (grown : Extends m m') : Shows m' all ids b block :=
  ⟨grown.labels b _ shown.label,
    shown.insts.imp fun _ _ ⟨stored, read, located⟩ => ⟨stored, grown.insts _ _ read, located⟩⟩

theorem Shown.extends {record : Record} {blocks : List BlockId} (shown : m.Shown code blocks f record)
    (grown : Extends m m') (same : ∀ b ∈ blocks, code' b = code b) : m'.Shown code' blocks f record := by
  refine ⟨grown.heads f _ shown.head, forall₂_imp_mem shown.blocks fun b member block shows => ?_⟩
  rw [same b member]
  exact shows.extends grown

/-! ## Storing instructions -/

theorem reserveRegs_ok {τ : Type} {inst : Inst τ} (room : Source.hasRoom inst = true) (m : Machine) :
    ∃ m', m.reserveRegs inst = .ok m' := by
  rw [Source.hasRoom, List.all_eq_true] at room
  refine exists_foldlM_eq_ok (fun reg member m => ?_) m
  obtain ⟨next, found⟩ := Option.isSome_iff_exists.mp (room reg member)
  exact ⟨_, by rw [reserveVirt, nextNumber, found]; rfl⟩

def blockAt (blocks : List BlockId) (position : Nat) : Except Fault BlockId :=
  match blocks[position]? with
  | some b => .ok b
  | none => .error .missingRow

theorem blockAt_eq_ok {blocks : List BlockId} {place : Nat} {b : BlockId} :
    blockAt blocks place = .ok b ↔ blocks[place]? = some b := by
  unfold blockAt
  cases blocks[place]? <;> simp

theorem mapTargetM_position {blocks : List BlockId} (nodup : blocks.Nodup) {inst : Inst Nat} {located : Inst BlockId}
    (found : inst.mapTargetM (blockAt blocks) = .ok located) : located.mapTargetM (position blocks) = .ok inst := by
  have target {place : Nat} {b : BlockId} (found : blockAt blocks place = .ok b) : position blocks b = .ok place :=
    (position_eq_ok nodup).mpr (blockAt_eq_ok.mp found)
  cases inst with
  | jump place | branch op rs1 rs2 place =>
    simp only [Inst.mapTargetM, bind_eq_ok, pure_eq_ok] at found
    obtain ⟨b, here, rfl⟩ := found
    simp only [Inst.mapTargetM, target here]
    rfl
  | _ =>
    cases found
    rfl

theorem storeInsts_cons (m : Machine) (blocks : List BlockId) (b : BlockId) (inst : Inst Nat)
    (insts : List (Inst Nat)) : m.storeInsts blocks b (inst :: insts) = (do
      let located ← inst.mapTargetM (blockAt blocks)
      let reserved ← (m.addInst located).1.reserveRegs located
      let pushed ← reserved.pushInst b (m.addInst located).2
      pushed.storeInsts blocks b insts) := by
  simp only [storeInsts, List.foldlM_cons, bind_assoc]
  rfl

theorem Formed.storeInsts (formed : m.Formed code layout) {blocks : List BlockId} (nodup : blocks.Nodup) {b : BlockId}
    (inside : b ∈ layout f) {insts : List (Inst Nat)} (room : ∀ inst ∈ insts, Source.hasRoom inst = true)
    (targets : ∀ inst ∈ insts, ∀ target ∈ inst.targets, target < blocks.length) :
    ∃ m' ids, m.storeInsts blocks b insts = .ok m' ∧ m'.Formed (Function.update code b (code b ++ ids)) layout ∧
      Keeps m m' ∧ List.Forall₂ (fun i inst => ∃ stored, m'.inst i = .ok stored ∧
        stored.mapTargetM (position blocks) = .ok inst) ids insts := by
  induction insts generalizing m code with
  | nil =>
    refine ⟨m, [], rfl, ?_, .refl m, .nil⟩
    rw [List.append_nil, Function.update_eq_self]
    exact formed
  | cons inst insts ih =>
    have each : ∀ target ∈ inst.targets, ∃ b, blockAt blocks target = .ok b := fun target inTargets =>
      ⟨_, blockAt_eq_ok.mpr (List.getElem?_eq_getElem (targets inst List.mem_cons_self target inTargets))⟩
    obtain ⟨located, found⟩ := Inst.exists_mapTargetM_eq_ok each
    have retargeted := Inst.retargeted found
    have roomy : Source.hasRoom located = true := by
      rw [Source.hasRoom, retargeted.uses, retargeted.defs]
      exact room inst List.mem_cons_self
    obtain ⟨reserved, reserve⟩ := reserveRegs_ok roomy (m.addInst located).1
    obtain ⟨sameInsts, sameBlocks, sameFuncs⟩ := reserveRegs_same reserve
    have formed₁ := (formed.addInst located).of_same sameInsts sameBlocks sameFuncs
    have loose : reserved.Loose (m.addInst located).2 := by
      simpa only [Loose, Chained.links?, sameInsts] using addInst_loose formed located
    have known : (Chained.ends? (ν := InstId) reserved b).isSome := by
      obtain ⟨node, stored⟩ := formed₁.block_stored inside
      simp [Chained.ends?, stored]
    obtain ⟨next, pushed, -⟩ := Chain.pushBack_inserted formed₁.code known loose
    obtain ⟨formed₂, relinked⟩ := formed₁.pushInst loose pushed
    have keeps : Keeps m next := by
      refine (addInst_keeps formed located).trans (.trans ⟨fun i other read => ?_, ?_, ?_⟩ relinked.keeps)
      · rw [Machine.inst, sameInsts]
        exact read
      · simp [sameBlocks]
      · exact sameFuncs
    have stored : next.inst (m.addInst located).2 = .ok located := by
      apply relinked.keeps.insts
      rw [inst_eq_ok, sameInsts, addInst_get? formed]
      simp
    obtain ⟨m', ids, rest, formed', keeps', shown⟩ := ih formed₂
      (fun other member => room other (List.mem_cons_of_mem _ member))
      (fun other member => targets other (List.mem_cons_of_mem _ member))
    refine ⟨m', (m.addInst located).2 :: ids, ?_, ?_, keeps.trans keeps', .cons ?_ shown⟩
    · rw [storeInsts_cons, found, ok_bind, reserve, ok_bind, Machine.pushInst, pushed, ok_bind, rest]
    · rwa [Function.update_self, Function.update_idem, List.append_assoc] at formed'
    · exact ⟨located, keeps'.insts _ _ stored, mapTargetM_position nodup found⟩

/-! ## Storing functions -/

theorem Formed.storeBlocks (formed : m.Formed code layout) (known : (m.head? f).isSome) (labels : List String)
    (before : List BlockId) : ∃ m' new, labels.foldlM (fun (m, blocks) label => do
        let (m, b) := m.addBlock label
        pure (← m.pushBlock f b, blocks ++ [b])) (m, before) =
        (.ok (m', before ++ new) : Except Fault (Machine × List BlockId)) ∧
      m'.Formed code (Function.update layout f (layout f ++ new)) ∧ Extends m m' ∧ (∀ g, m'.head? g = m.head? g) ∧
      m'.funcs.vacant = m.funcs.vacant ∧
      List.Forall₂ (fun b label => m'.label b = .ok label ∧ code b = []) new labels := by
  induction labels generalizing m layout before with
  | nil =>
    refine ⟨m, [], by simp [pure, Except.pure], ?_, ⟨fun _ _ => id, fun _ _ => id, fun _ _ => id⟩, fun _ => rfl, rfl,
      .nil⟩
    rw [List.append_nil, Function.update_eq_self]
    exact formed
  | cons label labels ih =>
    have lookup (c : BlockId) : (m.addBlock label).1.blocks.get? c.slot =
        if c = (m.addBlock label).2 then some { label } else m.blocks.get? c.slot := by
      have same : c = (m.addBlock label).2 ↔ c.slot = m.blocks.nextSlot := by cases c; simp [Machine.addBlock]
      simp only [same]
      exact formed.blocks.get?_insert { label } c.slot
    have loose := formed.addBlock_loose label
    have stored : (Chained.ends? (ν := BlockId) (m.addBlock label).1 f).isSome := by
      simpa [Chained.ends?, head?, Machine.addBlock] using known
    obtain ⟨pushed, push, -⟩ := Chain.pushBack_inserted (formed.addBlock label).layout stored loose
    obtain ⟨formed', rearranged⟩ := (formed.addBlock label).pushBlock loose push
    have heads (g : FuncId) : pushed.head? g = m.head? g := rearranged.heads g
    have grown : Extends m pushed := by
      refine ⟨fun i inst read => ?_, fun c name read => ?_, fun g head read => by rw [heads]; exact read⟩
      · rw [Machine.inst, rearranged.insts]
        exact read
      · -- a block that has a label is not the one whose slot was vacant
        have other : c ≠ (m.addBlock label).2 := by
          rintro rfl
          rw [Machine.label, map_eq_ok] at read
          obtain ⟨node, found, -⟩ := read
          rw [Pool.get_eq_ok] at found
          simp [Machine.addBlock, formed.blocks.get?_nextSlot] at found
        rw [label_congr (rearranged.labels c), label_congr (m := m) (by rw [lookup, if_neg other]), read]
    have labelled : pushed.label (m.addBlock label).2 = .ok label := by
      rw [label_congr (rearranged.labels _), Machine.label, map_eq_ok]
      exact ⟨{ label }, Pool.get_eq_ok.mpr (by rw [lookup, if_pos rfl]), rfl⟩
    obtain ⟨m', new, rest, formed'', grown', heads', vacant, shown⟩ :=
      ih formed' (by rw [heads]; exact known) (before ++ [(m.addBlock label).2])
    refine ⟨m', (m.addBlock label).2 :: new, ?_, ?_, grown.trans grown', fun g => (heads' g).trans (heads g),
      vacant.trans rearranged.vacant, .cons ⟨grown'.labels _ _ labelled, formed.addBlock_code label⟩ shown⟩
    · rw [List.foldlM_cons]
      simp only [Machine.pushBlock, push, ok_bind, pure_bind]
      rw [List.append_assoc] at rest
      exact rest
    · rwa [Function.update_self, Function.update_idem, List.append_assoc] at formed''

theorem Formed.fill (formed : m.Formed code layout) {all ids : List BlockId} {blocks : List Block}
    (distinct : all.Nodup) (inside : ∀ b ∈ ids, b ∈ layout f) (nodup : ids.Nodup)
    (labelled : List.Forall₂ (fun b block => m.label b = .ok block.label ∧ code b = []) ids blocks)
    (room : ∀ block ∈ blocks, ∀ inst ∈ block.insts, Source.hasRoom inst = true)
    (targets : ∀ block ∈ blocks, ∀ inst ∈ block.insts, ∀ target ∈ inst.targets, target < all.length) :
    ∃ m' code', (ids.zip blocks).foldlM (fun m (b, block) => m.storeInsts all b block.insts) m = .ok m' ∧
      m'.Formed code' layout ∧ Keeps m m' ∧ (∀ b, b ∉ ids → code' b = code b) ∧
      List.Forall₂ (fun b block => Shows m' all (code' b) b block) ids blocks := by
  induction ids generalizing m code blocks with
  | nil =>
    cases labelled
    exact ⟨m, code, rfl, formed, .refl m, fun _ _ => rfl, .nil⟩
  | cons b ids ih =>
    obtain ⟨block, blocks, ⟨label, empty⟩, tail, rfl⟩ := List.forall₂_cons_left_iff.mp labelled
    obtain ⟨absent, nodup⟩ := List.nodup_cons.mp nodup
    obtain ⟨next, new, stored, formed₁, keeps, shown⟩ := formed.storeInsts distinct (inside b List.mem_cons_self)
      (room block List.mem_cons_self) (targets block List.mem_cons_self)
    have apart {c : BlockId} (other : c ≠ b) : Function.update code b (code b ++ new) c = code c :=
      Function.update_of_ne other _ _
    have rest : List.Forall₂ (fun b' block => next.label b' = .ok block.label ∧
        Function.update code b (code b ++ new) b' = []) ids blocks := by
      refine forall₂_imp_mem tail fun c member other here => ?_
      refine ⟨keeps.extends.labels c _ here.1, ?_⟩
      rw [apart fun same => absent (same ▸ member)]
      exact here.2
    obtain ⟨m', code', filled, formed', keeps', kept, shows⟩ := ih formed₁
      (fun c member => inside c (List.mem_cons_of_mem _ member)) nodup rest
      (fun other member => room other (List.mem_cons_of_mem _ member))
      (fun other member => targets other (List.mem_cons_of_mem _ member))
    refine ⟨m', code', ?_, formed', keeps.trans keeps', fun c outside => ?_, .cons ?_ shows⟩
    · rw [List.zip_cons_cons, List.foldlM_cons]
      simp only [stored, ok_bind]
      exact filled
    · obtain ⟨other, outside⟩ := not_or.mp (List.mem_cons.not.mp outside)
      rw [kept c outside, apart other]
    · refine ⟨(keeps.trans keeps').extends.labels b _ label, ?_⟩
      rw [kept b absent, Function.update_self, empty, List.nil_append]
      exact shown.imp fun i inst ⟨held, read, located⟩ => ⟨held, keeps'.insts _ _ read, located⟩

/-! ## Storing programs -/

/-- The machine holds exactly the items of a program, in order. -/
structure Stores (m : Machine) (code : BlockId → List InstId) (layout : FuncId → List BlockId) (program : Program) :
    Prop where
  formed : m.Formed code layout
  full : m.funcs.vacant = []
  items : List.Forall₂ (fun f item => m.Shown code (layout f) f item.record) m.funcIds program

theorem Stores.records_eq {program : Program} (stores : m.Stores code layout program) :
    m.records = .ok (program.map Item.record) := by
  rw [records, mapM_eq_ok, List.forall₂_map_right_iff]
  exact stores.items.imp fun f item shown => stores.formed.record_eq shown

theorem funcIds_congr (same : ∀ g, m'.head? g = m.head? g) : m'.funcIds = m.funcIds := by
  have occupied (slot : Nat) : (m'.funcs.get? slot).isSome = (m.funcs.get? slot).isSome := by
    simpa [head?] using congrArg Option.isSome (same ⟨slot⟩)
  rw [funcIds_eq, funcIds_eq, Pool.map_fst_toList_congr occupied]

theorem addFunc_funcIds (full : m.funcs.vacant = []) (label : String) (external : Bool) :
    (m.addFunc label external).1.funcs.vacant = [] ∧
      (m.addFunc label external).1.funcIds = m.funcIds ++ [(m.addFunc label external).2] := by
  obtain ⟨vacant, slots⟩ := Pool.map_fst_toList_insert full { label, external : FuncNode }
  refine ⟨vacant, ?_⟩
  have listed : (m.addFunc label external).1.funcs.toList.map Prod.fst = _ := slots
  rw [funcIds_eq, listed, List.map_append, ← funcIds_eq]
  rfl

theorem Formed.addFunc_extends (formed : m.Formed code layout) (label : String) (external : Bool) :
    Extends m (m.addFunc label external).1 := by
  refine ⟨fun _ _ => id, fun _ _ => id, fun g head known => ?_⟩
  rw [addFunc_head? formed, if_neg ?_]
  · exact known
  · rintro rfl
    simp [head?, Machine.addFunc, formed.funcs.get?_nextSlot] at known

theorem modifyFunc_vacant {change : FuncNode → FuncNode} (modified : m.modifyFunc f change = .ok m') :
    m'.funcs.vacant = m.funcs.vacant := by
  simp only [modifyFunc, bind_eq_ok, pure_eq_ok, Pool.modify_eq_ok] at modified
  obtain ⟨_, ⟨node, -, rfl⟩, rfl⟩ := modified
  exact Pool.vacant_set

/-- A function without code can be stored with its frame, behind the functions that are there. -/
theorem Formed.storeHead (formed : m.Formed code layout) (full : m.funcs.vacant = []) (label : String)
    (frame : UInt64) :
    ∃ m', (m.addFunc label false).1.modifyFunc (m.addFunc label false).2 ({ · with frame }) = .ok m' ∧
      m'.Formed code layout ∧ Extends m m' ∧ m'.head? (m.addFunc label false).2 = some (label, false, frame) ∧
      m'.funcs.vacant = [] ∧ m'.funcIds = m.funcIds ++ [(m.addFunc label false).2] := by
  have found : (m.addFunc label false).1.func (m.addFunc label false).2 = .ok { label, external := false } :=
    func_eq_ok.mpr (by simp [Machine.addFunc, formed.funcs.get?_insert])
  obtain ⟨vacant, listed⟩ := addFunc_funcIds full label false
  obtain ⟨m', modified, formed', insts, blocks, funcs⟩ :=
    (formed.addFunc label false).modifyFunc found ({ · with frame }) fun _ => rfl
  have heads (g : FuncId) : m'.head? g =
      if g = (m.addFunc label false).2 then some (label, false, frame) else m.head? g := by
    rw [head?, funcs]
    split
    · rfl
    · next other => rw [← head?, addFunc_head? formed, if_neg other]
  refine ⟨m', modified, formed', ⟨fun i inst read => ?_, fun b name read => ?_, fun g head known => ?_⟩, ?_,
    (modifyFunc_vacant modified).trans vacant, ?_⟩
  · rw [Machine.inst, insts]
    exact read
  · rw [Machine.label, blocks]
    exact read
  · rw [heads, if_neg ?_]
    · exact known
    · rintro rfl
      simp [head?, Machine.addFunc, formed.funcs.get?_nextSlot] at known
  · rw [heads, if_pos rfl]
  · rw [← listed]
    have occupied (slot : Nat) : (m'.funcs.get? slot).isSome = ((m.addFunc label false).1.funcs.get? slot).isSome := by
      rw [funcs ⟨slot⟩]
      split
      · next same =>
        have known := func_eq_ok.mp found
        rw [← same] at known
        rw [known]
        rfl
      · rfl
    rw [funcIds_eq, funcIds_eq, Pool.map_fst_toList_congr occupied]

theorem storeItem_function (m : Machine) (function : Function) : m.storeItem (.function function) = (do
    let headed ← (m.addFunc function.label false).1.modifyFunc (m.addFunc function.label false).2
      ({ · with frame := function.frame })
    let laid ← headed.storeBlocks (m.addFunc function.label false).2 (function.blocks.map Block.label)
    (laid.2.zip function.blocks).foldlM (fun m (b, block) => m.storeInsts laid.2 b block.insts) laid.1) := rfl

theorem Stores.storeItem {program : Program} (stores : m.Stores code layout program) {item : Item}
    (storable : ∀ function, item = .function function → function.Storable) :
    ∃ m' code' layout', m.storeItem item = .ok m' ∧ m'.Stores code' layout' (program ++ [item]) := by
  have formed := stores.formed
  cases item with
  | external label =>
    obtain ⟨vacant, listed⟩ := addFunc_funcIds stores.full label true
    refine ⟨_, code, layout, rfl, formed.addFunc label true, vacant, ?_⟩
    rw [listed]
    refine List.rel_append (stores.items.imp fun g item shown => ?_) (.cons ⟨?_, ?_⟩ .nil)
    · exact shown.extends (formed.addFunc_extends label true) fun _ _ => rfl
    · rw [addFunc_head? formed, if_pos rfl]
      rfl
    · rw [formed.addFunc_layout]
      exact .nil
  | function function =>
    have storable := storable function rfl
    obtain ⟨headed, modified, formed₁, grown₁, head, vacant₁, listed⟩ :=
      formed.storeHead stores.full function.label function.frame
    have steps := storeItem_function m function
    have bare := formed.addFunc_layout function.label false
    have unknown : m.funcs.get? (m.addFunc function.label false).2.slot = none := formed.funcs.get?_nextSlot
    rw [modified, ok_bind] at steps
    generalize (m.addFunc function.label false).2 = f at *
    obtain ⟨laid, new, stored, formed₂, grown₂, heads, vacant₂, labelled⟩ :=
      formed₁.storeBlocks (f := f) (by rw [head]; rfl) (function.blocks.map Block.label) []
    rw [bare, List.nil_append] at formed₂
    rw [List.nil_append, ← Machine.storeBlocks] at stored
    rw [List.forall₂_map_right_iff] at labelled
    have nodup : new.Nodup := by simpa using formed₂.layout.nodup f
    obtain ⟨m', code', filled, formed₃, keeps, kept, shows⟩ := formed₂.fill (f := f) nodup
      (fun b member => by rwa [Function.update_self]) nodup labelled storable.room
      (by rw [labelled.length_eq]; exact storable.targets)
    have grown : Extends m m' := (grown₁.trans grown₂).trans keeps.extends
    have same (g : FuncId) : m'.head? g = headed.head? g := by rw [head?, keeps.funcs, ← head?, heads]
    refine ⟨m', code', _, ?_, formed₃, by rw [keeps.funcs, vacant₂, vacant₁], ?_⟩
    · rw [steps, stored, ok_bind, filled]
    · rw [funcIds_congr same, listed]
      refine List.rel_append (forall₂_imp_mem stores.items fun g member item shown => ?_) (.cons ⟨?_, ?_⟩ .nil)
      · have other : g ≠ f := by
          rintro rfl
          obtain ⟨node, known⟩ := mem_funcIds.mp member
          rw [func_eq_ok, unknown] at known
          cases known
        rw [Function.update_of_ne other]
        refine shown.extends grown fun b inG => kept b fun inNew => other ?_
        -- no block is in two functions
        have inG' : b ∈ Function.update layout f new g := by rwa [Function.update_of_ne other]
        have inF : b ∈ Function.update layout f new f := by rwa [Function.update_self]
        exact formed₂.layout_disjoint inG' inF
      · exact (same _).trans head
      · rw [Function.update_self]
        exact shows

theorem ofProgram_stores {program : Program} (storable : ∀ function, .function function ∈ program → function.Storable) :
    ∃ m code layout, ofProgram program = .ok m ∧ m.Stores code layout program := by
  have run : ∀ (items before : Program) (m : Machine) (code : BlockId → List InstId) (layout : FuncId → List BlockId),
      m.Stores code layout before → (∀ function, .function function ∈ items → function.Storable) →
      ∃ m' code' layout', items.foldlM Machine.storeItem m = .ok m' ∧ m'.Stores code' layout' (before ++ items) := by
    intro items
    induction items with
    | nil =>
      intro before m code layout stores _
      exact ⟨m, code, layout, rfl, by rwa [List.append_nil]⟩
    | cons item items ih =>
      intro before m code layout stores storable
      obtain ⟨next, code₁, layout₁, first, stores₁⟩ :=
        stores.storeItem fun function same => storable function (same ▸ List.mem_cons_self)
      obtain ⟨m', code', layout', rest, stores'⟩ :=
        ih _ next code₁ layout₁ stores₁ fun function member => storable function (List.mem_cons_of_mem _ member)
      refine ⟨m', code', layout', by rw [List.foldlM_cons, first, ok_bind, rest], ?_⟩
      rwa [List.append_assoc] at stores'
  exact run program [] {} _ _ ⟨empty_formed, rfl, .nil⟩ storable

end Machine

end RegisterAllocator
