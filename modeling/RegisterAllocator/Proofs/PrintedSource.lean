import RegisterAllocator.Proofs.SourceNames
import RegisterAllocator.Proofs.StoredPrograms

/-!
# Printed source

The functions of a machine can be written as source text (`Machine.sourceText`). Reading that text gives the same
functions, except that calls and returns lose their register lists. A name that starts with a colon is not read back,
since a colon behind a word ends a label.
-/

namespace RegisterAllocator

/-! ## Writing a machine -/

namespace Machine

open Source (line)

def codeSource (m : Machine) (b : BlockId) : Except Fault String := do
  let lines ← (← m.code b).mapM fun i => return line (← m.instText i)
  return String.join lines

/-- The lines of blocks: the code of the entry, then each other block under its label. -/
def blocksSource (m : Machine) : List BlockId → Except Fault String
  | [] => pure ""
  | entry :: rest => do
    let later ← rest.mapM fun b => return line ((← m.label b) ++ ":") ++ (← m.codeSource b)
    return (← m.codeSource entry) ++ String.join later

def funcSource (m : Machine) (f : FuncId) : Except Fault String := do
  let node ← m.func f
  if node.external then return line (".extern " ++ node.label)
  let opening := line (".func " ++ node.label) ++ line (".frame " ++ toString node.frame.toNat)
  return opening ++ (← m.blocksSource (← m.layout f)) ++ line ".endfunc"

/-- The functions of a machine as source text, in slot order. -/
def sourceText (m : Machine) : Except Fault String := String.join <$> m.funcIds.mapM m.funcSource

variable {m : Machine} {code : BlockId → List InstId} {layout : FuncId → List BlockId} {f : FuncId}

theorem mapTargetM_label {all : List BlockId} {blocks : List Block} (nodup : all.Nodup)
    (labelled : List.Forall₂ (fun b block => m.label b = .ok block.label) all blocks) {stored : Inst BlockId}
    {inst : Inst Nat} (located : stored.mapTargetM (position all) = .ok inst) : stored.mapTargetM m.label =
      .ok (inst.mapTarget fun position => (blocks[position]?.map Block.label).getD "") := by
  have target {b : BlockId} {place : Nat} (here : position all b = .ok place) :
      m.label b = .ok ((blocks[place]?.map Block.label).getD "") := by
    obtain ⟨block, found, label⟩ := forall₂_getElem? labelled ((position_eq_ok nodup).mp here)
    rw [found, label]
    rfl
  cases stored with
  | jump b | branch op rs1 rs2 b =>
    simp only [Inst.mapTargetM, bind_eq_ok, pure_eq_ok] at located
    obtain ⟨place, here, rfl⟩ := located
    simp only [Inst.mapTargetM, target here]
    rfl
  | _ =>
    cases located
    rfl

theorem Shows.codeSource {all : List BlockId} {blocks : List Block} {ids : List InstId} {b : BlockId} {block : Block}
    (shown : Shows m all ids b block) (coded : m.code b = .ok ids) (nodup : all.Nodup)
    (labelled : List.Forall₂ (fun b block => m.label b = .ok block.label) all blocks) :
    m.codeSource b = .ok (Source.instLines blocks block) := by
  have lines : ids.mapM (fun i => return line (← m.instText i)) =
      .ok (block.insts.map (Source.instLine blocks)) := by
    rw [mapM_eq_ok, List.forall₂_map_right_iff]
    refine shown.insts.imp fun i inst ⟨stored, read, located⟩ => ?_
    rw [instText, read, ok_bind, mapTargetM_label nodup labelled located]
    rfl
  rw [Machine.codeSource, coded, ok_bind, lines]
  rfl

theorem blocksSource_eq {ids : List BlockId} {blocks : List Block} (listed : List.Forall₂ (fun b block =>
    m.label b = .ok block.label ∧ m.codeSource b = .ok (Source.instLines blocks block)) ids blocks) :
    m.blocksSource ids = .ok (Source.blockLines blocks) := by
  cases listed with
  | nil => rfl
  | @cons entry first rest later head tail =>
    have others : rest.mapM (fun b => return line ((← m.label b) ++ ":") ++ (← m.codeSource b)) =
        .ok (later.map fun block => line (block.label ++ ":") ++ Source.instLines (first :: later) block) := by
      rw [mapM_eq_ok, List.forall₂_map_right_iff]
      refine tail.imp fun b block here => ?_
      rw [here.1, here.2]
      rfl
    rw [blocksSource, others, ok_bind, head.2]
    rfl

theorem Formed.funcSource_eq (formed : m.Formed code layout) {item : Item}
    (shown : m.Shown code (layout f) f item.record) : m.funcSource f = .ok (Source.itemLines item) := by
  obtain ⟨node, found, label, external, frame⟩ := shown.func
  cases item with
  | external name =>
    simp only [funcSource, found, ok_bind, external, label, Item.record, if_true]
    rfl
  | function function =>
    have labelled := shown.blocks.imp fun b block shown => shown.label
    have blocks := blocksSource_eq <| forall₂_imp_mem shown.blocks fun b member block shown =>
      ⟨shown.label, shown.codeSource (formed.code_ok member) (formed.layout.nodup f) labelled⟩
    simp only [funcSource, found, ok_bind, external, Item.record, Bool.false_eq_true, if_false, formed.layout_ok found,
      blocks, label, frame]
    rfl

theorem Stores.sourceText_eq {program : Program} (stores : m.Stores code layout program) :
    m.sourceText = .ok (Source.print program) := by
  have items : m.funcIds.mapM m.funcSource = .ok (program.map Source.itemLines) := by
    rw [mapM_eq_ok, List.forall₂_map_right_iff]
    exact stores.items.imp fun f item shown => stores.formed.funcSource_eq shown
  rw [sourceText, items]
  rfl

theorem Stores.func_of_mem {program : Program} (stores : m.Stores code layout program) {item : Item}
    (member : item ∈ program) : ∃ f node, m.func f = .ok node ∧ node.label = item.label := by
  obtain ⟨f, -, shown⟩ := forall₂_mem_right stores.items member
  obtain ⟨node, found, label, -⟩ := shown.func
  exact ⟨f, node, found, label.trans (by cases item <;> rfl)⟩

theorem Stores.call_of_mem {program : Program} (stores : m.Stores code layout program) {function : Function}
    (member : .function function ∈ program) {block : Block} (inFunction : block ∈ function.blocks) {symbol : String}
    {arguments : List PhysReg} (inBlock : .call symbol arguments ∈ block.insts) :
    ∃ i, m.inst i = .ok (.call symbol arguments) := by
  obtain ⟨f, -, here⟩ := forall₂_mem_right stores.items member
  obtain ⟨b, -, shown⟩ := forall₂_mem_right here.blocks inFunction
  obtain ⟨i, -, stored, read, located⟩ := forall₂_mem_right shown.insts inBlock
  refine ⟨i, ?_⟩
  cases stored with
  | call symbol' arguments' =>
    cases located
    exact read
  | jump b | branch op rs1 rs2 b =>
    simp only [Inst.mapTargetM, bind_eq_ok, pure_eq_ok, reduceCtorEq, and_false, exists_false] at located
  | _ => cases located

end Machine

/-! ## Reading it back -/

/-- A record without the register lists of calls and returns. -/
def Machine.Record.unlisted (record : Machine.Record) : Machine.Record :=
  { record with function := record.function.unlisted }

theorem Program.record_unlisted (program : Program) :
    program.unlisted.map Item.record = (program.map Item.record).map Machine.Record.unlisted := by
  rw [Program.unlisted, List.map_map, List.map_map]
  refine List.map_congr_left fun item _ => ?_
  cases item <;> rfl

theorem Function.Storable.unlisted {f : Function} (storable : f.Storable) : f.unlisted.Storable := by
  refine ⟨fun _ member _ here => ?_, fun _ member _ here => ?_⟩
  · obtain ⟨block, inBlocks, rfl⟩ := List.mem_map.mp member
    obtain ⟨inst, inBlock, rfl⟩ := List.mem_map.mp here
    exact Source.hasRoom_unlisted (storable.room block inBlocks inst inBlock)
  · obtain ⟨block, inBlocks, rfl⟩ := List.mem_map.mp member
    obtain ⟨inst, inBlock, rfl⟩ := List.mem_map.mp here
    have same : inst.unlisted.targets = inst.targets := by cases inst <;> rfl
    rw [same, Function.unlisted, List.length_map]
    exact storable.targets block inBlocks inst inBlock

namespace Source

theorem resolve_storable {labels : List String} {draft : DraftInst} {inst : Inst Nat}
    (found : resolve labels draft = .ok inst) :
    hasRoom inst = true ∧ ∀ target ∈ inst.targets, target < labels.length := by
  unfold resolve at found
  split at found
  · cases found
  next inst' read =>
  rw [bind_eq_ok] at read
  obtain ⟨source, -, located⟩ := read
  split at found
  · next room =>
    cases found
    refine ⟨room, fun target member => ?_⟩
    obtain ⟨name, -, here⟩ := forall₂_mem_right (Inst.retargeted located).targets member
    exact (List.getElem?_eq_some_iff.mp (findLabel_eq_ok here)).1
  · cases found

theorem readItem_storable {draft : DraftItem} {function : Function} (read : readItem draft = .ok (.function function)) :
    function.Storable := by
  cases draft with
  | external label => cases read
  | function f =>
    obtain ⟨blocks, same, -, drafted⟩ := readItem_eq_ok read
    cases same
    have each (block : Block) (inBlocks : block ∈ blocks) (inst : Inst Nat) (inBlock : inst ∈ block.insts) :
        hasRoom inst = true ∧ ∀ target ∈ inst.targets, target < blocks.length := by
      obtain ⟨_, -, resolved⟩ := forall₂_mem_right drafted inBlocks
      obtain ⟨_, -, found⟩ := forall₂_mem_right resolved inBlock
      have storable := resolve_storable found
      rwa [DraftFunction.labels, List.length_map, drafted.length_eq] at storable
    exact ⟨fun block inBlocks inst inBlock => (each block inBlocks inst inBlock).1,
      fun block inBlocks inst inBlock => (each block inBlocks inst inBlock).2⟩

theorem readProgram_storable {source : String} {program : Program} (read : readProgram source = .ok program)
    {function : Function} (member : .function function ∈ program) : function.Storable := by
  obtain ⟨drafts, -, -, items⟩ := readProgram_eq_ok read
  obtain ⟨draft, -, read⟩ := forall₂_mem_right items member
  exact readItem_storable read

theorem read_eq_ok {source : String} {m : Machine} (read : Source.read source = .ok m) :
    ∃ program, readProgram source = .ok program ∧ Machine.ofProgram program = .ok m := by
  rw [Source.read, bind_eq_ok] at read
  obtain ⟨program, read, stored⟩ := read
  refine ⟨program, read, ?_⟩
  split at stored
  · next found =>
    cases stored
    exact found
  · cases stored

/-- A machine that is read from source holds the program of the source. -/
theorem read_stores {source : String} {m : Machine} (read : Source.read source = .ok m) :
    ∃ program code layout, readProgram source = .ok program ∧ m.Stores code layout program ∧
      ∀ function, .function function ∈ program → function.Storable := by
  obtain ⟨program, read, stored⟩ := read_eq_ok read
  have storable : ∀ function, .function function ∈ program → function.Storable :=
    fun function => readProgram_storable read
  obtain ⟨m', code, layout, ok, stores⟩ := Machine.ofProgram_stores storable
  rw [ok] at stored
  cases stored
  exact ⟨program, code, layout, read, stores, storable⟩

/-- The source text of a machine that was read is read as the same functions, in the same order, external or not, with
the same names, frames, labels and instructions, except that calls and returns have lost their register lists. No
function may have a name that starts with a colon, and no call a symbol that is empty or starts with one. -/
theorem printed_source_reads_back {source : String} {m : Machine} (read : Source.read source = .ok m)
    (named : ∀ f node, m.func f = .ok node → node.label.toList.head? ≠ some ':')
    (called : ∀ i symbol arguments, m.inst i = .ok (.call symbol arguments) →
      symbol ≠ "" ∧ symbol.toList.head? ≠ some ':') :
    ∃ records text m', m.records = .ok records ∧ m.sourceText = .ok text ∧ Source.read text = .ok m' ∧
      m'.records = .ok (records.map Machine.Record.unlisted) := by
  obtain ⟨program, code, layout, readable, stores, storable⟩ := read_stores read
  have printable : ∀ item ∈ program, PrintableItem item := by
    intro item member
    obtain ⟨drafts, -, neat, items⟩ := readProgram_eq_ok readable
    obtain ⟨draft, inDrafts, read⟩ := forall₂_mem_right items member
    refine readItem_printable (neat draft inDrafts).1 (neat draft inDrafts).2 read ?_ ?_
    · obtain ⟨f, node, known, label⟩ := stores.func_of_mem member
      exact label ▸ named f node known
    · rintro function rfl block inFunction symbol arguments inBlock
      obtain ⟨i, stored⟩ := stores.call_of_mem member inFunction inBlock
      exact called i symbol arguments stored
  have storable' : ∀ function, .function function ∈ program.unlisted → function.Storable := by
    intro function member
    obtain ⟨item, inProgram, same⟩ := List.mem_map.mp member
    cases item with
    | external label => cases same
    | function original =>
      cases same
      exact (storable original inProgram).unlisted
  obtain ⟨m', code', layout', stored, stores'⟩ := Machine.ofProgram_stores storable'
  refine ⟨program.map Item.record, print program, m', stores.records_eq, stores.sourceText_eq, ?_, ?_⟩
  · rw [Source.read, readProgram_print printable, ok_bind, stored]
  · rw [stores'.records_eq, Program.record_unlisted]

/-- A source with register lists, branches, an empty symbol, and a name with blanks, commas and inner colons. -/
def wordySource : String :=
  ".extern put: a, b\n.func main\n\tli $r0, -5\nloop: addi $r0, $r0, -1\n\tmv a0, $r0\n\tcall put, a0\n" ++
    "\tbnez $r0, loop\n\tla a0,\n\tj main\n\tret a0\n"

theorem wordy_source_reads_back : ∃ m records text m', Source.read wordySource = .ok m ∧ m.records = .ok records ∧
    m.sourceText = .ok text ∧ Source.read text = .ok m' ∧
    m'.records = .ok (records.map Machine.Record.unlisted) ∧ records.map Machine.Record.unlisted ≠ records := by
  have run : (do
      let m ← (Source.read wordySource).toOption
      let records ← m.records.toOption
      return decide ((∀ entry ∈ m.funcs.toList, entry.2.label.toList.head? ≠ some ':') ∧
        (∀ entry ∈ m.insts.toList, entry.2.inst.mnemonic = "call" → entry.2.inst = .call "put" [⟨10, .general⟩]) ∧
        records.map Machine.Record.unlisted ≠ records)) = some true := by
    decide +kernel
  simp only [bind, Option.bind_eq_some_iff, toOption_eq_some, pure, Option.some.injEq, decide_eq_true_eq] at run
  obtain ⟨m, read, records, shown, labels, calls, listed⟩ := run
  have named : ∀ f node, m.func f = .ok node → node.label.toList.head? ≠ some ':' := fun f node known =>
    labels (f.slot, node) (Pool.mem_toList.mpr (Machine.func_eq_ok.mp known))
  have called : ∀ i symbol arguments, m.inst i = .ok (.call symbol arguments) →
      symbol ≠ "" ∧ symbol.toList.head? ≠ some ':' := by
    intro i symbol arguments known
    obtain ⟨node, stored, same⟩ := Option.map_eq_some_iff.mp (Machine.inst_eq_ok.mp known)
    have put := calls (i.slot, node) (Pool.mem_toList.mpr stored) (by rw [same]; rfl)
    rw [same] at put
    cases put
    decide
  obtain ⟨records', text, m', shown', written, reread, same⟩ := printed_source_reads_back read named called
  cases shown.symm.trans shown'
  exact ⟨m, records, text, m', read, shown, written, reread, same, listed⟩

/-- A function whose name starts with a colon can be read behind a label, but not from its own line. -/
theorem colon_name_not_read_back : ∃ m text, Source.read ".func g\nl: .func :x\n" = .ok m ∧
    (∀ i symbol arguments, m.inst i ≠ .ok (.call symbol arguments)) ∧ m.sourceText = .ok text ∧
    Source.read text = .error (.malformed { line := 5, complaint := .outsideFunction ".func" }) := by
  have run : (do
      let m ← (Source.read ".func g\nl: .func :x\n").toOption
      let text ← m.sourceText.toOption
      return decide (m.insts.capacity = 0 ∧
        readProgram text = .error (.malformed { line := 5, complaint := .outsideFunction ".func" }))) = some true := by
    decide +kernel
  simp only [bind, Option.bind_eq_some_iff, toOption_eq_some, pure, Option.some.injEq, decide_eq_true_eq] at run
  obtain ⟨m, read, text, written, vacant, failed⟩ := run
  refine ⟨m, text, read, fun i symbol arguments known => ?_, written, by rw [Source.read, failed]; rfl⟩
  obtain ⟨node, stored, -⟩ := Option.map_eq_some_iff.mp (Machine.inst_eq_ok.mp known)
  have bound := Pool.lt_capacity (by rw [stored]; rfl)
  omega

end Source

end RegisterAllocator
