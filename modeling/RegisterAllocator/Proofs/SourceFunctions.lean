import RegisterAllocator.Proofs.FunctionLines
import RegisterAllocator.Proofs.InstructionLines
import RegisterAllocator.Proofs.PrintedSource

/-!
# Functions and the lines they are read from

Every function of a program that can be read is well formed and has an instruction for each instruction line of the
function, in order (`Source.functions_transcribe_lines`).
-/

namespace RegisterAllocator.Source

/-- The instruction is what the line says in a function whose blocks have the given labels. -/
structure Encodes (labels : List String) (draft : DraftInst) (inst : Inst Nat) : Prop where
  read : readInst draft = .ok (inst.mapTarget fun position => labels[position]?.getD "")
  typed : inst.Typed
  names : inst.Names draft.operands fun position label => labels[position]? = some label

/-- The function is what the lines after the one that opens it say. -/
structure Transcribes (lines : List Line) (start : Nat) (function : Function) : Prop where
  opening : opensAt? lines start = some function.label
  entry : ∃ first rest, function.blocks = first :: rest ∧ first.label = function.label
  distinct : (function.blocks.map Block.label).Nodup
  labels : ∀ label, label ∈ function.blocks.map Block.label ↔
    label = function.label ∨ ∃ place ∈ scope lines start, labelAt? lines place = some label
  insts : List.Forall₂ (Encodes (function.blocks.map Block.label)) (instLinesOf lines start)
    (function.blocks.flatMap Block.insts)

theorem resolve_encodes {labels : List String} {draft : DraftInst} {inst : Inst Nat}
    (found : resolve labels draft = .ok inst) : Encodes labels draft inst := by
  have typed := resolve_typed found
  unfold resolve at found
  split at found
  · cases found
  · next read =>
    split at found
    · cases found
      obtain ⟨source, read, located⟩ := bind_eq_ok.mp read
      have yields := readInst_yields draft
      rw [read] at yields
      refine ⟨by rw [read, Inst.mapTarget_of_findLabel located], typed, yields.names.mapTargetM located ?_⟩
      rintro name position _ located rfl
      exact findLabel_eq_ok located
    · cases found

theorem readItem_transcribes {lines : List Line} {start : Nat} {f : DraftFunction} {function : Function}
    (neat : f.Neat) (spans : f.Spans lines start) (read : readItem (.function f) = .ok (.function function)) :
    Transcribes lines start function := by
  obtain ⟨blocks, same, labels, resolved⟩ := readItem_eq_ok read
  cases same
  refine ⟨spans.opening, ?_, labels ▸ neat.nodup, fun label => by rw [labels, spans.labels], ?_⟩
  · have entry := neat.entry
    rw [← labels] at entry
    cases blocks with
    | nil => cases entry
    | cons first rest => exact ⟨first, rest, rfl, Option.some.inj entry⟩
  · rw [← spans.insts, labels]
    exact List.rel_flatMap resolved fun _ _ insts => insts.imp fun _ _ => resolve_encodes

/-- The functions of a program in order, without those that are external. -/
theorem forall₂_functions {drafts : List DraftItem} {program : Program} {R : DraftFunction → Function → Prop}
    (items : List.Forall₂ (fun draft item => readItem draft = .ok item) drafts program)
    (each : ∀ f function, .function f ∈ drafts → readItem (.function f) = .ok (.function function) → R f function) :
    List.Forall₂ R (drafts.filterMap DraftItem.function?)
      (((program.map Item.record).filter fun record => !record.external).map Machine.Record.function) := by
  induction items with
  | nil => exact .nil
  | @cons draft item drafts program read _ ih =>
    have rest := ih fun f function member => each f function (List.mem_cons_of_mem _ member)
    cases draft with
    | external label =>
      cases read
      exact rest
    | function f =>
      obtain ⟨blocks, rfl, -⟩ := readItem_eq_ok read
      exact .cons (each f _ List.mem_cons_self read) rest

/-- In a program that has been read, the functions with code are those that the source opens, in order. Each has an
entry block of its own name and distinct labels, and its instructions are those of its lines: typed, and with branches
to the blocks that bear the labels written. -/
theorem functions_transcribe_lines {source : String} {m : Machine} (read : Source.read source = .ok m) :
    ∃ records, m.records = .ok records ∧
      List.Forall₂ (Transcribes (linesOf source)) (openings (linesOf source))
        ((records.filter fun record => !record.external).map Machine.Record.function) := by
  obtain ⟨program, code, layout, readable, stores, -⟩ := read_stores read
  obtain ⟨drafts, drawn, neat, items⟩ := readProgram_eq_ok readable
  refine ⟨_, stores.records_eq, ?_⟩
  have functions := forall₂_functions (R := fun f function =>
      f.Neat ∧ readItem (.function f) = .ok (.function function)) items
    fun f function member read => ⟨(neat _ member).1, read⟩
  exact (forall₂_comp (outline_spans drawn) functions).imp fun start function ⟨f, spans, neat, read⟩ =>
    readItem_transcribes neat spans read

/-- A source in which one function ends where the next is opened. It has an entry label, a label in front of an
instruction, branches both ways and an external function between two blocks. -/
def tangledSource : String :=
  ".func main\nmain:\n\tbeqz $r0, done\n.extern put\nloop: mv a0, $r0 # down\n\tcall put, a0\n" ++
    "\tbgt $r0, zero, loop\ndone:\n.func tail\n\tflw fa0, 4(sp)\n\tret fa0\n.endfunc\n"

theorem tangled_source_transcribed : ∃ m records, Source.read tangledSource = .ok m ∧ m.records = .ok records ∧
    openings (linesOf tangledSource) = [0, 8] ∧ (instLinesOf (linesOf tangledSource) 0).length = 4 ∧
    List.Forall₂ (Transcribes (linesOf tangledSource)) [0, 8]
      ((records.filter fun record => !record.external).map Machine.Record.function) := by
  have run : (Source.read tangledSource).toOption.isSome ∧ openings (linesOf tangledSource) = [0, 8] ∧
      (instLinesOf (linesOf tangledSource) 0).length = 4 := by decide +kernel
  obtain ⟨readable, opens, insts⟩ := run
  obtain ⟨m, read⟩ := Option.isSome_iff_exists.mp readable
  obtain ⟨records, shown, functions⟩ := functions_transcribe_lines (toOption_eq_some.mp read)
  exact ⟨m, records, toOption_eq_some.mp read, shown, opens, insts, opens ▸ functions⟩

end RegisterAllocator.Source
