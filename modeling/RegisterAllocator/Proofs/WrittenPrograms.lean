import RegisterAllocator.Proofs.WrittenInsts
import RegisterAllocator.Source.Printer

/-!
# Programs that are written

A program is read back from its source text, line by line, if every name in it stays a name on its line
(`Source.readProgram_print`). The register lists of calls and returns are lost.
-/

namespace RegisterAllocator

/-! ## Instructions by label and by position -/

theorem Source.findLabel_eq_ok {labels : List String} {name : String} {position : Nat}
    (found : findLabel labels name = .ok position) : labels[position]? = some name := by
  unfold findLabel at found
  split at found
  · next place known =>
    cases found
    obtain ⟨bound, same, -⟩ := List.idxOf?_eq_some_iff.mp known
    exact List.getElem?_eq_some_iff.mpr ⟨bound, same⟩
  · cases found

namespace Inst

theorem mapTargetM_unlisted {τ τ' ε : Type} {find : τ → Except ε τ'} {inst : Inst τ} {inst' : Inst τ'}
    (found : inst.mapTargetM find = .ok inst') : inst.unlisted.mapTargetM find = .ok inst'.unlisted := by
  cases inst with
  | jump target | branch op rs1 rs2 target =>
    have opened := found
    simp only [mapTargetM, bind_eq_ok, pure_eq_ok] at opened
    obtain ⟨target', -, rfl⟩ := opened
    exact found
  | _ =>
    cases found
    rfl

/-- Looking a label up and writing the label of the position are inverse. -/
theorem mapTarget_of_findLabel {labels : List String} {inst : Inst Nat} {source : Inst String}
    (found : source.mapTargetM (Source.findLabel labels) = .ok inst) :
    inst.mapTarget (fun position => labels[position]?.getD "") = source := by
  cases source with
  | jump target | branch op rs1 rs2 target =>
    simp only [mapTargetM, bind_eq_ok, pure_eq_ok] at found
    obtain ⟨position, located, rfl⟩ := found
    simp only [mapTarget, mapTargetM, Source.findLabel_eq_ok located]
    rfl
  | _ =>
    cases found
    rfl

end Inst

def Block.unlisted (block : Block) : Block := { block with insts := block.insts.map Inst.unlisted }

def Function.unlisted (f : Function) : Function := { f with blocks := f.blocks.map Block.unlisted }

def Item.unlisted : Item → Item
  | external label => external label
  | function f => function f.unlisted

/-- The program without the register lists of its calls and returns. -/
def Program.unlisted (program : Program) : Program := program.map Item.unlisted

namespace Source

theorem hasRoom_unlisted {inst : Inst Nat} (room : hasRoom inst = true) : hasRoom inst.unlisted = true := by
  cases inst with
  | call symbol arguments | ret results => rfl
  | _ => exact room

/-- An instruction that can be written: it stands for a text that a line can hold, in a function with the given
labels. -/
structure Printable (labels : List String) (inst : Inst Nat) : Prop where
  room : hasRoom inst = true
  text : ∃ source, Written source ∧ source.mapTargetM (findLabel labels) = .ok inst

/-- A function that can be written. -/
structure PrintableFunction (f : Function) : Prop where
  clean : Clean f.label
  leads : Leads f.label
  framed : f.frame.toNat < 2 ^ 63
  entry : ∃ entry rest, f.blocks = entry :: rest ∧ entry.label = f.label ∧ ∀ block ∈ rest, Word block.label
  nodup : (f.blocks.map Block.label).Nodup
  insts : ∀ block ∈ f.blocks, ∀ inst ∈ block.insts, Printable (f.blocks.map Block.label) inst

def PrintableItem : Item → Prop
  | .external label => Clean label ∧ Leads label
  | .function f => PrintableFunction f

/-! ## Texts of lines -/

def instTexts (labels : List String) (insts : List (Inst Nat)) : List String :=
  insts.map fun inst => (inst.mapTarget fun position => labels[position]?.getD "").text

def blockTexts (labels : List String) (block : Block) : List String :=
  (block.label ++ ":") :: instTexts labels block.insts

def itemTexts : Item → List String
  | .external label => [".extern " ++ label]
  | .function f =>
    let labels := f.blocks.map Block.label
    (".func " ++ f.label) :: (".frame " ++ toString f.frame.toNat) ::
      ((f.blocks.head?.map fun entry => instTexts labels entry.insts).getD [] ++
        f.blocks.tail.flatMap (blockTexts labels) ++ [".endfunc"])

/-- The lines of pieces that are made of lines. -/
theorem join_lines {α : Type} {piece : α → String} {texts : α → List String} {list : List α}
    (each : ∀ a ∈ list, piece a = String.join ((texts a).map line)) :
    String.join (list.map piece) = String.join ((list.flatMap texts).map line) := by
  induction list with
  | nil => rfl
  | cons a list ih =>
    have rest := ih fun other member => each other (List.mem_cons_of_mem _ member)
    rw [List.map_cons, String.join_cons, rest, each a List.mem_cons_self, List.flatMap_cons, List.map_append,
      String.join_append]

theorem instLines_eq (blocks : List Block) (block : Block) :
    instLines blocks block = String.join ((instTexts (blocks.map Block.label) block.insts).map line) := by
  simp only [instLines, instTexts, List.map_map, List.getElem?_map]
  rfl

theorem itemLines_eq (item : Item) : itemLines item = String.join ((itemTexts item).map line) := by
  cases item with
  | external label => simp [itemLines, itemTexts]
  | function f =>
    obtain ⟨label, frame, blocks⟩ := f
    cases blocks with
    | nil => simp [itemLines, itemTexts, blockLines, String.append_assoc]
    | cons entry rest =>
      have later : String.join (rest.map fun block => line (block.label ++ ":") ++ instLines (entry :: rest) block) =
          String.join ((rest.flatMap (blockTexts ((entry :: rest).map Block.label))).map line) :=
        join_lines fun block _ => by simp [blockTexts, instLines_eq]
      rw [itemLines, blockLines, later, instLines_eq]
      simp [itemTexts, String.append_assoc]

theorem print_eq (program : Program) : print program = String.join ((program.flatMap itemTexts).map line) :=
  join_lines fun item _ => itemLines_eq item

theorem linesOf_join {texts : List String} (each : ∀ text ∈ texts, Unbroken text) :
    linesOf (String.join (texts.map line)) = texts.map fun text => Line.ofText text.toList := by
  induction texts with
  | nil => rfl
  | cons text texts ih =>
    have unbroken := each text List.mem_cons_self
    have rest := ih fun other member => each other (List.mem_cons_of_mem _ member)
    have shape : (String.join ((text :: texts).map line)).toList =
        text.toList ++ '\n' :: (String.join (texts.map line)).toList := by
      simp [line]
    rw [linesOf, shape, Text.lines_append unbroken.feed unbroken.ends, List.map_cons, List.map_cons, ← linesOf, rest]

/-! ## Outlines of printed programs -/

def contents (texts : List String) : List Line := texts.map fun text => Line.ofText text.toList

variable {labels : List String}

/-- A draft from which an instruction is read, except for its register list. -/
def Drafted (labels : List String) (inst : Inst Nat) (draft : DraftInst) : Prop :=
  resolve labels draft = .ok inst.unlisted

structure DraftedBlock (labels : List String) (block : Block) (draft : DraftBlock) : Prop where
  label : draft.label = block.label
  insts : List.Forall₂ (Drafted labels) block.insts draft.insts

theorem drafted_of_written {inst : Inst Nat} {source : Inst String} (room : hasRoom inst = true)
    (written : Written source) (found : source.mapTargetM (findLabel labels) = .ok inst) (number : Nat) :
    Drafted labels inst (draftOf source number) := by
  rw [Drafted, resolve, readInst_draftOf number written.made, ok_bind, Inst.mapTargetM_unlisted found]
  exact if_pos (hasRoom_unlisted room)

variable (done : List DraftItem) {f : DraftFunction}

theorem addLines_cons {o o' : Outline} {content : Line} {number : Nat} (added : o.addLine number content = .ok o')
    (rest : List Line) : o.addLines number (content :: rest) = o'.addLines (number + 1) rest := by
  rw [Outline.addLines, added]

theorem addLines_insts {insts : List (Inst Nat)} (printable : ∀ inst ∈ insts, Printable labels inst) (number : Nat)
    (rest : List Line) : ∃ drafts next, List.Forall₂ (Drafted labels) insts drafts ∧
      Outline.addLines ⟨done, some f⟩ number (contents (instTexts labels insts) ++ rest) =
        Outline.addLines ⟨done, some { f with current := { f.current with insts := f.current.insts ++ drafts } }⟩
          next rest := by
  induction insts generalizing f number with
  | nil => exact ⟨[], number, .nil, by simp [contents, instTexts]⟩
  | cons inst insts ih =>
    obtain ⟨room, source, written, found⟩ := printable inst List.mem_cons_self
    have added : Outline.addLine ⟨done, some f⟩ number (Line.ofText source.text.toList) =
        .ok ⟨done, some (f.addInst (draftOf source number))⟩ := by
      rw [written.ofText]
      rfl
    obtain ⟨drafts, next, drafted, run⟩ := ih (f := f.addInst (draftOf source number))
      (fun other member => printable other (List.mem_cons_of_mem _ member)) (number + 1)
    refine ⟨draftOf source number :: drafts, next, .cons (drafted_of_written room written found number) drafted, ?_⟩
    have shape : contents (instTexts labels (inst :: insts)) ++ rest =
        Line.ofText source.text.toList :: (contents (instTexts labels insts) ++ rest) := by
      simp [contents, instTexts, Inst.mapTarget_of_findLabel found]
    rw [shape, addLines_cons added, run]
    simp [DraftFunction.addInst]

theorem addLine_label {label : String} (isWord : Word label) (other : label ≠ f.label) (fresh : label ∉ f.labels)
    (number : Nat) : Outline.addLine ⟨done, some f⟩ number (Line.ofText (label ++ ":").toList) =
      .ok ⟨done, some { f with current := { label }, earlier := f.current :: f.earlier }⟩ := by
  have added : f.addLabel label = .ok { f with current := { label }, earlier := f.current :: f.earlier } := by
    rw [DraftFunction.addLabel, if_neg fun entry => other entry.1, if_neg fresh]
  rw [ofText_label isWord]
  simp only [Outline.addLine, Outline.addLabel, Outline.function, added, ok_bind]
  rfl

theorem addLines_blocks {blocks : List Block} (words : ∀ block ∈ blocks, Word block.label)
    (printable : ∀ block ∈ blocks, ∀ inst ∈ block.insts, Printable labels inst) (named : f.label ∈ f.labels)
    (nodup : (f.labels ++ blocks.map Block.label).Nodup) (number : Nat) (rest : List Line) :
    ∃ drafts f' next, List.Forall₂ (DraftedBlock labels) blocks drafts ∧ f'.label = f.label ∧ f'.frame = f.frame ∧
      f'.blocks = f.blocks ++ drafts ∧
      Outline.addLines ⟨done, some f⟩ number (contents (blocks.flatMap (blockTexts labels)) ++ rest) =
        Outline.addLines ⟨done, some f'⟩ next rest := by
  induction blocks generalizing f number with
  | nil => exact ⟨[], f, number, .nil, rfl, rfl, by simp, by simp [contents]⟩
  | cons block blocks ih =>
    have fresh : block.label ∉ f.labels := fun member =>
      List.disjoint_of_nodup_append nodup member (by simp)
    have other : block.label ≠ f.label := fun same => fresh (same ▸ named)
    have labelled := addLine_label done (words block List.mem_cons_self) other fresh number
    obtain ⟨insts, next, drafted, run⟩ := addLines_insts done
      (f := { f with current := { label := block.label }, earlier := f.current :: f.earlier })
      (printable block List.mem_cons_self) (number + 1) (contents (blocks.flatMap (blockTexts labels)) ++ rest)
    -- the function with the block added
    let g : DraftFunction :=
      { f with current := { label := block.label, insts }, earlier := f.current :: f.earlier }
    have blocksEq : g.blocks = f.blocks ++ [{ label := block.label, insts }] := by simp [g, DraftFunction.blocks]
    have labelsEq : g.labels = f.labels ++ [block.label] := by
      rw [DraftFunction.labels, blocksEq, List.map_append]
      rfl
    obtain ⟨drafts, f', last, draftedRest, label, frame, whole, runRest⟩ := ih (f := g)
      (fun other member => words other (List.mem_cons_of_mem _ member))
      (fun other member => printable other (List.mem_cons_of_mem _ member))
      (by rw [labelsEq]; exact List.mem_append_left _ named) (by rw [labelsEq]; simpa using nodup) next
    refine ⟨{ label := block.label, insts } :: drafts, f', last, .cons ⟨rfl, drafted⟩ draftedRest, label, frame, ?_, ?_⟩
    · rw [whole, blocksEq, List.append_assoc]
      rfl
    · have shape : contents ((block :: blocks).flatMap (blockTexts labels)) ++ rest =
          Line.ofText (block.label ++ ":").toList :: (contents (instTexts labels block.insts) ++
            (contents (blocks.flatMap (blockTexts labels)) ++ rest)) := by
        simp [contents, blockTexts]
      rw [shape, addLines_cons labelled, run, ← runRest]
      rfl

theorem addLine_func {label : String} (clean : Clean label) (leads : Leads label) (number : Nat) :
    Outline.addLine ⟨done, none⟩ number (Line.ofText (".func " ++ label).toList) =
      .ok ⟨done, some (.opened label)⟩ := by
  have read := ofText_directive (by decide : Word "func") clean leads
  have named : label.isEmpty = false := by simpa using leads.1
  rw [show "." ++ "func" ++ " " ++ label = ".func " ++ label from rfl] at read
  rw [read]
  simp only [Outline.addLine, Outline.addStatement, Outline.addDirective, named]
  rfl

theorem addLine_external {label : String} (clean : Clean label) (leads : Leads label) (number : Nat) :
    Outline.addLine ⟨done, none⟩ number (Line.ofText (".extern " ++ label).toList) =
      .ok ⟨.external label :: done, none⟩ := by
  have read := ofText_directive (by decide : Word "extern") clean leads
  have named : label.isEmpty = false := by simpa using leads.1
  rw [show "." ++ "extern" ++ " " ++ label = ".extern " ++ label from rfl] at read
  rw [read]
  simp only [Outline.addLine, Outline.addStatement, Outline.addDirective, named]
  rfl

theorem addLine_frame {frame : UInt64} (framed : frame.toNat < 2 ^ 63) (number : Nat) :
    Outline.addLine ⟨done, some f⟩ number (Line.ofText (".frame " ++ toString frame.toNat).toList) =
      .ok ⟨done, some { f with frame }⟩ := by
  have numeral := Numeral.word_toString frame.toNat
  have read := ofText_directive (by decide : Word "frame") numeral.operand.toClean numeral.leads
  rw [show "." ++ "frame" ++ " " ++ toString frame.toNat = ".frame " ++ toString frame.toNat from rfl] at read
  rw [read]
  simp only [Outline.addLine, Outline.addStatement, Outline.addDirective, Outline.function, frameSize_toString framed]
  rfl

theorem addLine_endfunc (number : Nat) :
    Outline.addLine ⟨done, some f⟩ number (Line.ofText ".endfunc".toList) = .ok ⟨.function f :: done, none⟩ := by
  have read : Line.ofText ".endfunc".toList =
      { label? := none, statement := .directive ".endfunc" "endfunc" "" } := by decide
  rw [read]
  rfl

theorem readItem_function {function : Function} (label : f.label = function.label) (frame : f.frame = function.frame)
    (drafted : List.Forall₂ (DraftedBlock (function.blocks.map Block.label)) function.blocks f.blocks) :
    readItem (.function f) = .ok (.function function.unlisted) := by
  have labels : f.labels = function.blocks.map Block.label := by
    have same : List.Forall₂ (· = ·) (f.blocks.map DraftBlock.label) (function.blocks.map Block.label) := by
      rw [List.forall₂_map_left_iff, List.forall₂_map_right_iff]
      exact drafted.flip.imp fun _ _ block => block.label
    rwa [List.forall₂_eq_eq_eq] at same
  have blocks : f.blocks.mapM (fun block => do
      return { label := block.label, insts := ← block.insts.mapM (resolve f.labels) : Block }) =
      .ok (function.blocks.map Block.unlisted) := by
    rw [mapM_eq_ok, List.forall₂_map_right_iff]
    refine drafted.flip.imp fun draft block drafted => ?_
    have insts : draft.insts.mapM (resolve f.labels) = .ok (block.insts.map Inst.unlisted) := by
      rw [mapM_eq_ok, List.forall₂_map_right_iff, labels]
      exact drafted.insts.flip
    rw [insts, drafted.label]
    rfl
  rw [readItem, blocks, label, frame]
  rfl

/-- The lines of an item add a draft from which the item is read. -/
theorem addLines_item {item : Item} (printable : PrintableItem item) (number : Nat) (rest : List Line) :
    ∃ draft next, readItem draft = .ok item.unlisted ∧
      Outline.addLines ⟨done, none⟩ number (contents (itemTexts item) ++ rest) =
        Outline.addLines ⟨draft :: done, none⟩ next rest := by
  cases item with
  | external label =>
    refine ⟨.external label, number + 1, rfl, ?_⟩
    exact addLines_cons (addLine_external done printable.1 printable.2 number) rest
  | function function =>
    obtain ⟨clean, leads, framed, ⟨entry, later, shape, named, words⟩, nodup, insts⟩ := printable
    let start : DraftFunction := { DraftFunction.opened function.label with frame := function.frame }
    have unnamed (block : Block) (member : block ∈ later) : block ∈ function.blocks := by
      rw [shape]
      exact List.mem_cons_of_mem _ member
    obtain ⟨drafts, next, drafted, run⟩ := addLines_insts done (f := start)
      (insts entry (by rw [shape]; exact List.mem_cons_self)) (number + 1 + 1)
      (contents (later.flatMap (blockTexts (function.blocks.map Block.label))) ++ (contents [".endfunc"] ++ rest))
    -- the function with the code of its entry
    let filled : DraftFunction := { start with current := { label := function.label, insts := drafts } }
    have labels : filled.labels = [entry.label] := by rw [named]; rfl
    obtain ⟨others, f', last, draftedRest, label, frame, whole, runRest⟩ := addLines_blocks done (f := filled)
      words (fun block member => insts block (unnamed block member)) (by rw [labels, named]; exact List.mem_cons_self)
      (by rw [labels]; rw [shape] at nodup; exact nodup) next (contents [".endfunc"] ++ rest)
    refine ⟨.function f', last + 1, readItem_function label frame ?_, ?_⟩
    · have first : DraftedBlock (function.blocks.map Block.label) entry filled.current := ⟨named.symm, drafted⟩
      rw [whole]
      nth_rewrite 2 [shape]
      exact .cons first draftedRest
    · have lines : contents (itemTexts (.function function)) ++ rest =
          Line.ofText (".func " ++ function.label).toList ::
            Line.ofText (".frame " ++ toString function.frame.toNat).toList ::
            (contents (instTexts (function.blocks.map Block.label) entry.insts) ++
              (contents (later.flatMap (blockTexts (function.blocks.map Block.label))) ++
                (contents [".endfunc"] ++ rest))) := by
        simp [contents, itemTexts, shape]
      rw [lines, addLines_cons (addLine_func done clean leads number), addLines_cons (addLine_frame done framed _)]
      refine (run.trans runRest).trans ?_
      exact addLines_cons (addLine_endfunc done last) rest

theorem addLines_items {program : Program} (printable : ∀ item ∈ program, PrintableItem item) (number : Nat) :
    ∃ drafts, List.Forall₂ (fun item draft => readItem draft = .ok item.unlisted) program drafts ∧
      Outline.addLines ⟨done, none⟩ number (contents (program.flatMap itemTexts)) =
        .ok ⟨drafts.reverse ++ done, none⟩ := by
  induction program generalizing done number with
  | nil => exact ⟨[], .nil, rfl⟩
  | cons item program ih =>
    obtain ⟨draft, next, read, run⟩ := addLines_item done (printable item List.mem_cons_self) number
      (contents (program.flatMap itemTexts))
    obtain ⟨drafts, readRest, runRest⟩ := ih (draft :: done)
      (fun other member => printable other (List.mem_cons_of_mem _ member)) next
    refine ⟨draft :: drafts, .cons read readRest, ?_⟩
    have lines : contents ((item :: program).flatMap itemTexts) =
        contents (itemTexts item) ++ contents (program.flatMap itemTexts) := by
      simp [contents]
    rw [lines, run, runRest]
    simp

theorem unbroken_itemTexts {item : Item} (printable : PrintableItem item) : ∀ text ∈ itemTexts item, Unbroken text := by
  have directive {name label : String} (isWord : Unbroken name) (clean : Clean label) : Unbroken (name ++ label) :=
    isWord.append clean.unbroken
  cases item with
  | external label =>
    refine List.forall_mem_singleton.mpr (directive ⟨by decide, by decide⟩ printable.1)
  | function function =>
    obtain ⟨clean, leads, framed, ⟨entry, later, shape, named, words⟩, nodup, insts⟩ := printable
    have code (block : Block) (member : block ∈ function.blocks) :
        ∀ text ∈ instTexts (function.blocks.map Block.label) block.insts, Unbroken text := by
      intro text inTexts
      obtain ⟨inst, inBlock, rfl⟩ := List.mem_map.mp inTexts
      obtain ⟨-, source, written, found⟩ := insts block member inst inBlock
      rw [Inst.mapTarget_of_findLabel found]
      exact written.unbroken
    intro text member
    simp only [itemTexts, shape, List.head?_cons, Option.map_some, Option.getD_some, List.tail_cons, List.mem_cons,
      List.mem_append, List.mem_flatMap, List.not_mem_nil, or_false] at member
    rw [← shape] at member
    rcases member with rfl | rfl | (inEntry | ⟨block, inLater, inBlock⟩) | rfl
    · exact directive ⟨by decide, by decide⟩ clean
    · exact directive ⟨by decide, by decide⟩ (Numeral.word_toString _).operand.toClean
    · exact code entry (by rw [shape]; exact List.mem_cons_self) text inEntry
    · rcases List.mem_cons.mp inBlock with rfl | inCode
      · exact (words block inLater).operand.unbroken.append ⟨by decide, by decide⟩
      · exact code block (by rw [shape]; exact List.mem_cons_of_mem _ inLater) text inCode
    · exact ⟨by decide, by decide⟩

/-- A program that can be written is read back from its text, except for the register lists of calls and returns. -/
theorem readProgram_print {program : Program} (printable : ∀ item ∈ program, PrintableItem item) :
    readProgram (print program) = .ok program.unlisted := by
  have unbroken : ∀ text ∈ program.flatMap itemTexts, Unbroken text := by
    intro text member
    obtain ⟨item, inProgram, inItem⟩ := List.mem_flatMap.mp member
    exact unbroken_itemTexts (printable item inProgram) text inItem
  obtain ⟨drafts, read, run⟩ := addLines_items [] printable 1
  have drawn : outline (print program) = .ok drafts := by
    rw [outline, print_eq, linesOf_join unbroken]
    change Outline.items <$> Outline.addLines ⟨[], none⟩ 1 (contents (program.flatMap itemTexts)) = _
    rw [run]
    simp [Outline.items, Outline.close, Functor.map, Except.map]
  rw [readProgram, drawn]
  change drafts.mapM readItem = .ok (program.map Item.unlisted)
  rw [mapM_eq_ok, List.forall₂_map_right_iff]
  exact read.flip

end Source

end RegisterAllocator
