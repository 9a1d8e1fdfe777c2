import RegisterAllocator.Proofs.WrittenPrograms

/-!
# Names in source text

Whatever a source text says, the names that are read from it are clean: labels are words, operands have no commas, and
nothing has blanks at its ends (`Source.linesOf_neat`). Hence a program that has been read can be written again
(`Source.readItem_printable`), unless a name starts with a colon.
-/

namespace RegisterAllocator

/-! ## Registers -/

theorem Reg.named_of_ofName? {name : String} {reg : Reg} (found : ofName? name = some reg) : reg.Named := by
  rcases Source.orElse_eq_some found with virt | phys
  · obtain ⟨r, -, rfl⟩ := Option.map_eq_some_iff.mp virt
    trivial
  · obtain ⟨r, known, rfl⟩ := Option.map_eq_some_iff.mp phys
    exact PhysReg.ofName?_bound known

namespace Source

open Text

theorem register_named {file : RegFile} {text : String} {reg : Reg} (read : register file text = .ok reg) :
    reg.Named ∧ reg.file = file := by
  refine ⟨?_, register_file read⟩
  unfold register at read
  split at read
  · cases read
  · next found =>
    split at read
    · cases read
      exact Reg.named_of_ofName? found
    · cases read

/-! ## Lines -/

/-- A statement whose names keep their shape when they are written again. -/
def Statement.Neat : Statement → Prop
  | nothing => True
  | directive _ _ argument => Clean argument
  | instruction _ operands => ∀ operand ∈ operands, Operand operand

structure Line.Neat (line : Line) : Prop where
  label : ∀ label ∈ line.label?, Word label
  statement : line.statement.Neat

theorem clean_trim {text : List Char} (feed : '\n' ∉ text) (comment : '#' ∉ text) :
    Clean (String.ofList (trim text)) where
  trimmed := by
    rw [String.toList_ofList]
    exact trim_trimmed text
  feed := by
    rw [String.toList_ofList]
    exact fun member => feed (mem_of_mem_trim member)
  comment := by
    rw [String.toList_ofList]
    exact fun member => comment (mem_of_mem_trim member)

theorem firstWord_snd_subset (text : List Char) : (firstWord text).2 ⊆ text :=
  fun _ member => (List.dropWhile_sublist _).subset (mem_of_mem_trim member)

theorem splitOperands_operand {text : List Char} (feed : '\n' ∉ text) (comment : '#' ∉ text) :
    ∀ operand ∈ splitOperands text, Operand operand := by
  intro operand member
  unfold splitOperands at member
  split at member
  · cases member
  · obtain ⟨piece, inPieces, rfl⟩ := List.mem_map.mp member
    obtain ⟨comma, inside⟩ := mem_splitAt inPieces
    refine ⟨clean_trim (fun found => feed (inside found)) (fun found => comment (inside found)), ?_⟩
    rw [String.toList_ofList]
    exact fun found => comma (mem_of_mem_trim found)

theorem Statement.ofText_neat {text : List Char} (feed : '\n' ∉ text) (comment : '#' ∉ text) :
    (Statement.ofText text).Neat := by
  unfold Statement.ofText
  split
  · trivial
  · next rest =>
    have inside : rest.dropWhile (!isBlank ·) ⊆ '.' :: rest := fun c member =>
      List.mem_cons_of_mem _ ((List.dropWhile_sublist _).subset member)
    exact clean_trim (fun found => feed (inside found)) fun found => comment (inside found)
  · exact splitOperands_operand (fun found => feed (firstWord_snd_subset _ found))
      fun found => comment (firstWord_snd_subset _ found)

/-- The label of a line is a word, and what stands behind it is part of the line. -/
theorem splitLabel_neat (text : List Char) :
    (∀ label ∈ (splitLabel text).1, Word label) ∧ (splitLabel text).2 ⊆ text := by
  unfold splitLabel
  split
  · exact ⟨nofun, List.Subset.refl _⟩
  · next left right cut =>
    dsimp only
    split
    · next isLabel =>
      simp only [Bool.and_eq_true, Bool.not_eq_true', List.isEmpty_eq_false_iff, List.all_eq_true] at isLabel
      refine ⟨?_, fun c member => cut?_subset cut (mem_of_mem_trim member)⟩
      rintro label ⟨⟩
      refine ⟨fun empty => isLabel.1 (String.ofList_eq_empty_iff.mp empty), ?_⟩
      rw [String.toList_ofList]
      exact isLabel.2
    · exact ⟨nofun, List.Subset.refl _⟩

theorem Line.ofText_neat {text : List Char} (feed : '\n' ∉ text) : (Line.ofText text).Neat := by
  have feedless : '\n' ∉ trim (before '#' text) := fun found => feed (before_subset _ _ (mem_of_mem_trim found))
  have comment : '#' ∉ trim (before '#' text) := fun found => not_mem_before _ _ (mem_of_mem_trim found)
  obtain ⟨label, inside⟩ := splitLabel_neat (trim (before '#' text))
  exact ⟨label, Statement.ofText_neat (fun found => feedless (inside found)) fun found => comment (inside found)⟩

theorem linesOf_neat (source : String) : ∀ line ∈ linesOf source, line.Neat := by
  intro line member
  obtain ⟨text, inLines, rfl⟩ := List.mem_map.mp member
  exact Line.ofText_neat (not_mem_lines inLines)

/-! ## Outlines -/

/-- A function whose names keep their shape when they are written again. -/
structure DraftFunction.Neat (f : DraftFunction) : Prop where
  clean : Clean f.label
  filled : f.label ≠ ""
  entry : f.labels.head? = some f.label
  words : ∀ label ∈ f.labels.tail, Word label
  nodup : f.labels.Nodup
  operands : ∀ block ∈ f.blocks, ∀ inst ∈ block.insts, ∀ operand ∈ inst.operands, Operand operand

def DraftItem.Neat : DraftItem → Prop
  | external label => Clean label ∧ label ≠ ""
  | function f => f.Neat

/-- An outline of neat items. -/
structure Outline.Neat (o : Outline) : Prop where
  opened : ∀ f ∈ o.opened?, f.Neat
  done : ∀ item ∈ o.done, item.Neat

variable {o o' : Outline} {f f' : DraftFunction}

theorem DraftFunction.opened_neat {label : String} (clean : Clean label) (filled : label ≠ "") :
    (DraftFunction.opened label).Neat where
  clean := clean
  filled := filled
  entry := rfl
  words := nofun
  nodup := List.nodup_singleton _
  operands := by simp [DraftFunction.blocks, DraftFunction.opened]

theorem DraftFunction.blocks_startBlock (f : DraftFunction) (label : String) :
    blocks { f with current := { label }, earlier := f.current :: f.earlier } =
      f.blocks ++ [{ label := label }] := by
  simp [blocks]

theorem DraftFunction.labels_startBlock (f : DraftFunction) (label : String) :
    labels { f with current := { label }, earlier := f.current :: f.earlier } = f.labels ++ [label] := by
  simp [labels, blocks_startBlock]

theorem DraftFunction.labels_addInst (f : DraftFunction) (inst : DraftInst) : (f.addInst inst).labels = f.labels := by
  simp [labels, blocks, addInst]

theorem DraftFunction.Neat.addLabel {label : String} (neat : f.Neat) (isWord : Word label)
    (added : f.addLabel label = .ok f') : f'.Neat := by
  rcases addLabel_eq_ok added with ⟨-, rfl⟩ | ⟨fresh, rfl⟩
  · exact ⟨neat.clean, neat.filled, neat.entry, neat.words, neat.nodup, neat.operands⟩
  · have filled : f.labels ≠ [] := by simp [DraftFunction.labels, DraftFunction.blocks]
    refine ⟨neat.clean, neat.filled, ?_, ?_, ?_, ?_⟩
    · rw [labels_startBlock, List.head?_append_of_ne_nil _ filled]
      exact neat.entry
    · rw [labels_startBlock, List.tail_append_of_ne_nil filled]
      intro other member
      rcases List.mem_append.mp member with old | new
      · exact neat.words other old
      · rwa [List.mem_singleton.mp new]
    · rw [labels_startBlock]
      exact neat.nodup.append (List.nodup_singleton _) (by simpa using fresh)
    · intro block member
      rw [blocks_startBlock] at member
      rcases List.mem_append.mp member with old | new
      · exact neat.operands block old
      · rw [List.mem_singleton.mp new]
        intro inst inBlock
        exact absurd inBlock List.not_mem_nil

theorem DraftFunction.Neat.addInst {draft : DraftInst} (neat : f.Neat)
    (operands : ∀ operand ∈ draft.operands, Operand operand) : (f.addInst draft).Neat := by
  have labels := f.labels_addInst draft
  refine ⟨neat.clean, neat.filled, labels ▸ neat.entry, labels ▸ neat.words, labels ▸ neat.nodup, ?_⟩
  intro block member inst inBlock
  simp only [DraftFunction.blocks, DraftFunction.addInst, List.mem_reverse, List.mem_cons] at member
  rcases member with rfl | earlier
  · rcases List.mem_append.mp inBlock with old | new
    · exact neat.operands f.current (by simp [DraftFunction.blocks]) inst old
    · rwa [List.mem_singleton.mp new]
  · exact neat.operands block (by simp [DraftFunction.blocks, earlier]) inst inBlock

namespace Outline

theorem Neat.close (neat : o.Neat) : o.close.Neat := by
  unfold Outline.close
  split
  · next f found =>
    refine ⟨nofun, fun item member => ?_⟩
    rcases List.mem_cons.mp member with rfl | old
    · exact neat.opened f found
    · exact neat.done item old
  · exact neat

theorem Neat.reopen (neat : o.Neat) (function : f.Neat) : Neat { o with opened? := some f } :=
  ⟨by rintro _ ⟨⟩; exact function, neat.done⟩

theorem Neat.addDirective (neat : o.Neat) {text name argument : String} (clean : Clean argument)
    (added : o.addDirective text name argument = .ok o') : o'.Neat := by
  rcases addDirective_eq_ok added with
    ⟨-, filled, rfl⟩ | ⟨-, rfl⟩ | ⟨-, f, size, opened, -, rfl⟩ | ⟨-, filled, rfl⟩ | ⟨-, -, rfl⟩
  · exact neat.close.reopen (DraftFunction.opened_neat clean filled)
  · exact neat.close
  · have before := neat.opened f opened
    exact neat.reopen ⟨before.clean, before.filled, before.entry, before.words, before.nodup, before.operands⟩
  · refine ⟨neat.opened, fun item member => ?_⟩
    rcases List.mem_cons.mp member with rfl | old
    · exact ⟨clean, filled⟩
    · exact neat.done item old
  · exact neat

theorem Neat.addStatement (neat : o.Neat) {number : Nat} {statement : Statement} (names : statement.Neat)
    (added : o.addStatement number statement = .ok o') : o'.Neat := by
  cases statement with
  | nothing =>
    cases added
    exact neat
  | directive text name argument => exact neat.addDirective names added
  | instruction mnemonic operands =>
    obtain ⟨f, opened, rfl⟩ := addInst_eq_ok added
    exact neat.reopen ((neat.opened f opened).addInst names)

theorem Neat.addLine (neat : o.Neat) {number : Nat} {content : Line} (names : content.Neat)
    (added : o.addLine number content = .ok o') : o'.Neat := by
  unfold Outline.addLine at added
  split at added
  · next label found =>
    obtain ⟨_, taken, added⟩ := bind_eq_ok.mp added
    obtain ⟨f, f', opened, labelled, rfl⟩ := addLabel_eq_ok taken
    have function := (neat.opened f opened).addLabel (names.label label found) labelled
    exact (neat.reopen function).addStatement names.statement added
  · exact neat.addStatement names.statement added

theorem Neat.addLines (neat : o.Neat) {number : Nat} {lines : List Line} (names : ∀ line ∈ lines, line.Neat)
    (added : o.addLines number lines = .ok o') : o'.Neat := by
  induction lines generalizing o number with
  | nil =>
    cases added
    exact neat
  | cons content rest ih =>
    unfold Outline.addLines at added
    split at added
    · next first =>
      exact ih (neat.addLine (names content List.mem_cons_self) first)
        (fun line member => names line (List.mem_cons_of_mem _ member)) added
    · cases added

end Outline

/-! ## Programs -/

/-- An instruction can be written again if its symbol, in a call, can follow a word. -/
theorem printable_of_resolve {labels : List String} {draft : DraftInst} {inst : Inst Nat}
    (operands : ∀ operand ∈ draft.operands, Operand operand) (leads : ∀ label ∈ labels, Leads label)
    (found : resolve labels draft = .ok inst)
    (called : ∀ symbol arguments, inst = .call symbol arguments → Leads symbol) : Printable labels inst := by
  unfold resolve at found
  split at found
  · cases found
  next inst' read =>
  rw [bind_eq_ok] at read
  obtain ⟨source, read, located⟩ := read
  split at found
  swap
  · cases found
  next room =>
  cases found
  have made := readInst_made (Q := Operand) register_named ⟨(by decide : PhysReg.zero.number.toNat < 32), rfl⟩
    operands read
  refine ⟨room, source, ⟨made, ?_⟩, located⟩
  have reg {file : RegFile} {reg : Reg} (known : reg.Named ∧ reg.file = file) : Leads reg.name :=
    Reg.leads_name known.1
  rintro first head
  cases source with
  | jump target =>
    cases head
    simp only [Inst.mapTargetM, bind_eq_ok] at located
    obtain ⟨position, located, -⟩ := located
    exact leads _ (List.mem_of_getElem? (findLabel_eq_ok located))
  | call symbol arguments =>
    cases head
    cases located
    exact called _ _ rfl
  | ret results => cases head
  | li rd value =>
    cases head
    exact reg made
  | _ =>
    cases head
    exact reg made.1

theorem outline_neat {source : String} {drafts : List DraftItem} (drawn : outline source = .ok drafts) :
    ∀ draft ∈ drafts, draft.Neat ∧ ∀ f, draft = .function f → f.frame.toNat < 2 ^ 63 := by
  intro draft member
  rw [outline, map_eq_ok] at drawn
  obtain ⟨o, added, rfl⟩ := drawn
  have member := List.mem_reverse.mp member
  have neat : o.Neat := Outline.Neat.addLines ⟨by simp, by simp⟩ (linesOf_neat source) added
  have framed : o.Framed := Outline.Framed.addLines ⟨by simp, by simp⟩ added
  exact ⟨neat.close.done draft member, fun f same => framed.close.done f (same ▸ member)⟩

theorem readProgram_eq_ok {source : String} {program : Program} (read : readProgram source = .ok program) :
    ∃ drafts, outline source = .ok drafts ∧
      (∀ draft ∈ drafts, draft.Neat ∧ ∀ f, draft = .function f → f.frame.toNat < 2 ^ 63) ∧
      List.Forall₂ (fun draft item => readItem draft = .ok item) drafts program := by
  unfold readProgram at read
  split at read
  · cases read
  · next drafts drawn => exact ⟨drafts, drawn, outline_neat drawn, mapM_eq_ok.mp read⟩

theorem readItem_eq_ok {f : DraftFunction} {item : Item} (read : readItem (.function f) = .ok item) :
    ∃ blocks, item = .function { label := f.label, frame := f.frame, blocks } ∧ blocks.map Block.label = f.labels ∧
      List.Forall₂ (fun draft block =>
        List.Forall₂ (fun draft inst => resolve f.labels draft = .ok inst) draft.insts (Block.insts block))
        f.blocks blocks := by
  simp only [readItem, bind_eq_ok, pure_eq_ok, mapM_eq_ok] at read
  obtain ⟨blocks, read, rfl⟩ := read
  refine ⟨blocks, rfl, ?_, read.imp fun draft block found => ?_⟩
  · have same : List.Forall₂ (· = ·) f.labels (blocks.map Block.label) := by
      rw [DraftFunction.labels, List.forall₂_map_left_iff, List.forall₂_map_right_iff]
      refine read.imp fun draft block found => ?_
      obtain ⟨insts, -, rfl⟩ := found
      rfl
    rw [List.forall₂_eq_eq_eq] at same
    exact same.symm
  · obtain ⟨insts, resolved, rfl⟩ := found
    exact resolved

end Source

def Item.label : Item → String
  | external label => label
  | function f => f.label

namespace Source

/-- What is read from a neat draft can be written again, if no name in it starts with a colon. -/
theorem readItem_printable {draft : DraftItem} {item : Item} (neat : draft.Neat)
    (framed : ∀ f, draft = .function f → f.frame.toNat < 2 ^ 63) (read : readItem draft = .ok item)
    (named : item.label.toList.head? ≠ some ':')
    (called : ∀ function, item = .function function → ∀ block ∈ function.blocks, ∀ symbol arguments,
      .call symbol arguments ∈ block.insts → Leads symbol) : PrintableItem item := by
  cases draft with
  | external label =>
    cases read
    exact ⟨neat.1, neat.2, named⟩
  | function f =>
    obtain ⟨blocks, rfl, labels, read⟩ := readItem_eq_ok read
    have leads : Leads f.label := ⟨neat.filled, named⟩
    have all : ∀ label ∈ f.labels, Leads label := by
      intro label member
      cases shape : f.labels with
      | nil =>
        rw [shape] at member
        cases member
      | cons first rest =>
        have entry := neat.entry
        have words := neat.words
        rw [shape] at member entry words
        rcases List.mem_cons.mp member with rfl | later
        · cases entry
          exact leads
        · exact (words label later).leads
    refine ⟨neat.clean, leads, framed f rfl, ?_, by rw [labels]; exact neat.nodup, ?_⟩
    · have entry := neat.entry
      have words := neat.words
      rw [← labels] at entry words
      cases blocks with
      | nil => cases entry
      | cons first rest =>
        exact ⟨first, rest, rfl, Option.some.inj entry, fun block member => words _ (List.mem_map_of_mem member)⟩
    · intro block inBlocks inst inBlock
      obtain ⟨draft, inDrafts, resolved⟩ := forall₂_mem_right read inBlocks
      obtain ⟨drafted, inDraft, found⟩ := forall₂_mem_right resolved inBlock
      change Printable (blocks.map Block.label) inst
      rw [labels]
      refine printable_of_resolve (neat.operands draft inDrafts drafted inDraft) all found ?_
      rintro symbol arguments rfl
      exact called _ rfl _ inBlocks symbol arguments inBlock

end Source

end RegisterAllocator
