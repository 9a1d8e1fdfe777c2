import RegisterAllocator.Proofs.FunctionLines
import RegisterAllocator.Proofs.InstructionLines

/-!
# Errors and the lines they are about

An error in a source text is on a line of the text and quotes a part of that line (`Source.error_cites_line`). A label
that is duplicated has been introduced before in the function, and one that is unknown is nowhere introduced in it.
-/

namespace RegisterAllocator

namespace Source

open Text

/-! ## Parts of lines -/

/-- The texts that a complaint about a statement may quote. -/
def Statement.parts : Statement → List String
  | nothing => []
  | directive text _ argument => [text, argument]
  | instruction mnemonic operands => mnemonic :: operands

def Line.parts (line : Line) : List String := line.label?.toList ++ line.statement.parts

theorem firstWord_isInfix (text : List Char) : (firstWord text).1 <:+: text ∧ (firstWord text).2 <:+: text :=
  ⟨(List.takeWhile_prefix _).isInfix, (trim_isInfix _).trans (List.dropWhile_suffix _).isInfix⟩

theorem splitOperands_isInfix {text : List Char} {operand : String} (member : operand ∈ splitOperands text) :
    operand.toList <:+: text := by
  unfold splitOperands at member
  split at member
  · cases member
  · obtain ⟨piece, inside, rfl⟩ := List.mem_map.mp member
    rw [String.toList_ofList]
    exact (trim_isInfix piece).trans (splitAt_isInfix inside)

theorem Statement.ofText_parts {text : List Char} {part : String} (member : part ∈ (Statement.ofText text).parts) :
    part.toList <:+: text := by
  unfold Statement.ofText at member
  split at member
  · cases member
  · next rest =>
    have argument := (firstWord_isInfix rest).2.trans (List.suffix_cons '.' rest).isInfix
    simp only [parts, List.mem_cons, List.not_mem_nil, or_false] at member
    rcases member with rfl | rfl
    · exact ⟨[], [], by simp⟩
    · rw [String.toList_ofList]
      exact argument
  · obtain ⟨mnemonic, operands⟩ := firstWord_isInfix text
    rcases List.mem_cons.mp member with rfl | operand
    · rw [String.toList_ofList]
      exact mnemonic
    · exact (splitOperands_isInfix operand).trans operands

theorem splitLabel_isInfix (text : List Char) :
    (∀ label ∈ (splitLabel text).1, label.toList <:+: text) ∧ (splitLabel text).2 <:+: text := by
  unfold splitLabel
  split
  · exact ⟨nofun, List.infix_rfl⟩
  · next left right cut =>
    have whole := cut?_eq_some cut
    dsimp only
    split
    · refine ⟨?_, (trim_isInfix right).trans ?_⟩
      · rintro label ⟨⟩
        rw [String.toList_ofList]
        exact (trim_isInfix left).trans (whole ▸ (List.prefix_append left _).isInfix)
      · exact whole ▸ ((List.suffix_cons ':' right).trans (List.suffix_append left _)).isInfix
    · exact ⟨nofun, List.infix_rfl⟩

theorem Line.ofText_parts {text : List Char} {part : String} (member : part ∈ (Line.ofText text).parts) :
    part.toList <:+: before '#' text := by
  obtain ⟨label, rest⟩ := splitLabel_isInfix (trim (before '#' text))
  refine List.IsInfix.trans ?_ (trim_isInfix _)
  rcases List.mem_append.mp member with front | statement
  · exact label part (Option.mem_toList.mp front)
  · exact (Statement.ofText_parts statement).trans rest

/-! ## Lines that are refused -/

namespace Outline

variable {o : Outline} {content : Line}

theorem function_yields (text : String) :
    Yields (fun f => f ∈ o.current) (fun complaint => complaint = .outsideFunction text) (o.function text) := by
  unfold function
  split
  · next f opened => exact Option.mem_toList.mpr opened
  · rfl

theorem frameSize_yields (text : String) :
    Yields (fun _ => True) (fun complaint => complaint = .badImmediate text) (frameSize text) := by
  unfold frameSize
  split
  · split
    · trivial
    · rfl
  · rfl

/-- Why a line is refused: the complaint quotes a part of it, and one about a label is about the label of the line,
which the open function has already. -/
structure Refuses (o : Outline) (content : Line) (complaint : Complaint) : Prop where
  written : complaint.subject ∈ content.parts
  label : complaint.onLabel = true → ∃ label, ∃ f ∈ o.current,
    complaint = .duplicatedLabel label ∧ content.label? = some label ∧ label ∈ f.labels

theorem label_yields {label : String} (front : content.label? = some label) :
    Yields (fun _ => True) (o.Refuses content) (o.addLabel label) := by
  have written : label ∈ content.parts := List.mem_append_left _ (Option.mem_toList.mpr front)
  have opened : Yields (fun f => f ∈ o.current) (o.Refuses content) (o.function label) :=
    (o.function_yields label).imp_error fun _ outside => outside ▸ ⟨written, nofun⟩
  refine opened.bind fun f opened => ?_
  have added : Yields (fun _ => True) (o.Refuses content) (f.addLabel label) := by
    unfold DraftFunction.addLabel
    split
    · trivial
    · split
      · next again => exact ⟨written, fun _ => ⟨label, f, opened, rfl, front, again⟩⟩
      · trivial
  exact added.bind fun _ _ => trivial

/-- A statement is refused for a part of it and never for a label. -/
theorem statement_yields (number : Nat) (statement : Statement) :
    Yields (fun _ => True) (fun complaint => complaint.onLabel = false ∧ complaint.subject ∈ statement.parts)
      (o.addStatement number statement) := by
  cases statement with
  | nothing => trivial
  | instruction mnemonic operands =>
    exact ((o.function_yields mnemonic).imp_error fun _ outside => outside ▸ ⟨rfl, List.mem_cons_self⟩).bind
      fun _ _ => trivial
  | directive text name argument =>
    have opened : Yields (fun f => f ∈ o.current) (fun complaint : Complaint =>
        complaint.onLabel = false ∧ complaint.subject ∈ [text, argument]) (o.function text) :=
      (o.function_yields text).imp_error fun _ outside => outside ▸ ⟨rfl, List.mem_cons_self⟩
    change Yields _ _ (o.addDirective text name argument)
    unfold addDirective
    split
    · split
      · exact ⟨rfl, List.mem_cons_self⟩
      · trivial
    · exact opened.bind fun _ _ => trivial
    · refine opened.bind fun f _ => ?_
      exact ((frameSize_yields argument).imp_error fun _ bad =>
        bad ▸ ⟨rfl, List.mem_cons_of_mem _ List.mem_cons_self⟩).bind fun _ _ => trivial
    · split
      · exact ⟨rfl, List.mem_cons_self⟩
      · trivial
    · trivial

theorem addLine_yields (o : Outline) (content : Line) (number : Nat) :
    Yields (fun _ => True) (o.Refuses content) (o.addLine number content) := by
  have statement (o' : Outline) :
      Yields (fun _ => True) (o.Refuses content) (o'.addStatement number content.statement) :=
    (o'.statement_yields number content.statement).imp_error fun _ ⟨other, quoted⟩ =>
      ⟨List.mem_append_right _ quoted, by simp [other]⟩
  unfold addLine
  split
  · next label front => exact (label_yields front).bind fun labelled _ => statement labelled
  · exact statement o

end Outline

/-! ## Instructions that cannot be read -/

theorem mapTargetM_eq_error {labels : List String} {inst : Inst String} {complaint : Complaint}
    (failed : inst.mapTargetM (findLabel labels) = .error complaint) :
    ∃ label ∈ inst.targets, complaint = .unknownLabel label ∧ label ∉ labels := by
  have unknown {label : String} (failed : findLabel labels label = .error complaint) :
      complaint = .unknownLabel label ∧ label ∉ labels := by
    unfold findLabel at failed
    split at failed
    · cases failed
    · next missing =>
      cases failed
      exact ⟨rfl, List.idxOf?_eq_none_iff.mp missing⟩
  cases inst with
  | jump target | branch op rs1 rs2 target =>
    refine ⟨target, List.mem_cons_self, unknown ?_⟩
    rcases bind_eq_error.mp failed with missing | ⟨position, -, failed⟩
    · exact missing
    · cases failed
  | _ => cases failed

/-- An instruction that cannot be read has a part that is wrong, or a target that no block bears. -/
theorem resolve_eq_error {labels : List String} {draft : DraftInst} {error : Error}
    (failed : resolve labels draft = .error (.malformed error)) :
    error.line = draft.line ∧ (draft.Blamed error.complaint ∨
      ∃ label ∈ draft.operands, error.complaint = .unknownLabel label ∧ label ∉ labels) := by
  unfold resolve at failed
  split at failed
  · next complaint read =>
    cases failed
    refine ⟨rfl, ?_⟩
    have yields := readInst_yields draft
    rcases bind_eq_error.mp read with failed | ⟨inst, found, failed⟩
    · rw [failed] at yields
      exact .inl yields
    · rw [found] at yields
      obtain ⟨target, member, unknown, fresh⟩ := mapTargetM_eq_error failed
      obtain ⟨label, written, rfl⟩ := yields.names.target member
      exact .inr ⟨target, written, unknown, fresh⟩
  · split at failed <;> cases failed

theorem readItem_eq_error {item : DraftItem} {failure : Failure} (failed : readItem item = .error failure) :
    ∃ f, item = .function f ∧ ∃ draft ∈ f.insts, resolve f.labels draft = .error failure := by
  cases item with
  | external label => cases failed
  | function f =>
    rcases bind_eq_error.mp failed with failed | ⟨blocks, -, failed⟩
    · obtain ⟨block, inFunction, failed⟩ := mapM_eq_error failed
      rcases bind_eq_error.mp failed with failed | ⟨insts, -, failed⟩
      · obtain ⟨draft, inBlock, failed⟩ := mapM_eq_error failed
        exact ⟨f, rfl, draft, List.mem_flatMap.mpr ⟨block, inFunction, inBlock⟩, failed⟩
      · cases failed
    · cases failed

theorem readProgram_eq_error {source : String} {error : Error}
    (failed : readProgram source = .error (.malformed error)) : outline source = .error error ∨
      ∃ drafts f, outline source = .ok drafts ∧ .function f ∈ drafts ∧
        ∃ draft ∈ f.insts, resolve f.labels draft = .error (.malformed error) := by
  unfold readProgram at failed
  split at failed
  · next refused =>
    cases failed
    exact .inl refused
  · next drafts drawn =>
    obtain ⟨item, member, failed⟩ := mapM_eq_error failed
    obtain ⟨f, rfl, draft, inside, failed⟩ := readItem_eq_error failed
    exact .inr ⟨drafts, f, drawn, member, draft, inside, failed⟩

/-! ## Errors -/

/-- The error is about the line at `place`: it quotes a part of the line before the comment. A duplicated label is on
that line and is the name of the function or on a line of it before; an unknown label is on no line of the function. -/
structure Error.Cites (source : String) (place : Nat) (error : Error) : Prop where
  line : error.line = place + 1
  within : error.line ≤ (lines source.toList).length
  quotes : ∃ text, (lines source.toList)[place]? = some text ∧ error.complaint.subject.toList <:+: before '#' text
  message : (quoted error.complaint.subject).toList <:+: error.message.toList
  duplicated : ∀ label, error.complaint = .duplicatedLabel label →
    labelAt? (linesOf source) place = some label ∧
    ∃ start name, opensAt? (linesOf source) start = some name ∧ Within (linesOf source) start place ∧
      (label = name ∨ ∃ earlier < place, Within (linesOf source) start earlier ∧
        labelAt? (linesOf source) earlier = some label)
  unknown : ∀ label, error.complaint = .unknownLabel label →
    ∃ start name, opensAt? (linesOf source) start = some name ∧ Within (linesOf source) start place ∧
      label ≠ name ∧ ∀ other, Within (linesOf source) start other → labelAt? (linesOf source) other ≠ some label

theorem Error.quoted_subject (error : Error) : (quoted error.complaint.subject).toList <:+: error.message.toList := by
  refine error.complaint.quoted_subject.trans ?_
  rw [message, String.toList_append]
  exact (List.suffix_append _ _).isInfix

variable {source : String} {error : Error} {place : Nat}

theorem part_of_line {content : Line} {part : String} (located : (linesOf source)[place]? = some content)
    (member : part ∈ content.parts) :
    ∃ text, (lines source.toList)[place]? = some text ∧ part.toList <:+: before '#' text := by
  rw [linesOf, List.getElem?_map, Option.map_eq_some_iff] at located
  obtain ⟨text, here, rfl⟩ := located
  exact ⟨text, here, Line.ofText_parts member⟩

theorem lt_of_located {content : Line} (located : (linesOf source)[place]? = some content) :
    place < (lines source.toList).length := by
  have bound := (List.getElem?_eq_some_iff.mp located).1
  rwa [linesOf, List.length_map] at bound

theorem refused_line_cites (refused : outline source = .error error) : ∃ place, error.Cites source place := by
  have failed : Outline.addLines {} 1 (linesOf source) = .error error := by
    unfold outline at refused
    cases drawn : Outline.addLines {} 1 (linesOf source) with
    | ok o => simp [drawn] at refused
    | error other => simpa [drawn] using refused
  obtain ⟨taken, content, more, o, whole, added, line, failed⟩ := Outline.addLines_eq_error failed
  have follows := Outline.follows_nil.addLines added
  rw [List.nil_append] at follows
  have refuses := o.addLine_yields content error.line
  rw [failed] at refuses
  have located : (linesOf source)[taken.length]? = some content := by simp [whole]
  have bound := lt_of_located located
  refine ⟨taken.length, by omega, by omega, part_of_line located refuses.written, error.quoted_subject,
    fun label duplicated => ?_, fun label unknown => ?_⟩
  · obtain ⟨label', f, opened, same, front, again⟩ := refuses.label (by rw [duplicated]; rfl)
    cases duplicated.symm.trans same
    obtain ⟨start, spans, inside⟩ := follows.opened opened
    rw [whole]
    refine ⟨by simpa [labelAt?] using front, start, f.label, ?_, (within_append le_rfl _).mpr inside, ?_⟩
    · rw [opensAt?_append spans.start_lt, spans.opening]
    · refine ((spans.labels label).mp again).imp_right ?_
      rintro ⟨earlier, member, found⟩
      obtain ⟨bound, within⟩ := mem_scope.mp member
      exact ⟨earlier, bound, (within_append bound.le _).mpr within, (labelAt?_append bound _).trans found⟩
  · obtain ⟨_, _, _, same, _⟩ := refuses.label (by rw [unknown]; rfl)
    cases unknown.symm.trans same

theorem Line.statement_of_inst? {line : Line} {number : Nat} {draft : DraftInst}
    (found : line.inst? number = some draft) :
    draft.line = number ∧ line.statement = .instruction draft.mnemonic draft.operands := by
  unfold Line.inst? at found
  split at found
  · next shape =>
    cases found
    exact ⟨rfl, shape⟩
  · cases found

theorem unread_inst_cites {drafts : List DraftItem} {f : DraftFunction} {draft : DraftInst}
    (drawn : outline source = .ok drafts) (member : .function f ∈ drafts) (inside : draft ∈ f.insts)
    (failed : resolve f.labels draft = .error (.malformed error)) : ∃ place, error.Cites source place := by
  obtain ⟨start, -, spans⟩ := forall₂_mem_right (outline_spans drawn)
    (List.mem_filterMap.mpr ⟨_, member, rfl⟩ : f ∈ drafts.filterMap DraftItem.function?)
  rw [spans.insts, instLinesOf, List.mem_filterMap] at inside
  obtain ⟨place, inScope, found⟩ := inside
  obtain ⟨content, located, found⟩ := Option.bind_eq_some_iff.mp found
  obtain ⟨line, statement⟩ := Line.statement_of_inst? found
  obtain ⟨same, reason⟩ := resolve_eq_error failed
  have parts {text : String} (written : text ∈ draft.mnemonic :: draft.operands) : text ∈ content.parts :=
    List.mem_append_right _ (by rwa [statement])
  have bound := lt_of_located located
  refine ⟨place, same.trans line, by omega, ?_, error.quoted_subject,
    fun label duplicated => ?_, fun label unknown => ?_⟩
  · rcases reason with ⟨text, written, -, part⟩ | ⟨label, written, unknown, -⟩
    · obtain ⟨whole, here, inside⟩ := part_of_line located (parts written)
      exact ⟨whole, here, part.trans inside⟩
    · rw [unknown]
      exact part_of_line located (parts (List.mem_cons_of_mem _ written))
  · rcases reason with ⟨_, -, other, -⟩ | ⟨_, -, unknown, -⟩
    · simp [duplicated, Complaint.onLabel] at other
    · cases duplicated.symm.trans unknown
  · rcases reason with ⟨_, -, other, -⟩ | ⟨_, -, same, fresh⟩
    · simp [unknown, Complaint.onLabel] at other
    · cases unknown.symm.trans same
      rw [spans.labels, not_or, not_exists] at fresh
      refine ⟨start, f.label, spans.opening, (mem_scope.mp inScope).2, fresh.1, fun other within introduced => ?_⟩
      have bound : other < (linesOf source).length := by
        obtain ⟨_, here, -⟩ := Option.bind_eq_some_iff.mp introduced
        exact (List.getElem?_eq_some_iff.mp here).1
      exact fresh.2 other ⟨mem_scope.mpr ⟨bound, within⟩, introduced⟩

/-- Every error in a source text is about a line of the text. -/
theorem error_cites_line {source : String} {error : Error} (failed : Source.read source = .error (.malformed error)) :
    ∃ place, error.Cites source place := by
  rcases bind_eq_error.mp failed with failed | ⟨program, -, failed⟩
  · rcases readProgram_eq_error failed with refused | ⟨drafts, f, drawn, member, draft, inside, failed⟩
    · exact refused_line_cites refused
    · exact unread_inst_cites drawn member inside failed
  · split at failed <;> cases failed

/-- A label on two lines of a function. -/
def repeatedLabel : String := ".func f\nf:\n\tj g # g:\ng: nop\ng: ret\n"

/-- A branch to a label that only a comment and another function have. -/
def missingLabel : String := ".func f\n\tj g # g:\n.func h\ng: ret\n"

theorem repeated_and_missing_label_cited :
    Source.read repeatedLabel = .error (.malformed ⟨5, .duplicatedLabel "g"⟩) ∧
      (∃ place, Error.Cites repeatedLabel place ⟨5, .duplicatedLabel "g"⟩) ∧
      Source.read missingLabel = .error (.malformed ⟨2, .unknownLabel "g"⟩) ∧
      ∃ place, Error.Cites missingLabel place ⟨2, .unknownLabel "g"⟩ := by
  have repeated : Source.read repeatedLabel = .error (.malformed ⟨5, .duplicatedLabel "g"⟩) := by rfl
  have missing : Source.read missingLabel = .error (.malformed ⟨2, .unknownLabel "g"⟩) := by rfl
  exact ⟨repeated, error_cites_line repeated, missing, error_cites_line missing⟩

end Source

end RegisterAllocator
