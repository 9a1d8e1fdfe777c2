import RegisterAllocator.Proofs.SourceNames

/-!
# The lines of a function

A function reaches from the line that opens it to the line that ends it, or opens the next. An outline is told by this
alone (`Source.outline_spans`): its functions are those that the lines open, each with the instructions of its lines in
order and with the labels on them. The invariant is kept by every line (`Outline.Follows.addLine`).
-/

namespace RegisterAllocator.Source

namespace Line

def opens? (line : Line) : Option String :=
  match line.statement with
  | .directive _ name argument => if name = "func" then some argument else none
  | _ => none

def ends (line : Line) : Bool :=
  match line.statement with
  | .directive _ name _ => name = "func" ∨ name = "endfunc"
  | _ => false

def inst? (line : Line) (number : Nat) : Option DraftInst :=
  match line.statement with
  | .instruction mnemonic operands => some { mnemonic, operands, line := number }
  | _ => none

end Line

variable {lines : List Line} {content : Line} {start place : Nat}

/-- Whether the line at `place` stands in the function that the line at `start` opens. The line that ends a function
still does, since its label belongs to the function. -/
def Within (lines : List Line) (start place : Nat) : Prop :=
  start < place ∧ ∀ line ∈ (lines.take place).drop (start + 1), line.ends = false

instance (lines : List Line) (start place : Nat) : Decidable (Within lines start place) :=
  inferInstanceAs (Decidable (_ ∧ _))

/-- The places of the lines of the function that the line at `start` opens. -/
def scope (lines : List Line) (start : Nat) : List Nat := (List.range lines.length).filter (Within lines start)

def instLinesOf (lines : List Line) (start : Nat) : List DraftInst :=
  (scope lines start).filterMap fun place => lines[place]?.bind (·.inst? (place + 1))

def labelAt? (lines : List Line) (place : Nat) : Option String := lines[place]?.bind Line.label?

def opensAt? (lines : List Line) (place : Nat) : Option String := lines[place]?.bind Line.opens?

def openings (lines : List Line) : List Nat :=
  (List.range lines.length).filter fun place => (opensAt? lines place).isSome

/-! ## One line more -/

theorem within_append (bound : place ≤ lines.length) (more : List Line) :
    Within (lines ++ more) start place ↔ Within lines start place := by
  rw [Within, Within, List.take_append_of_le_length bound]

theorem within_concat (before : start < lines.length) : Within (lines ++ [content]) start (lines.length + 1) ↔
    Within lines start lines.length ∧ content.ends = false := by
  have all : (lines ++ [content]).take (lines.length + 1) = lines ++ [content] := List.take_of_length_le (by simp)
  rw [Within, Within, all, List.take_length, List.drop_append_of_le_length before]
  simp only [List.forall_mem_append, List.forall_mem_singleton]
  constructor
  · rintro ⟨-, early, last⟩
    exact ⟨⟨before, early⟩, last⟩
  · rintro ⟨⟨-, early⟩, last⟩
    exact ⟨Nat.lt_succ_of_lt before, early, last⟩

theorem scope_concat : scope (lines ++ [content]) start =
    scope lines start ++ if Within lines start lines.length then [lines.length] else [] := by
  have old : (List.range lines.length).filter (Within (lines ++ [content]) start) = scope lines start :=
    List.filter_congr fun place member => by
      rw [decide_eq_decide]
      exact within_append (List.mem_range.mp member).le _
  rw [scope, List.length_append, List.length_singleton, List.range_succ, List.filter_append, old,
    List.filter_singleton]
  simp only [within_append (Nat.le_refl _), Bool.cond_decide]

theorem mem_scope : place ∈ scope lines start ↔ place < lines.length ∧ Within lines start place := by
  rw [scope, List.mem_filter, List.mem_range, decide_eq_true_eq]

theorem lt_of_mem_scope (member : place ∈ scope lines start) : place < lines.length := (mem_scope.mp member).1

theorem opensAt?_append (bound : place < lines.length) (more : List Line) :
    opensAt? (lines ++ more) place = opensAt? lines place := by
  rw [opensAt?, opensAt?, List.getElem?_append_left bound]

theorem labelAt?_append (bound : place < lines.length) (more : List Line) :
    labelAt? (lines ++ more) place = labelAt? lines place := by
  rw [labelAt?, labelAt?, List.getElem?_append_left bound]

theorem instLinesOf_concat : instLinesOf (lines ++ [content]) start = instLinesOf lines start ++
    if Within lines start lines.length then (content.inst? (lines.length + 1)).toList else [] := by
  have old : (scope lines start).filterMap (fun place => (lines ++ [content])[place]?.bind (·.inst? (place + 1))) =
      instLinesOf lines start :=
    List.filterMap_congr fun place member => by rw [List.getElem?_append_left (lt_of_mem_scope member)]
  rw [instLinesOf, scope_concat, List.filterMap_append, old]
  split
  · cases found : content.inst? (lines.length + 1) <;> simp [found]
  · rfl

theorem openings_concat : openings (lines ++ [content]) =
    openings lines ++ if content.opens?.isSome then [lines.length] else [] := by
  have old : (List.range lines.length).filter (fun place => (opensAt? (lines ++ [content]) place).isSome) =
      openings lines :=
    List.filter_congr fun place member => by rw [opensAt?_append (List.mem_range.mp member)]
  have new : opensAt? (lines ++ [content]) lines.length = content.opens? := by simp [opensAt?]
  rw [openings, List.length_append, List.length_singleton, List.range_succ, List.filter_append, old,
    List.filter_singleton, new, Bool.cond_eq_ite]

/-! ## What an outline holds of its lines -/

namespace DraftFunction

variable {f f' : DraftFunction}

def insts (f : DraftFunction) : List DraftInst := f.blocks.flatMap DraftBlock.insts

/-- The function after a line of it: the instruction and the label on the line have been added. -/
structure Takes (content : Line) (number : Nat) (f f' : DraftFunction) : Prop where
  label : f'.label = f.label
  insts : f'.insts = f.insts ++ (content.inst? number).toList
  labels : ∀ label, label ∈ f'.labels ↔ label ∈ f.labels ∨ content.label? = some label

theorem Takes.trans {label? : Option String} {statement : Statement} {number : Nat} {f'' : DraftFunction}
    (first : Takes ⟨label?, .nothing⟩ number f f') (second : Takes ⟨none, statement⟩ number f' f'') :
    Takes ⟨label?, statement⟩ number f f'' where
  label := second.label.trans first.label
  insts := by
    rw [second.insts, first.insts]
    simp [Line.inst?]
  labels label := by
    rw [second.labels, first.labels]
    simp

theorem insts_startBlock (f : DraftFunction) (label : String) :
    insts { f with current := { label }, earlier := f.current :: f.earlier } = f.insts := by
  simp [insts, blocks_startBlock]

theorem insts_addInst (inst : DraftInst) : (f.addInst inst).insts = f.insts ++ [inst] := by
  simp [insts, blocks, addInst]

/-- The function is what the lines after `start` make of it. -/
structure Spans (lines : List Line) (start : Nat) (f : DraftFunction) : Prop where
  opening : opensAt? lines start = some f.label
  insts : f.insts = instLinesOf lines start
  labels : ∀ label, label ∈ f.labels ↔ label = f.label ∨ ∃ place ∈ scope lines start, labelAt? lines place = some label

theorem Spans.start_lt (spans : f.Spans lines start) : start < lines.length := by
  obtain ⟨line, found, -⟩ := Option.bind_eq_some_iff.mp spans.opening
  exact (List.getElem?_eq_some_iff.mp found).1

/-- The function goes on behind a line more if the line does not end it. -/
theorem Spans.reaches (spans : f.Spans lines start) :
    Within (lines ++ [content]) start (lines ++ [content]).length ↔
      Within lines start lines.length ∧ content.ends = false := by
  rw [List.length_append, List.length_singleton]
  exact within_concat spans.start_lt

theorem Spans.named (spans : f.Spans lines start) : f.label ∈ f.labels := (spans.labels f.label).mpr (.inl rfl)

theorem mem_scope_labels_concat {label : String} :
    (∃ place ∈ scope (lines ++ [content]) start, labelAt? (lines ++ [content]) place = some label) ↔
      (∃ place ∈ scope lines start, labelAt? lines place = some label) ∨
        Within lines start lines.length ∧ content.label? = some label := by
  have new : labelAt? (lines ++ [content]) lines.length = content.label? := by simp [labelAt?]
  rw [scope_concat]
  constructor
  · rintro ⟨place, member, found⟩
    rcases List.mem_append.mp member with old | last
    · rw [labelAt?_append (lt_of_mem_scope old)] at found
      exact .inl ⟨place, old, found⟩
    · split at last
      · next inside =>
        rw [List.mem_singleton.mp last, new] at found
        exact .inr ⟨inside, found⟩
      · cases last
  · rintro (⟨place, old, found⟩ | ⟨inside, found⟩)
    · exact ⟨place, List.mem_append_left _ old, (labelAt?_append (lt_of_mem_scope old) _).trans found⟩
    · exact ⟨lines.length, by simp [inside], new.trans found⟩

theorem Spans.skip (spans : f.Spans lines start) (outside : ¬ Within lines start lines.length) :
    f.Spans (lines ++ [content]) start where
  opening := (opensAt?_append spans.start_lt _).trans spans.opening
  insts := by rw [spans.insts, instLinesOf_concat, if_neg outside, List.append_nil]
  labels label := by
    rw [spans.labels, mem_scope_labels_concat]
    simp only [outside, false_and, or_false]

theorem Spans.take (spans : f.Spans lines start) (inside : Within lines start lines.length)
    (takes : Takes content (lines.length + 1) f f') : f'.Spans (lines ++ [content]) start where
  opening := by rw [opensAt?_append spans.start_lt, spans.opening, takes.label]
  insts := by rw [takes.insts, spans.insts, instLinesOf_concat, if_pos inside]
  labels label := by
    rw [takes.labels, spans.labels, mem_scope_labels_concat, takes.label]
    simp only [inside, true_and, or_assoc]

theorem spans_opened {name : String} (opens : content.opens? = some name) :
    (opened name).Spans (lines ++ [content]) lines.length := by
  -- no line stands behind the opening one yet
  have outside : ¬ Within lines lines.length lines.length := fun inside => inside.1.false
  have none : scope lines lines.length = [] :=
    List.filter_eq_nil_iff.mpr fun place member inside =>
      (of_decide_eq_true inside).1.not_ge (List.mem_range.mp member).le
  have empty : instLinesOf lines lines.length = [] := by rw [instLinesOf, none, List.filterMap_nil]
  refine ⟨by simp [opensAt?, opens, opened], ?_, fun label => ?_⟩
  · rw [instLinesOf_concat, if_neg outside, empty]
    rfl
  · rw [mem_scope_labels_concat, none]
    simp [outside, labels, blocks, opened]

end DraftFunction

theorem Line.opens?_eq_none (stays : content.ends = false) : content.opens? = none := by
  unfold ends at stays
  unfold opens?
  split
  · next text name argument shape =>
    rw [shape] at stays
    exact if_neg fun func => of_decide_eq_false stays (.inl func)
  · rfl

def DraftItem.function? : DraftItem → Option DraftFunction
  | external _ => none
  | function f => some f

namespace Outline

open DraftFunction

variable {o o' : Outline}

def closed (o : Outline) : List DraftFunction := o.done.reverse.filterMap DraftItem.function?

def current (o : Outline) : List DraftFunction := o.opened?.toList

theorem current_of_opened? {f : DraftFunction} (opened : o.opened? = some f) : o.current = [f] := by
  rw [current, opened, Option.toList_some]

theorem closed_close : o.close.closed = o.closed ++ o.current := by
  unfold close
  split
  · next f found => simp [closed, current, found, DraftItem.function?]
  · next found => simp [current, found]

theorem current_close : o.close.current = [] := by
  unfold close
  split
  · rfl
  · next found => rw [current, found, Option.toList_none]

theorem label_takes (number : Nat) {label : String} (named : ∀ f ∈ o.current, f.label ∈ f.labels)
    (added : o.addLabel label = .ok o') :
    o'.closed = o.closed ∧ List.Forall₂ (Takes ⟨some label, .nothing⟩ number) o.current o'.current := by
  obtain ⟨f, f', opened, labelled, rfl⟩ := addLabel_eq_ok added
  have opened := current_of_opened? opened
  refine ⟨rfl, ?_⟩
  rw [opened]
  rcases DraftFunction.addLabel_eq_ok labelled with ⟨entry, rfl⟩ | ⟨-, rfl⟩
  · have known : label ∈ f.labels := entry ▸ named f (opened ▸ List.mem_cons_self)
    refine .cons ⟨rfl, (List.append_nil _).symm, fun other => ⟨.inl, ?_⟩⟩ .nil
    rintro (old | new)
    · exact old
    · exact Option.some.inj new ▸ known
  · refine .cons ⟨rfl, (insts_startBlock f label).trans (List.append_nil _).symm, fun other => ?_⟩ .nil
    rw [labels_startBlock, List.mem_append, List.mem_singleton, Option.some.injEq, eq_comm (a := label)]

/-- What a line does to the functions: the open one, if there is one, takes the line; if the line ends it, then it is
complete and another may be opened. -/
def Advances (content : Line) (number : Nat) (o o' : Outline) : Prop :=
  ∃ kept, List.Forall₂ (Takes content number) o.current kept ∧
    if content.ends then o'.closed = o.closed ++ kept ∧ o'.current = content.opens?.toList.map DraftFunction.opened
    else o'.closed = o.closed ∧ o'.current = kept

theorem statement_advances {number : Nat} {statement : Statement} (added : o.addStatement number statement = .ok o') :
    Advances ⟨none, statement⟩ number o o' := by
  cases statement with
  | nothing =>
    cases added
    exact ⟨_, List.forall₂_same.mpr fun _ _ => ⟨rfl, (List.append_nil _).symm, by simp⟩, rfl, rfl⟩
  | instruction mnemonic operands =>
    obtain ⟨f, opened, rfl⟩ := addInst_eq_ok added
    refine ⟨_, ?_, rfl, rfl⟩
    rw [current_of_opened? opened]
    exact .cons ⟨rfl, insts_addInst _, fun label => by simp [labels_addInst]⟩ .nil
  | directive text name argument =>
    have idle : List.Forall₂ (Takes ⟨none, .directive text name argument⟩ number) o.current o.current :=
      List.forall₂_same.mpr fun _ _ => ⟨rfl, (List.append_nil _).symm, by simp⟩
    rcases addDirective_eq_ok added with ⟨rfl, -, rfl⟩ | ⟨rfl, rfl⟩ | ⟨rfl, f, size, opened, -, rfl⟩ | ⟨rfl, -, rfl⟩ |
      ⟨notFunc, notEndfunc, rfl⟩
    · exact ⟨_, idle, closed_close, rfl⟩
    · exact ⟨_, idle, closed_close, current_close⟩
    · refine ⟨_, ?_, rfl, rfl⟩
      rw [current_of_opened? opened]
      exact .cons ⟨rfl, (List.append_nil _).symm, by simp [labels, blocks]⟩ .nil
    · exact ⟨_, idle, by simp [closed, DraftItem.function?], rfl⟩
    · have stays : Line.ends ⟨none, .directive text name argument⟩ = false :=
        decide_eq_false (not_or.mpr ⟨notFunc, notEndfunc⟩)
      exact ⟨_, idle, by simp [stays]⟩

theorem line_advances {number : Nat} (named : ∀ f ∈ o.current, f.label ∈ f.labels)
    (added : o.addLine number content = .ok o') : Advances content number o o' := by
  obtain ⟨label?, statement⟩ := content
  unfold addLine at added
  cases label? with
  | none => exact statement_advances added
  | some label =>
    simp only [bind_eq_ok] at added
    obtain ⟨labelled, label, added⟩ := added
    obtain ⟨same, first⟩ := label_takes number named label
    obtain ⟨kept, second, result⟩ := statement_advances added
    exact ⟨kept, (forall₂_comp first second).imp fun _ _ ⟨_, first, second⟩ => first.trans second, same ▸ result⟩

/-- The complete functions and the open one are those that the lines open, in order. -/
def Follows (lines : List Line) (o : Outline) : Prop :=
  ∃ ended current, openings lines = ended ++ current ∧
    List.Forall₂ (fun start f => f.Spans lines start ∧ ¬ Within lines start lines.length) ended o.closed ∧
    List.Forall₂ (fun start f => f.Spans lines start ∧ Within lines start lines.length) current o.current

theorem follows_nil : Follows [] {} := ⟨[], [], rfl, .nil, .nil⟩

theorem Follows.opened {f : DraftFunction} (follows : Follows lines o) (opened : f ∈ o.current) :
    ∃ start, f.Spans lines start ∧ Within lines start lines.length := by
  obtain ⟨ended, current, -, -, spans⟩ := follows
  obtain ⟨start, -, spans⟩ := forall₂_mem_right spans opened
  exact ⟨start, spans⟩

theorem Follows.advance (follows : Follows lines o) (advances : Advances content (lines.length + 1) o o') :
    Follows (lines ++ [content]) o' := by
  obtain ⟨ended, current, opens, closed, opened⟩ := follows
  obtain ⟨kept, takes, result⟩ := advances
  have closed : List.Forall₂ (fun start f => f.Spans (lines ++ [content]) start ∧
      ¬ Within (lines ++ [content]) start (lines ++ [content]).length) ended o.closed :=
    closed.imp fun start f ⟨spans, ended⟩ => ⟨spans.skip ended, fun within => ended (spans.reaches.mp within).1⟩
  have kept : List.Forall₂ (fun start f => f.Spans (lines ++ [content]) start ∧
      (Within (lines ++ [content]) start (lines ++ [content]).length ↔ content.ends = false)) current kept :=
    (forall₂_comp opened takes).imp fun start f ⟨_, ⟨spans, within⟩, takes⟩ =>
      ⟨spans.take within takes, by rw [spans.reaches, and_iff_right within]⟩
  cases ends : content.ends with
  | false =>
    simp only [ends, Bool.false_eq_true, if_false] at result
    refine ⟨ended, current, ?_, result.1 ▸ closed, result.2 ▸ ?_⟩
    · rw [openings_concat, opens, Line.opens?_eq_none ends]
      simp
    · exact kept.imp fun start f ⟨spans, within⟩ => ⟨spans, within.mpr ends⟩
  | true =>
    simp only [ends, if_true] at result
    have last : content.ends ≠ false := by simp [ends]
    refine ⟨ended ++ current, content.opens?.toList.map fun _ => lines.length, ?_, ?_, ?_⟩
    · rw [openings_concat, opens]
      cases content.opens? <;> simp
    · rw [result.1]
      exact List.rel_append closed (kept.imp fun start f ⟨spans, within⟩ => ⟨spans, last ∘ within.mp⟩)
    · rw [result.2]
      cases opening : content.opens? with
      | none => exact .nil
      | some name =>
        refine .cons ⟨spans_opened opening, ?_⟩ .nil
        rw [List.length_append, List.length_singleton]
        exact ⟨Nat.lt_succ_self _, by simp⟩

theorem Follows.addLine (follows : Follows lines o) (added : o.addLine (lines.length + 1) content = .ok o') :
    Follows (lines ++ [content]) o' := by
  refine follows.advance (line_advances (fun f opened => ?_) added)
  obtain ⟨start, spans, -⟩ := follows.opened opened
  exact spans.named

theorem Follows.addLines {rest : List Line} (follows : Follows lines o)
    (added : o.addLines (lines.length + 1) rest = .ok o') : Follows (lines ++ rest) o' := by
  induction rest generalizing lines o with
  | nil =>
    cases added
    rwa [List.append_nil]
  | cons content rest ih =>
    unfold Outline.addLines at added
    split at added
    · next first =>
      have shape : lines ++ content :: rest = lines ++ [content] ++ rest := by simp
      rw [shape]
      apply ih (follows.addLine first)
      rwa [List.length_append, List.length_singleton]
    · cases added

/-- Lines that cannot all be taken have a first one that cannot. -/
theorem addLines_eq_error {number : Nat} {rest : List Line} {error : Error}
    (failed : o.addLines number rest = .error error) :
    ∃ taken content more o', rest = taken ++ content :: more ∧ o.addLines number taken = .ok o' ∧
      error.line = number + taken.length ∧ o'.addLine error.line content = .error error.complaint := by
  induction rest generalizing o number with
  | nil => cases failed
  | cons content rest ih =>
    unfold addLines at failed
    split at failed
    · next next first =>
      obtain ⟨taken, content', more, o', rfl, added, line, failed⟩ := ih failed
      refine ⟨content :: taken, content', more, o', rfl, ?_, ?_, failed⟩
      · rw [addLines, first]
        exact added
      · rw [line, List.length_cons]
        omega
    · next complaint first =>
      cases failed
      exact ⟨[], content, rest, o, rfl, rfl, rfl, first⟩

end Outline

theorem outline_spans {source : String} {items : List DraftItem} (drawn : outline source = .ok items) :
    List.Forall₂ (DraftFunction.Spans (linesOf source)) (openings (linesOf source))
      (items.filterMap DraftItem.function?) := by
  rw [outline, map_eq_ok] at drawn
  obtain ⟨o, added, rfl⟩ := drawn
  obtain ⟨ended, current, opens, closed, opened⟩ := Outline.follows_nil.addLines added
  rw [List.nil_append] at opens closed opened
  change List.Forall₂ _ _ o.close.closed
  rw [opens, Outline.closed_close]
  exact List.rel_append (closed.imp fun _ _ => And.left) (opened.imp fun _ _ => And.left)

end RegisterAllocator.Source
