import RegisterAllocator.Proofs.Splitting

/-!
# Lines that are written

The parts of a line come out again if it is put together from words and clean operands: directives
(`ofText_directive`), instructions (`ofText_instruction`) and labels (`ofText_label`).
-/

namespace RegisterAllocator.Source

open Text

/-! ## Words -/

theorem toNat_of_isLabelChar {c : Char} (inLabel : isLabelChar c = true) :
    c.toNat ∈ [46, 95] ∨ (48 ≤ c.toNat ∧ c.toNat ≤ 57) ∨ (65 ≤ c.toNat ∧ c.toNat ≤ 90) ∨
      (97 ≤ c.toNat ∧ c.toNat ≤ 122) := by
  simp only [isLabelChar, Char.isAlphanum, Bool.or_eq_true, beq_iff_eq] at inLabel
  rcases inLabel with ((letter | digit) | rfl) | rfl
  · rcases Bool.or_eq_true_iff.mp letter with upper | lower
    · exact .inr (.inr (.inl (of_decide_eq_true upper)))
    · have range := Bool.and_eq_true_iff.mp lower
      exact .inr (.inr (.inr (range.imp of_decide_eq_true of_decide_eq_true)))
  · have range := Bool.and_eq_true_iff.mp digit
    exact .inr (.inl (range.imp of_decide_eq_true of_decide_eq_true))
  · decide
  · decide

theorem isBlank_of_isLabelChar {c : Char} (inLabel : isLabelChar c = true) : isBlank c = false := by
  have ascii := toNat_of_isLabelChar inLabel
  simp only [List.mem_cons, List.not_mem_nil, or_false] at ascii
  simp only [isBlank, blankRanges, List.any_cons, List.any_nil, Bool.or_eq_false_iff, Bool.and_eq_false_iff,
    decide_eq_false_iff_not, and_true]
  omega

/-- A text of the characters that labels and mnemonics are made of. -/
structure Word (text : String) : Prop where
  filled : text ≠ ""
  chars : ∀ c ∈ text.toList, isLabelChar c = true

instance (text : String) : Decidable (Word text) :=
  decidable_of_iff (text ≠ "" ∧ text.toList.all isLabelChar = true)
    ⟨fun h => ⟨h.1, List.all_eq_true.mp h.2⟩, fun h => ⟨h.1, List.all_eq_true.mpr h.2⟩⟩

/-- A text that keeps its shape on a line: no blanks at its ends, and neither a comment nor a new line in it. -/
structure Clean (text : String) : Prop where
  trimmed : Trimmed text.toList
  feed : '\n' ∉ text.toList
  comment : '#' ∉ text.toList

/-- A clean text that can stand between commas. -/
structure Operand (text : String) : Prop extends Clean text where
  comma : ',' ∉ text.toList

/-- A text that can follow a word without being taken for the end of a label. -/
def Leads (text : String) : Prop := text ≠ "" ∧ text.toList.head? ≠ some ':'

instance (text : String) : Decidable (Leads text) := inferInstanceAs (Decidable (_ ∧ _))

variable {word text : String}

theorem Word.toList_ne_nil (isWord : Word word) : word.toList ≠ [] :=
  fun empty => isWord.filled (String.toList_eq_nil_iff.mp empty)

theorem Word.solid (isWord : Word word) : ∀ c ∈ word.toList, isBlank c = false :=
  fun c member => isBlank_of_isLabelChar (isWord.chars c member)

theorem Word.not_mem (isWord : Word word) {c : Char} (other : isLabelChar c = false) : c ∉ word.toList := by
  intro member
  rw [isWord.chars c member] at other
  cases other

/-- Whether a character means nothing but itself in an operand. -/
def isOperandChar (c : Char) : Bool := isLabelChar c || ['$', '-', '(', ')'].contains c

theorem operand_of_chars (chars : ∀ c ∈ text.toList, isOperandChar c = true) : Operand text := by
  have solid : ∀ c ∈ text.toList, isBlank c = false := by
    intro c member
    have char := chars c member
    rw [isOperandChar, Bool.or_eq_true, List.contains_iff_mem] at char
    rcases char with inLabel | sign
    · exact isBlank_of_isLabelChar inLabel
    · have signs : ['$', '-', '(', ')'].all (!isBlank ·) = true := by decide
      simpa using List.all_eq_true.mp signs c sign
  have absent : ∀ c, isOperandChar c = false → c ∉ text.toList := by
    intro c other member
    rw [chars c member] at other
    cases other
  exact
    { trimmed := ⟨fun c found => solid c (List.mem_of_head? found), fun c found => solid c (List.mem_of_getLast? found)⟩
      feed := absent '\n' (by decide)
      comment := absent '#' (by decide)
      comma := absent ',' (by decide) }

theorem Word.operand (isWord : Word word) : Operand word :=
  operand_of_chars fun c member => by rw [isOperandChar, isWord.chars c member, Bool.true_or]

theorem Word.trimmed (isWord : Word word) : Trimmed word.toList := isWord.operand.trimmed

theorem Word.leads (isWord : Word word) : Leads word :=
  ⟨isWord.filled, fun start => isWord.not_mem (c := ':') (by decide) (List.mem_of_head? start)⟩

/-! ## Line ends -/

/-- A text that stays one line when a line feed is put behind it. -/
structure Unbroken (text : String) : Prop where
  feed : '\n' ∉ text.toList
  ends : text.toList.getLast? ≠ some '\r'

theorem Clean.unbroken (clean : Clean text) : Unbroken text :=
  ⟨clean.feed, fun last => absurd (clean.trimmed.last _ last) (by decide)⟩

theorem Unbroken.append {left right : String} (first : Unbroken left) (second : Unbroken right) :
    Unbroken (left ++ right) := by
  refine ⟨?_, ?_⟩
  · rw [String.toList_append, List.mem_append, not_or]
    exact ⟨first.feed, second.feed⟩
  · rw [String.toList_append, List.getLast?_append]
    cases last : right.toList.getLast? with
    | none => exact first.ends
    | some c =>
      rw [Option.some_or, ← last]
      exact second.ends

theorem unbroken_intercalate {operands : List String} (each : ∀ operand ∈ operands, Unbroken operand) :
    Unbroken (", ".intercalate operands) := by
  induction operands with
  | nil => exact ⟨by decide, by decide⟩
  | cons operand rest ih =>
    have first := each operand List.mem_cons_self
    have others := ih fun other member => each other (List.mem_cons_of_mem _ member)
    cases rest with
    | nil => simpa using first
    | cons next rest =>
      have comma : Unbroken ", " := ⟨by decide, by decide⟩
      rw [String.intercalate_cons_cons]
      exact (first.append comma).append others

/-! ## Labels -/

theorem trim_word {left rest : List Char} {c : Char} (isWord : ∀ c ∈ left, isLabelChar c = true) (filled : left ≠ [])
    (solid : isBlank c = false) : trim (left ++ ' ' :: c :: rest) = left ++ ' ' :: c :: trimEnd rest := by
  have tail : trimEnd (' ' :: c :: rest) = ' ' :: c :: trimEnd rest := by
    rw [trimEnd_cons, trimEnd_cons_of_solid solid, if_neg (by simp)]
  have start : ∀ d ∈ left.head?, isBlank d = false :=
    fun d found => isBlank_of_isLabelChar (isWord d (List.mem_of_head? found))
  rw [trim_append filled start ⟨c, List.mem_cons_of_mem _ List.mem_cons_self, solid⟩, tail]

/-- Text behind a word and a blank is not taken for a label, whatever colons it has further on. -/
theorem splitLabel_word {left rest : List Char} {c : Char} (isWord : ∀ c ∈ left, isLabelChar c = true)
    (filled : left ≠ []) (solid : isBlank c = false) (differs : c ≠ ':') :
    splitLabel (left ++ ' ' :: c :: rest) = (none, left ++ ' ' :: c :: rest) := by
  have absent : ':' ∉ left ++ [' ', c] := by
    simp only [List.mem_append, List.mem_cons, List.not_mem_nil, or_false, not_or]
    refine ⟨fun member => ?_, by decide, differs.symm⟩
    exact absurd (isWord _ member) (by decide)
  have whole : left ++ ' ' :: c :: rest = (left ++ [' ', c]) ++ rest := by simp
  rw [splitLabel, whole, cut?_append absent]
  cases cut : cut? ':' rest with
  | none => rfl
  | some parts =>
    -- the text in front of the colon has a blank inside, so it is no label
    have front : trim (left ++ [' ', c] ++ parts.1) = left ++ ' ' :: c :: trimEnd parts.1 := by
      rw [List.append_assoc]
      exact trim_word isWord filled solid
    have blank : isLabelChar ' ' = false := by decide
    have unlabelled : (left ++ ' ' :: c :: trimEnd parts.1).all isLabelChar = false := by
      rw [List.all_append, List.all_cons, blank, Bool.false_and, Bool.and_false]
    simp only [Option.map_some, front, unlabelled, Bool.and_false, Bool.false_eq_true, if_false]

theorem ofText_label (isWord : Word word) :
    Line.ofText (word ++ ":").toList = { label? := some word, statement := .nothing } := by
  have shape : (word ++ ":").toList = word.toList ++ [':'] := String.toList_append
  have comment : '#' ∉ word.toList ++ [':'] := by
    rw [List.mem_append, not_or]
    exact ⟨isWord.not_mem (by decide), by decide⟩
  have whole : trim (word.toList ++ [':']) = word.toList ++ [':'] := by
    rw [trim_append isWord.toList_ne_nil isWord.trimmed.first ⟨':', List.mem_cons_self, by decide⟩]
    rfl
  have label : word.toList.all isLabelChar = true := List.all_eq_true.mpr isWord.chars
  rw [Line.ofText, shape, before_eq_self comment, whole, splitLabel, cut?_at (isWord.not_mem (by decide))]
  simp only [isWord.trimmed.trim_eq, label, List.isEmpty_eq_false_iff.mpr isWord.toList_ne_nil, String.ofList_toList]
  rfl

/-! ## Statements -/

/-- A line of a word and more text has no label. Blanks at the end are trimmed. -/
theorem ofText_word {left rest : List Char} (isWord : ∀ c ∈ left, isLabelChar c = true) (filled : left ≠ [])
    (comment : '#' ∉ rest) (start : ∃ c more, rest = c :: more ∧ isBlank c = false ∧ c ≠ ':') :
    Line.ofText (left ++ ' ' :: rest) = { label? := none, statement := .ofText (left ++ ' ' :: trimEnd rest) } := by
  obtain ⟨c, more, rfl, solid, differs⟩ := start
  have uncommented : '#' ∉ left ++ ' ' :: c :: more := by
    rw [List.mem_append, List.mem_cons, not_or, not_or]
    exact ⟨fun member => absurd (isWord _ member) (by decide), by decide, comment⟩
  rw [Line.ofText, before_eq_self uncommented, trim_word isWord filled solid,
    splitLabel_word isWord filled solid differs, trimEnd_cons_of_solid solid]

theorem Leads.exists_cons (leads : Leads text) (clean : Clean text) :
    ∃ c more, text.toList = c :: more ∧ isBlank c = false ∧ c ≠ ':' := by
  cases shape : text.toList with
  | nil => exact absurd (String.toList_eq_nil_iff.mp shape) leads.1
  | cons c more =>
    refine ⟨c, more, rfl, clean.trimmed.first c (by simp [shape]), fun same => leads.2 ?_⟩
    rw [shape, same]
    rfl

theorem ofText_directive (isWord : Word word) (clean : Clean text) (leads : Leads text) :
    Line.ofText ("." ++ word ++ " " ++ text).toList =
      { label? := none, statement := .directive ("." ++ word ++ " " ++ text) word text } := by
  have shape : ("." ++ word ++ " " ++ text).toList = ('.' :: word.toList) ++ ' ' :: text.toList := by
    simp [String.toList_append]
  have chars : ∀ c ∈ '.' :: word.toList, isLabelChar c = true := by
    intro c member
    rcases List.mem_cons.mp member with rfl | member
    · decide
    · exact isWord.chars c member
  have same : String.ofList ('.' :: (word.toList ++ ' ' :: text.toList)) = "." ++ word ++ " " ++ text := by
    rw [← List.cons_append, ← shape, String.ofList_toList]
  rw [shape, ofText_word chars (List.cons_ne_nil _ _) clean.comment (leads.exists_cons clean),
    trimEnd_eq_self clean.trimmed.last, List.cons_append]
  simp only [Statement.ofText, firstWord_append isWord.solid, clean.trimmed.trim_eq, String.ofList_toList, same]

theorem Statement.ofText_instruction {left right : List Char} (isWord : ∀ c ∈ left, isLabelChar c = true)
    (filled : left ≠ []) (named : left.head? ≠ some '.') :
    Statement.ofText (left ++ ' ' :: right) = .instruction (String.ofList left) (splitOperands (trim right)) := by
  have split : firstWord (left ++ ' ' :: right) = (left, trim right) :=
    firstWord_append fun c member => isBlank_of_isLabelChar (isWord c member)
  cases left with
  | nil => exact absurd rfl filled
  | cons c left =>
    have other : c ≠ '.' := fun same => named (by rw [same]; rfl)
    rw [List.cons_append, Statement.ofText.eq_3 _ (by simp) (by simpa using other), ← List.cons_append, split]

theorem splitOperands_intercalate {operands : List String} (filled : operands ≠ [])
    (each : ∀ operand ∈ operands, Operand operand)
    (solid : trimEnd (", ".intercalate operands).toList ≠ []) :
    splitOperands (trimEnd (", ".intercalate operands).toList) = operands := by
  have clean : ∀ piece ∈ operands.map String.toList, Trimmed piece ∧ ',' ∉ piece := by
    intro piece inPieces
    obtain ⟨operand, member, rfl⟩ := List.mem_map.mp inPieces
    exact ⟨(each operand member).trimmed, (each operand member).comma⟩
  have pieces := map_trim_splitAt_intercalate (by simpa using filled) clean
  have text : (", ".intercalate operands).toList = [',', ' '].intercalate (operands.map String.toList) :=
    String.toList_intercalate
  rw [splitOperands, List.isEmpty_eq_false_iff.mpr solid, text, if_neg (by decide), ← Function.comp_def String.ofList,
    ← List.map_map, pieces, List.map_map]
  simp

/-- The operands of an instruction are read back from the line that has them, with commas and blanks in between. -/
theorem ofText_instruction {first : String} {others : List String} (isWord : Word word)
    (named : word.toList.head? ≠ some '.') (leads : Leads first)
    (each : ∀ operand ∈ first :: others, Operand operand) :
    Line.ofText (word ++ " " ++ ", ".intercalate (first :: others)).toList =
      { label? := none, statement := .instruction word (first :: others) } := by
  have shape : (word ++ " " ++ ", ".intercalate (first :: others)).toList =
      word.toList ++ ' ' :: (", ".intercalate (first :: others)).toList := by
    simp [String.toList_append]
  have comment : '#' ∉ (", ".intercalate (first :: others)).toList := by
    intro member
    rw [String.toList_intercalate] at member
    rcases mem_intercalate member with inSeparator | ⟨piece, inPieces, found⟩
    · exact absurd inSeparator (by decide)
    · obtain ⟨operand, member, rfl⟩ := List.mem_map.mp inPieces
      exact (each operand member).comment found
  obtain ⟨c, more, start, solid, differs⟩ :
      ∃ c more, (", ".intercalate (first :: others)).toList = c :: more ∧ isBlank c = false ∧ c ≠ ':' := by
    obtain ⟨c, more, start, solid, differs⟩ := leads.exists_cons (each first List.mem_cons_self).toClean
    cases others with
    | nil => exact ⟨c, more, by simpa using start, solid, differs⟩
    | cons next others =>
      refine ⟨c, more ++ ", ".toList ++ (", ".intercalate (next :: others)).toList, ?_, solid, differs⟩
      simp [String.toList_intercalate, start]
  have trimmed : trim (trimEnd (", ".intercalate (first :: others)).toList) =
      trimEnd (", ".intercalate (first :: others)).toList := by
    refine Trimmed.trim_eq ⟨?_, getLast?_trimEnd _⟩
    simp [start, trimEnd_cons_of_solid solid, solid]
  rw [shape, ofText_word isWord.chars isWord.toList_ne_nil comment ⟨c, more, start, solid, differs⟩,
    Statement.ofText_instruction isWord.chars isWord.toList_ne_nil named, trimmed,
    splitOperands_intercalate (List.cons_ne_nil _ _) each (by simp [start, trimEnd_cons_of_solid solid]),
    String.ofList_toList]

end RegisterAllocator.Source
