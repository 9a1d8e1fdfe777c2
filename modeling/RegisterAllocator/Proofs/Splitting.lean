import Mathlib.Data.List.TakeWhile
import RegisterAllocator.Source.Line

/-!
# Texts put together and taken apart

What is left of a text when it is trimmed (`trim_append`), cut into lines (`lines_append`) or words
(`firstWord_append`), or split at commas (`map_trim_splitAt_intercalate`), if it was put together from parts.
-/

namespace RegisterAllocator.Text

variable {text left right : List Char} {mark c : Char}

/-! ## Trimming -/

/-- A text without blanks at its ends. -/
structure Trimmed (text : List Char) : Prop where
  first : ∀ c ∈ text.head?, isBlank c = false
  last : ∀ c ∈ text.getLast?, isBlank c = false

theorem trimStart_eq_self (first : ∀ c ∈ text.head?, isBlank c = false) : trimStart text = text := by
  cases text with
  | nil => rfl
  | cons c rest => exact List.dropWhile_cons_of_neg (by simp [first c rfl])

theorem trimEnd_eq_self (last : ∀ c ∈ text.getLast?, isBlank c = false) : trimEnd text = text := by
  have reversed : trimStart text.reverse = text.reverse := trimStart_eq_self (by simpa using last)
  rw [trimEnd, ← trimStart, reversed, List.reverse_reverse]

theorem Trimmed.trim_eq (trimmed : Trimmed text) : trim text = text := by
  rw [trim, trimStart_eq_self trimmed.first, trimEnd_eq_self trimmed.last]

theorem trimStart_cons (blank : isBlank c = true) : trimStart (c :: text) = trimStart text :=
  List.dropWhile_cons_of_pos blank

theorem trimEnd_cons (c : Char) (text : List Char) :
    trimEnd (c :: text) = if trimEnd text = [] ∧ isBlank c = true then [] else c :: trimEnd text := by
  rw [trimEnd, List.reverse_cons, List.dropWhile_append, trimEnd]
  by_cases all : text.reverse.dropWhile isBlank = []
  · cases blank : isBlank c <;> simp [all, blank]
  · simp [all]

theorem trimEnd_cons_of_solid (solid : isBlank c = false) : trimEnd (c :: text) = c :: trimEnd text := by
  rw [trimEnd_cons, if_neg (by simp [solid])]

theorem trimEnd_ne_nil (solid : ∃ c ∈ text, isBlank c = false) : trimEnd text ≠ [] := by
  obtain ⟨c, member, solid⟩ := solid
  rw [trimEnd, ne_eq, List.reverse_eq_nil_iff, List.dropWhile_eq_nil_iff]
  intro blank
  rw [blank c (List.mem_reverse.mpr member)] at solid
  cases solid

/-- The end of a text is trimmed without regard to what stands in front of a character that is not blank. -/
theorem trimEnd_append (solid : ∃ c ∈ right, isBlank c = false) : trimEnd (left ++ right) = left ++ trimEnd right := by
  induction left with
  | nil => rfl
  | cons c left ih =>
    have filled : left ++ trimEnd right ≠ [] := fun empty =>
      trimEnd_ne_nil solid (List.append_eq_nil_iff.mp empty).2
    rw [List.cons_append, trimEnd_cons, ih, if_neg fun both => filled both.1, List.cons_append]

theorem trim_append (filled : left ≠ []) (first : ∀ c ∈ left.head?, isBlank c = false)
    (solid : ∃ c ∈ right, isBlank c = false) : trim (left ++ right) = left ++ trimEnd right := by
  have start : trimStart (left ++ right) = left ++ right := by
    apply trimStart_eq_self
    cases left with
    | nil => exact absurd rfl filled
    | cons c left => exact first
  rw [trim, start, trimEnd_append solid]

theorem trimEnd_isPrefix (text : List Char) : trimEnd text <+: text := by
  rw [← List.reverse_suffix, trimEnd, List.reverse_reverse]
  exact List.dropWhile_suffix _

theorem trim_isInfix (text : List Char) : trim text <:+: text :=
  (trimEnd_isPrefix _).isInfix.trans (List.dropWhile_suffix _).isInfix

theorem mem_of_mem_trim (member : c ∈ trim text) : c ∈ text := (trim_isInfix text).subset member

theorem head?_trimStart (text : List Char) : ∀ c ∈ (trimStart text).head?, isBlank c = false := by
  intro c found
  have stops := List.head?_dropWhile_not isBlank text
  rw [trimStart, Option.mem_def] at found
  rw [found] at stops
  exact stops

theorem getLast?_trimEnd (text : List Char) : ∀ c ∈ (trimEnd text).getLast?, isBlank c = false := by
  rw [trimEnd, List.getLast?_reverse]
  exact head?_trimStart text.reverse

theorem trim_trimmed (text : List Char) : Trimmed (trim text) := by
  refine ⟨fun c found => ?_, getLast?_trimEnd _⟩
  obtain ⟨rest, whole⟩ := trimEnd_isPrefix (trimStart text)
  apply head?_trimStart text
  rw [trim, Option.mem_def] at found
  rw [← whole, List.head?_append, found]
  rfl

theorem trim_cons (blank : isBlank c = true) : trim (c :: text) = trim text := by
  rw [trim, trimStart_cons blank, trim]

/-! ## Lines -/

theorem lines_append {line rest : List Char} (feed : '\n' ∉ line) (ends : line.getLast? ≠ some '\r') :
    lines (line ++ '\n' :: rest) = line :: lines rest := by
  induction line with
  | nil => rfl
  | cons c line ih =>
    obtain ⟨differs, feedless⟩ := not_or.mp (List.mem_cons.not.mp feed)
    have tail : line.getLast? ≠ some '\r' := by
      intro last
      exact ends (by rw [List.getLast?_cons, last]; rfl)
    have unreturned : ∀ others, c = '\r' → line ++ '\n' :: rest ≠ '\n' :: others := by
      rintro others rfl start
      cases line with
      | nil => exact ends rfl
      | cons d line =>
        cases start
        exact feedless List.mem_cons_self
    rw [List.cons_append, lines.eq_4 _ _ (Ne.symm differs) unreturned, ih feedless tail]

theorem not_mem_lines {line : List Char} (member : line ∈ lines text) : '\n' ∉ line := by
  fun_induction lines text generalizing line with
  | case1 => cases member
  | case2 rest ih | case3 rest ih =>
    rcases List.mem_cons.mp member with rfl | member
    · exact List.not_mem_nil
    · exact ih member
  | case4 c rest differs _ empty ih =>
    cases List.mem_singleton.mp member
    exact fun found => differs (List.mem_singleton.mp found).symm
  | case5 c rest differs _ line' more split ih =>
    rw [split] at ih
    rcases List.mem_cons.mp member with rfl | member
    · intro found
      rcases List.mem_cons.mp found with same | found
      · exact differs same.symm
      · exact ih List.mem_cons_self found
    · exact ih (List.mem_cons_of_mem _ member)

/-! ## Marks -/

theorem before_eq_self (absent : mark ∉ text) : before mark text = text := by
  rw [before, List.takeWhile_eq_self_iff]
  intro c member
  simpa using fun same : c = mark => absent (same ▸ member)

theorem before_subset (mark : Char) (text : List Char) : before mark text ⊆ text :=
  (List.takeWhile_sublist _).subset

theorem not_mem_before (mark : Char) (text : List Char) : mark ∉ before mark text := fun member => by
  simpa using List.mem_takeWhile_imp member

theorem cut?_append (absent : mark ∉ left) :
    cut? mark (left ++ right) = (cut? mark right).map fun parts => (left ++ parts.1, parts.2) := by
  induction left with
  | nil => simp
  | cons c left ih =>
    obtain ⟨differs, absent⟩ := not_or.mp (List.mem_cons.not.mp absent)
    rw [List.cons_append, cut?, if_neg (Ne.symm differs), ih absent, Option.map_map]
    rfl

theorem cut?_at (absent : mark ∉ left) : cut? mark (left ++ mark :: right) = some (left, right) := by
  rw [cut?_append absent, cut?, if_pos rfl, Option.map_some, List.append_nil]

theorem cut?_eq_some (cut : cut? mark text = some (left, right)) : text = left ++ mark :: right := by
  induction text generalizing left with
  | nil => cases cut
  | cons c text ih =>
    rw [cut?] at cut
    split at cut
    · next same =>
      cases cut
      rw [same, List.nil_append]
    · obtain ⟨parts, found, same⟩ := Option.map_eq_some_iff.mp cut
      cases same
      rw [ih found, List.cons_append]

theorem cut?_subset (cut : cut? mark text = some (left, right)) : right ⊆ text := by
  rw [cut?_eq_some cut]
  exact List.Subset.trans (List.subset_cons_self _ _) (List.subset_append_right _ _)

theorem splitAt_of_not_mem (absent : mark ∉ text) : splitAt mark text = [text] := by
  induction text with
  | nil => rfl
  | cons c text ih =>
    obtain ⟨differs, absent⟩ := not_or.mp (List.mem_cons.not.mp absent)
    rw [splitAt, if_neg (Ne.symm differs), ih absent]

theorem splitAt_append (absent : mark ∉ left) :
    splitAt mark (left ++ mark :: right) = left :: splitAt mark right := by
  induction left with
  | nil => rw [List.nil_append, splitAt, if_pos rfl]
  | cons c left ih =>
    obtain ⟨differs, absent⟩ := not_or.mp (List.mem_cons.not.mp absent)
    rw [List.cons_append, splitAt, if_neg (Ne.symm differs), ih absent]

theorem mem_splitAt {piece : List Char} (member : piece ∈ splitAt mark text) : mark ∉ piece ∧ piece ⊆ text := by
  fun_induction splitAt mark text generalizing piece with
  | case1 =>
    cases List.mem_singleton.mp member
    exact ⟨List.not_mem_nil, List.Subset.refl _⟩
  | case2 rest ih =>
    rcases List.mem_cons.mp member with rfl | member
    · exact ⟨List.not_mem_nil, List.nil_subset _⟩
    · exact ⟨(ih member).1, List.subset_cons_of_subset _ (ih member).2⟩
  | case3 c rest differs empty ih =>
    cases List.mem_singleton.mp member
    refine ⟨fun found => differs (List.mem_singleton.mp found).symm, ?_⟩
    exact List.cons_subset.mpr ⟨List.mem_cons_self, List.nil_subset _⟩
  | case4 c rest differs first more split ih =>
    rw [split] at ih
    rcases List.mem_cons.mp member with rfl | member
    · obtain ⟨absent, inside⟩ := ih List.mem_cons_self
      refine ⟨fun found => ?_, List.cons_subset_cons _ inside⟩
      rcases List.mem_cons.mp found with same | found
      · exact differs same.symm
      · exact absent found
    · obtain ⟨absent, inside⟩ := ih (List.mem_cons_of_mem _ member)
      exact ⟨absent, List.subset_cons_of_subset _ inside⟩

/-- The first piece starts the text, and every other one stands somewhere in it. -/
theorem splitAt_eq_cons (mark : Char) (text : List Char) :
    ∃ first more, splitAt mark text = first :: more ∧ first <+: text ∧ ∀ piece ∈ more, piece <:+: text := by
  induction text with
  | nil => exact ⟨[], [], rfl, List.prefix_rfl, nofun⟩
  | cons c text ih =>
    obtain ⟨first, more, pieces, start, inner⟩ := ih
    rw [splitAt, pieces]
    split
    · refine ⟨[], first :: more, rfl, List.nil_prefix, fun piece member => ?_⟩
      rcases List.mem_cons.mp member with rfl | later
      · exact List.infix_cons start.isInfix
      · exact List.infix_cons (inner piece later)
    · exact ⟨c :: first, more, rfl, (List.prefix_cons_inj c).mpr start,
        fun piece member => List.infix_cons (inner piece member)⟩

theorem splitAt_isInfix {piece : List Char} (member : piece ∈ splitAt mark text) : piece <:+: text := by
  obtain ⟨first, more, pieces, start, inner⟩ := splitAt_eq_cons mark text
  rw [pieces] at member
  rcases List.mem_cons.mp member with rfl | later
  · exact start.isInfix
  · exact inner piece later

theorem splitAt_ne_nil (mark : Char) (text : List Char) : splitAt mark text ≠ [] := by
  fun_cases splitAt mark text <;> exact List.cons_ne_nil _ _

theorem map_trim_splitAt_cons (blank : isBlank c = true) (differs : c ≠ mark) :
    (splitAt mark (c :: text)).map trim = (splitAt mark text).map trim := by
  rw [splitAt, if_neg differs]
  cases split : splitAt mark text with
  | nil => exact absurd split (splitAt_ne_nil mark text)
  | cons piece more => rw [List.map_cons, List.map_cons, trim_cons blank]

theorem map_trim_splitAt_trimEnd (blank : isBlank c = true) (differs : c ≠ mark) :
    (splitAt mark (trimEnd (c :: text))).map trim = (splitAt mark (trimEnd text)).map trim := by
  rw [trimEnd_cons]
  split
  · next both => rw [both.1]
  · exact map_trim_splitAt_cons blank differs

/-- Trimmed pieces that are joined by commas and blanks come out again. The last piece may be empty, and the blank in
front of it trimmed away. -/
theorem map_trim_splitAt_intercalate {pieces : List (List Char)} (filled : pieces ≠ [])
    (each : ∀ piece ∈ pieces, Trimmed piece ∧ ',' ∉ piece) :
    (splitAt ',' (trimEnd ([',', ' '].intercalate pieces))).map trim = pieces := by
  induction pieces with
  | nil => exact absurd rfl filled
  | cons piece rest ih =>
    obtain ⟨trimmed, absent⟩ := each piece List.mem_cons_self
    cases rest with
    | nil =>
      rw [List.intercalate_singleton, trimEnd_eq_self trimmed.last, splitAt_of_not_mem absent, List.map_singleton,
        trimmed.trim_eq]
    | cons next rest =>
      have whole : [',', ' '].intercalate (piece :: next :: rest) =
          piece ++ ',' :: ' ' :: [',', ' '].intercalate (next :: rest) := by
        simp [List.intercalate_cons_cons]
      have comma : isBlank ',' = false := by decide
      rw [whole, trimEnd_append ⟨',', List.mem_cons_self, comma⟩, trimEnd_cons_of_solid comma, splitAt_append absent,
        List.map_cons, trimmed.trim_eq, map_trim_splitAt_trimEnd (by decide) (by decide),
        ih (List.cons_ne_nil _ _) fun other member => each other (List.mem_cons_of_mem _ member)]

theorem mem_intercalate {separator : List Char} {pieces : List (List Char)}
    (member : c ∈ separator.intercalate pieces) : c ∈ separator ∨ ∃ piece ∈ pieces, c ∈ piece := by
  induction pieces with
  | nil => simp at member
  | cons piece rest ih =>
    cases rest with
    | nil => exact .inr ⟨piece, List.mem_cons_self, by simpa using member⟩
    | cons next rest =>
      rw [List.intercalate_cons_cons, List.mem_append, List.mem_append] at member
      rcases member with (inPiece | inSeparator) | later
      · exact .inr ⟨piece, List.mem_cons_self, inPiece⟩
      · exact .inl inSeparator
      · exact (ih later).imp_right fun ⟨other, member, found⟩ => ⟨other, List.mem_cons_of_mem _ member, found⟩

/-! ## Words -/

theorem firstWord_append (solid : ∀ c ∈ left, isBlank c = false) :
    firstWord (left ++ ' ' :: right) = (left, trim right) := by
  have blank : isBlank ' ' = true := by decide
  have take : (left ++ ' ' :: right).takeWhile (!isBlank ·) = left := by
    rw [List.takeWhile_append_of_pos (by simpa using solid), List.takeWhile_cons_of_neg (by simp [blank]),
      List.append_nil]
  have drop : (left ++ ' ' :: right).dropWhile (!isBlank ·) = ' ' :: right := by
    rw [List.dropWhile_append_of_pos (by simpa using solid), List.dropWhile_cons_of_neg (by simp [blank])]
  rw [firstWord, take, drop, trim_cons blank]

end RegisterAllocator.Text
