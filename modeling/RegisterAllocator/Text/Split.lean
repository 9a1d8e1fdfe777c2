import RegisterAllocator.Text.Blank

/-!
# Splitting text

Texts are lists of characters here. A text is cut into lines, cut at the first of a character, cut into words,
and trimmed.
-/

namespace RegisterAllocator.Text

/-- The lines of a text. A line ends at a line feed, and a carriage return right before the line feed belongs to
the end of the line. The last line need not be ended. -/
def lines : List Char → List (List Char)
  | [] => []
  | '\n' :: rest => [] :: lines rest
  | '\r' :: '\n' :: rest => [] :: lines rest
  | c :: rest =>
    match lines rest with
    | [] => [[c]]
    | line :: more =>
      -- `rest` is empty exactly when it has no line
      (c :: line) :: more

def trimStart (text : List Char) : List Char := text.dropWhile isBlank

def trimEnd (text : List Char) : List Char := (text.reverse.dropWhile isBlank).reverse

def trim (text : List Char) : List Char := trimEnd (trimStart text)

def before (mark : Char) (text : List Char) : List Char := text.takeWhile (· ≠ mark)

/-- Cut at the first `mark`, which is in neither part. -/
def cut? (mark : Char) : List Char → Option (List Char × List Char)
  | [] => none
  | c :: rest =>
    if c = mark then some ([], rest)
    else (cut? mark rest).map fun (left, right) => (c :: left, right)

/-- The pieces between the occurrences of `mark`; one more than there are occurrences. -/
def splitAt (mark : Char) : List Char → List (List Char)
  | [] => [[]]
  | c :: rest =>
    if c = mark then [] :: splitAt mark rest
    else match splitAt mark rest with
      | [] => [[c]]
      | piece :: more => (c :: piece) :: more

def firstWord (text : List Char) : List Char × List Char :=
  (text.takeWhile (!isBlank ·), trim (text.dropWhile (!isBlank ·)))

/-- The text before a last character `last`. -/
def dropLast? (last : Char) (text : List Char) : Option (List Char) :=
  if text.getLast? = some last then some text.dropLast else none

example : lines "a\r\nb\n\nc".toList = ["a".toList, "b".toList, [], "c".toList] := by decide
example : lines "a\n".toList = ["a".toList] := by decide
example : firstWord "addi  a0, a1".toList = ("addi".toList, "a0, a1".toList) := by decide

end RegisterAllocator.Text
