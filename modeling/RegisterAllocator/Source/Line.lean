import RegisterAllocator.Text.Split

/-!
# Lines of source text

A line has an optional label, then a directive, an instruction or nothing. A comment goes from `#` to the end of the
line. What the words mean is not looked at here.
-/

namespace RegisterAllocator.Source

inductive Statement where
  | nothing
  /-- A directive: its text, its name without the dot and its argument. -/
  | directive (text name argument : String)
  | instruction (mnemonic : String) (operands : List String)
deriving DecidableEq, Repr

structure Line where
  label? : Option String
  statement : Statement
deriving DecidableEq, Repr

def isLabelChar (c : Char) : Bool := c.isAlphanum || c == '_' || c == '.'

/-- The label in front of the first colon, if it is one, and the rest. -/
def splitLabel (text : List Char) : Option String × List Char :=
  match Text.cut? ':' text with
  | none => (none, text)
  | some (left, right) =>
    let label := Text.trim left
    if !label.isEmpty && label.all isLabelChar then (some (String.ofList label), Text.trim right)
    else (none, text)

def splitOperands (text : List Char) : List String :=
  if text.isEmpty then [] else (Text.splitAt ',' text).map fun piece => String.ofList (Text.trim piece)

def Statement.ofText : List Char → Statement
  | [] => nothing
  | '.' :: rest =>
    let (name, argument) := Text.firstWord rest
    directive (String.ofList ('.' :: rest)) (String.ofList name) (String.ofList argument)
  | text =>
    let (mnemonic, operands) := Text.firstWord text
    instruction (String.ofList mnemonic) (splitOperands operands)

def Line.ofText (text : List Char) : Line :=
  let (label?, rest) := splitLabel (Text.trim (Text.before '#' text))
  { label?, statement := .ofText rest }

def linesOf (source : String) : List Line := (Text.lines source.toList).map Line.ofText

end RegisterAllocator.Source
