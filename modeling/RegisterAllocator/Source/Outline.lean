import RegisterAllocator.Source.Error
import RegisterAllocator.Source.Line
import RegisterAllocator.Text.Numeral

/-!
# Outlines

An outline is a program whose instructions are still text: directives and labels have put every instruction into a
block of a function. An outline is drawn line by line, and the first line that does not fit is the error of the text.
-/

namespace RegisterAllocator.Source

/-- An instruction with its operands still in text. -/
structure DraftInst where
  mnemonic : String
  operands : List String
  line : Nat
deriving DecidableEq, Repr

structure DraftBlock where
  label : String
  insts : List DraftInst := []
deriving DecidableEq, Repr

structure DraftFunction where
  label : String
  frame : UInt64 := 0
  /-- Whether the entry has been labelled explicitly. -/
  entryLabelled : Bool := false
  /-- The block that lines are being added to. -/
  current : DraftBlock
  /-- The blocks before it, latest first. -/
  earlier : List DraftBlock := []
deriving DecidableEq, Repr

inductive DraftItem where
  | external (label : String)
  | function (function : DraftFunction)
deriving DecidableEq, Repr

namespace DraftFunction

/-- A function with an empty entry block of the same label. -/
def opened (label : String) : DraftFunction := { label, current := { label } }

def blocks (f : DraftFunction) : List DraftBlock := (f.current :: f.earlier).reverse

def labels (f : DraftFunction) : List String := f.blocks.map DraftBlock.label

/-- Start a block, unless the label names the entry block that has just been opened. -/
def addLabel (f : DraftFunction) (label : String) : Except Complaint DraftFunction :=
  if label = f.label ∧ f.entryLabelled = false ∧ f.earlier = [] ∧ f.current.insts = [] then
    .ok { f with entryLabelled := true }
  else if label ∈ f.labels then .error (.duplicatedLabel label)
  else .ok { f with current := { label }, earlier := f.current :: f.earlier }

def addInst (f : DraftFunction) (inst : DraftInst) : DraftFunction :=
  { f with current := { f.current with insts := f.current.insts ++ [inst] } }

end DraftFunction

/-- What has been outlined so far: the items that are complete, latest first, and the open function. -/
structure Outline where
  done : List DraftItem := []
  opened? : Option DraftFunction := none

namespace Outline

def close (o : Outline) : Outline :=
  match o.opened? with
  | some f => { done := .function f :: o.done, opened? := none }
  | none => o

def items (o : Outline) : List DraftItem := o.close.done.reverse

/-- The open function; `text` needs one. -/
def function (o : Outline) (text : String) : Except Complaint DraftFunction :=
  match o.opened? with
  | some f => .ok f
  | none => .error (.outsideFunction text)

def addLabel (o : Outline) (label : String) : Except Complaint Outline := do
  let f ← o.function label
  return { o with opened? := ← f.addLabel label }

def frameSize (text : String) : Except Complaint UInt64 :=
  match Numeral.int64? text.toList with
  | some size => if 0 ≤ size then .ok size.toUInt64 else .error (.badImmediate text)
  | none => .error (.badImmediate text)

/-- Take a directive. Directives other than these four say nothing about allocation. -/
def addDirective (o : Outline) (text name argument : String) : Except Complaint Outline :=
  match name with
  | "func" =>
    if argument.isEmpty then .error (.badDirective text)
    else .ok { o.close with opened? := some (.opened argument) }
  | "endfunc" => do
    let _ ← o.function text
    pure o.close
  | "frame" => do
    let f ← o.function text
    return { o with opened? := some { f with frame := ← frameSize argument } }
  | "extern" =>
    if argument.isEmpty then .error (.badDirective text)
    else .ok { o with done := .external argument :: o.done }
  | _ => .ok o

def addStatement (o : Outline) (line : Nat) : Statement → Except Complaint Outline
  | .nothing => .ok o
  | .directive text name argument => o.addDirective text name argument
  | .instruction mnemonic operands => do
    let f ← o.function mnemonic
    return { o with opened? := some (f.addInst { mnemonic, operands, line }) }

def addLine (o : Outline) (line : Nat) (content : Line) : Except Complaint Outline := do
  let o ← match content.label? with
    | some label => o.addLabel label
    | none => pure o
  o.addStatement line content.statement

def addLines (o : Outline) (line : Nat) : List Line → Except Error Outline
  | [] => .ok o
  | content :: rest =>
    match o.addLine line content with
    | .ok o => o.addLines (line + 1) rest
    | .error complaint => .error { line, complaint }

end Outline

def outline (source : String) : Except Error (List DraftItem) :=
  Outline.items <$> Outline.addLines {} 1 (linesOf source)

end RegisterAllocator.Source
