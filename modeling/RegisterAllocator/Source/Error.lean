import RegisterAllocator.Fault
import RegisterAllocator.Register.Name

/-!
# Errors in source text

What can be wrong with a line of source text, and the text that reports it.
-/

namespace RegisterAllocator.Source

inductive Complaint where
  | unknownMnemonic (mnemonic : String)
  | badRegister (text : String)
  | badImmediate (text : String)
  | badMemoryOperand (text : String)
  | badRounding (text : String)
  | badDirective (text : String)
  | unknownLabel (label : String)
  | outsideFunction (text : String)
  | duplicatedLabel (label : String)
  /-- A register of the other file. -/
  | wrongFile (register : String) (expected : RegFile)
  /-- Too few or too many operands; `expected` is the nearer bound. -/
  | operandCount (mnemonic : String) (expected found : Nat)
deriving DecidableEq, Repr

def quoted (text : String) : String := "`" ++ text ++ "`"

def Complaint.message : Complaint → String
  | unknownMnemonic mnemonic => "unknown mnemonic " ++ quoted mnemonic
  | badRegister text => "bad register " ++ quoted text
  | badImmediate text => "bad immediate " ++ quoted text
  | badMemoryOperand text => "bad memory operand " ++ quoted text
  | badRounding text => "bad rounding mode " ++ quoted text
  | badDirective text => "bad directive " ++ quoted text
  | unknownLabel label => "unknown label " ++ quoted label
  | outsideFunction text => quoted text ++ " outside a function"
  | duplicatedLabel label => "duplicated label " ++ quoted label
  | wrongFile register expected => quoted register ++ " is not a " ++ expected.word ++ " register"
  | operandCount mnemonic expected found =>
    quoted mnemonic ++ " expects " ++ toString expected ++ " operands, found " ++ toString found

/-- A complaint about a line; lines are counted from one. -/
structure Error where
  line : Nat
  complaint : Complaint
deriving DecidableEq, Repr

def Error.message (e : Error) : String := "line " ++ toString e.line ++ ": " ++ e.complaint.message

inductive Failure where
  /-- The text has an error. -/
  | malformed (error : Error)
  /-- A counter has no room left. -/
  | fault (fault : Fault)
deriving DecidableEq, Repr

end RegisterAllocator.Source
