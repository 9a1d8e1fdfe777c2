import RegisterAllocator.Allocation.Problem
import RegisterAllocator.Decimal.Reader

/-!
# Arguments

What a command line asks for. Options and the one input may come in any order. An option's value is its next argument,
unless that starts with a dash and is more than it, or follows an equals sign; the value of a short option may also
follow at once. After `--` every argument is an input. Nothing may be given twice.
-/

namespace RegisterAllocator.Command

/-- The options that take a value. -/
inductive Setting where
  | output
  | loopWeight
  | maxRegs
deriving DecidableEq, Repr

/-- The options that take none. -/
inductive Flag where
  | keepIdentityMoves
  | emitLiveness
  | emitWeights
  | stats
deriving DecidableEq, Repr

structure Arguments where
  /-- The name of the input; a dash is the standard input. -/
  input : String
  /-- The name of the output, if not the standard output. -/
  output : Option String := none
  loopWeight : Option Float := none
  maxRegs : Option Nat := none
  flags : List Flag := []

def Arguments.has (a : Arguments) (flag : Flag) : Bool := a.flags.contains flag

def Arguments.config (a : Arguments) : Config where
  loopWeight := a.loopWeight.getD 4.0
  removeIdentityMoves := !a.has .keepIdentityMoves
  registerLimit := a.maxRegs

inductive Refusal where
  /-- It is not understood. -/
  | misuse
  /-- It asks for help. -/
  | help
deriving DecidableEq, Repr

/-- A command line of which some arguments have been read. -/
structure Scan where
  input : Option String := none
  output : Option String := none
  loopWeight : Option Float := none
  maxRegs : Option Nat := none
  flags : List Flag := []
  /-- The option whose value comes next. -/
  pending : Option Setting := none
  /-- Whether only inputs follow. -/
  optionsEnded : Bool := false

/-- A count: an optional plus sign and a decimal numeral, within 64 bits. -/
def count? (text : String) : Option Nat := do
  let value ← match text.toList with
    | '+' :: rest => Numeral.decimal? rest
    | rest => Numeral.decimal? rest
  if value < UInt64.size then some value else none

def Setting.ofName? : String → Option Setting
  | "output" => some .output
  | "loop-weight" => some .loopWeight
  | "max-regs" => some .maxRegs
  | _ => none

def Flag.ofName? : String → Option Flag
  | "keep-identity-moves" => some .keepIdentityMoves
  | "emit-liveness" => some .emitLiveness
  | "emit-weights" => some .emitWeights
  | "stats" => some .stats
  | _ => none

def fill {α : Type} (place : Option α) (value : Option α) : Except Refusal (Option α) :=
  if place.isSome || value.isNone then .error .misuse else .ok value

namespace Scan

def set (s : Scan) (setting : Setting) (value : String) : Except Refusal Scan := do
  let s := { s with pending := none }
  match setting with
  | .output => return { s with output := ← fill s.output value }
  | .loopWeight => return { s with loopWeight := ← fill s.loopWeight (Decimal.ofText? value) }
  | .maxRegs => return { s with maxRegs := ← fill s.maxRegs (count? value) }

def raise (s : Scan) (flag : Flag) : Except Refusal Scan :=
  if s.flags.contains flag then .error .misuse else .ok { s with flags := s.flags ++ [flag] }

def take (s : Scan) (name : String) : Except Refusal Scan := do
  return { s with input := ← fill s.input name }

/-- Take an option with a long name and the value that follows an equals sign, if there is one. -/
def long (s : Scan) (name : String) (value : Option String) : Except Refusal Scan :=
  match Setting.ofName? name, Flag.ofName? name, value with
  | some setting, _, some value => s.set setting value
  | some setting, _, none => .ok { s with pending := some setting }
  | none, some flag, none => s.raise flag
  | none, none, none => .error (if name = "help" then .help else .misuse)
  | none, _, some _ => .error .misuse

/-- Take an option with a short name and what follows in the same argument. -/
def short (s : Scan) (name : Char) (rest : List Char) : Except Refusal Scan :=
  match name, rest with
  | 'o', [] => .ok { s with pending := some .output }
  | 'o', '=' :: value => s.set .output (String.ofList value)
  | 'o', value => s.set .output (String.ofList value)
  | 'h', _ => .error .help
  | _, _ => .error .misuse

def step (s : Scan) (argument : String) : Except Refusal Scan :=
  if s.optionsEnded then s.take argument
  else
    match argument.toList, s.pending with
    | '-' :: _ :: _, some _ => .error .misuse
    | ['-', '-'], none => .ok { s with optionsEnded := true }
    | '-' :: '-' :: option, none =>
      let value := (option.dropWhile (· ≠ '=')).tail?
      s.long (String.ofList (option.takeWhile (· ≠ '='))) (value.map String.ofList)
    | '-' :: name :: rest, none => s.short name rest
    | _, some setting => s.set setting argument
    | _, none => s.take argument

def finish (s : Scan) : Except Refusal Arguments :=
  match s.input, s.pending with
  | some input, none =>
    .ok { input, output := s.output, loopWeight := s.loopWeight, maxRegs := s.maxRegs, flags := s.flags }
  | _, _ => .error .misuse

end Scan

def Arguments.read (arguments : List String) : Except Refusal Arguments := do
  (← arguments.foldlM Scan.step {}).finish

end RegisterAllocator.Command
