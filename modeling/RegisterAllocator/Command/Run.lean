import RegisterAllocator.Allocation.Apply
import RegisterAllocator.Command.Arguments
import RegisterAllocator.Command.Files
import RegisterAllocator.Machine.Printer
import RegisterAllocator.Source.Reader

/-!
# Running a command

The input is read, the analyses that are asked for are reported, registers are allocated, and the listing is written.
Each stage may fail; what has been reported before stays.
-/

namespace RegisterAllocator.Command

inductive Failure where
  | file (error : FileError)
  | source (error : Source.Error)
  | exhausted (error : Exhausted)
  | fault (reason : Fault)

def Failure.message : Failure → String
  | file error => error.message
  | source error => error.message
  | exhausted error => error.message
  | fault reason => reason.message

def Failure.status : Failure → Nat
  | fault _ => 101
  | _ => 1

/-- What a command leaves behind, its files apart. -/
structure Outcome where
  status : Nat := 0
  output : String := ""
  report : String := ""
deriving DecidableEq, Repr

def Outcome.failed (report : String) (failure : Failure) : Outcome where
  status := failure.status
  report := report ++ "error: " ++ failure.message ++ "\n"

def usage : String := "usage: [OPTIONS] <INPUT>\n"

def help : String :=
  "greedy register allocation of RISC-V64 assembly with virtual registers\n\n" ++ usage ++ "\n" ++
  "  <INPUT>                input assembly, - for stdin\n" ++
  "  -o, --output <FILE>    write the allocated assembly to FILE instead of stdout\n" ++
  "  --loop-weight <F>      weight multiplier of each enclosing loop [default: 4.0]\n" ++
  "  --max-regs <N>         only use the first N allocatable registers of each class\n" ++
  "  --keep-identity-moves  keep copies of a register to itself\n" ++
  "  --emit-liveness        print the live ranges before allocation to stderr\n" ++
  "  --emit-weights         print the block weights to stderr\n" ++
  "  --stats                print allocation statistics to stderr\n" ++
  "  -h, --help             print this text\n"

/-- The live ranges and block weights of a function, as far as they are asked for. -/
def analysis (a : Arguments) (m : Machine) (f : FuncId) : Except Fault String := do
  let node ← m.func f
  if node.external || node.layout.head.isNone then return ""
  let body ← m.body f
  let ranges :=
    "# live ranges of " ++ node.label ++ "\n" ++ (LiveRanges.ofBody Reg.isTracked body).text body
  let weights :=
    "# block weights of " ++ node.label ++ "\n" ++
      String.join ((body.blocks.zip (body.blockWeights a.config.loopWeight)).map fun (block, weight) =>
        block.label ++ ": " ++ Decimal.text weight ++ "\n")
  return (if a.has .emitLiveness then ranges else "") ++ (if a.has .emitWeights then weights else "")

def statistics (m : Machine) (choices : List (FuncId × Choice)) (total : Stats) : Except Fault String := do
  let lines ← choices.mapM fun (f, choice) => return (← m.funcLabel f) ++ ": " ++ choice.stats.text ++ "\n"
  return String.join lines ++ "total: " ++ total.text ++ "\n"

/-- Work that reports as it goes and may fail. What was reported before a failure stays. -/
abbrev Job := ExceptT Failure (StateM String)

namespace Job

def report (text : String) : Job Unit := modify (· ++ text)

def ofFault {α : Type} : Except Fault α → Job α
  | .ok value => pure value
  | .error fault => throw (.fault fault)

def read (source : String) : Job Machine :=
  match Source.read source with
  | .ok m => pure m
  | .error (.malformed error) => throw (.source error)
  | .error (.fault fault) => throw (.fault fault)

def allocate (a : Arguments) (m : Machine) : Job Machine := do
  let done ← ofFault (({ config := a.config } : Allocator).run m)
  match done.outcome with
  | .error error => throw (.exhausted error)
  | .ok choices =>
    if a.has .stats then
      report (← ofFault (statistics done.machine choices done.allocator.total))
    pure done.machine

def listing (a : Arguments) (source : String) : Job String := do
  let m ← read source
  m.funcIds.forM fun f => do report (← ofFault (analysis a m f))
  ofFault (← allocate a m).text

end Job

variable {m : Type → Type} [Monad m]

def readInput (files : Files m) (name : String) : m (Except FileError String) := do
  let bytes ← if name = "-" then files.standardInput else files.read name
  return bytes.bind decode

def writeListing (files : Files m) (a : Arguments) (listing report : String) : m Outcome := do
  match a.output with
  | none => return { output := listing, report }
  | some name =>
    match ← files.write name listing with
    | .ok () => return { report }
    | .error error => return .failed report (.file error)

def run (files : Files m) (arguments : List String) : m Outcome := do
  match Arguments.read arguments with
  | .error .help => return { output := help }
  | .error .misuse => return { status := 2, report := usage }
  | .ok a =>
    match ← readInput files a.input with
    | .error error => return .failed "" (.file error)
    | .ok source =>
      match (Job.listing a source).run.run "" with
      | (.ok listing, report) => writeListing files a listing report
      | (.error failure, report) => return .failed report failure

end RegisterAllocator.Command
