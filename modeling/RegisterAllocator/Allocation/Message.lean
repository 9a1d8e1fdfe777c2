import RegisterAllocator.Allocation.Allocate
import RegisterAllocator.Decimal.Text

/-!
# Messages

What an allocation has to say about itself, in three degrees of detail.
-/

namespace RegisterAllocator

inductive Level where
  | info
  | debug
  | trace
deriving DecidableEq, Repr

namespace Level

def rank : Level → Nat
  | info => 0
  | debug => 1
  | trace => 2

def word : Level → String
  | info => "INFO"
  | debug => "DEBUG"
  | trace => "TRACE"

end Level

structure Message where
  level : Level
  text : String
deriving DecidableEq, Repr

namespace Message

def line (m : Message) : String := m.level.word ++ " " ++ m.text

end Message

namespace Allocation

def webText (a : Allocation) (web : Nat) : String :=
  "#" ++ toString web ++ " (" ++ ((a.problem.webs[web]?.map fun w => w.reg.name).getD "") ++ ")"

def decisionText (a : Allocation) : Decision → String
  | .assign web reg => "assign " ++ reg.name ++ " to " ++ a.webText web
  | .evict web reg => "evict " ++ a.webText web ++ " from " ++ reg.name
  | .demote web => "demote " ++ a.webText web ++ ", weight " ++ Decimal.text (a.problem.weight web)
  | .spill web =>
    let offset? := a.problem.webs[web]?.bind fun w => a.slots.find? w.reg
    "spill " ++ a.webText web ++ " to " ++ ((offset?.map fun offset => toString offset.toNat).getD "") ++ "(sp)"

/-- The decisions up to the first that sends a register to the stack. -/
def upToSpill (p : Problem) (reg : VirtReg) : List Decision → List Decision
  | [] => []
  | decision :: rest =>
    if p.spills [decision] = [reg] then [decision] else decision :: upToSpill p reg rest

/-- The decisions that were carried out: all of them, or those up to the register whose spill code failed. -/
def carriedOut (a : Allocation) : List Decision :=
  match a.plan.ending with
  | .exhausted reg _ => upToSpill a.problem reg a.search.decisions
  | _ => a.search.decisions

/-- The messages before the code is changed: ranges and weights, then the decisions. -/
def decisionMessages (a : Allocation) (label : String) : List Message :=
  { level := .trace, text := "live ranges of " ++ label ++ ":\n" ++ a.live.text a.body } ::
    ((a.body.blocks.zip a.blockWeights).map fun (block, weight) =>
      { level := .trace, text := "weight of " ++ block.label ++ ": " ++ Decimal.text weight }) ++
    a.carriedOut.map fun decision =>
      { level := .debug, text := label ++ ": " ++ a.decisionText decision }

def resultMessages (a : Allocation) (label : String) : List Message :=
  (a.drops.map fun (_, reg) =>
    { level := .trace, text := label ++ ": remove identity move of " ++ reg.name }) ++
    [{ level := .info, text := "greedy allocation of " ++ label ++ ": " ++ a.stats.text }]

end Allocation

end RegisterAllocator
