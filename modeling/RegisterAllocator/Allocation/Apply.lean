import RegisterAllocator.Allocation.Message
import RegisterAllocator.Machine.Layout

/-!
# Allocation on a machine

An allocation is carried out on stored code: spill code is linked around the stored instructions in the order of the
plan, registers are replaced in place, and copies that are taken out are unlinked and released.
-/

namespace RegisterAllocator

/-- No scratch register was left to load a virtual register at an instruction. -/
structure Exhausted where
  func : String
  reg : VirtReg
  number : Nat
deriving DecidableEq, Repr

def Exhausted.message (e : Exhausted) : String :=
  "no scratch register left to reload " ++ e.reg.name ++ " at instruction " ++ toString e.number ++ " of " ++ e.func

structure Choice where
  assignment : VirtMap PhysReg := []
  /-- The slots of virtual registers, as offsets from the stack pointer. -/
  slots : VirtMap UInt64 := []
  stats : Stats := {}
deriving DecidableEq, Repr

namespace Machine

def numbered (ids : Array InstId) (number : Nat) : Except Fault InstId :=
  match ids[number]? with
  | some i => .ok i
  | none => .error .beyondNumbering

def applyStep (f : FuncId) (ids : Array InstId) (m : Machine) : SpillStep → Except Fault Machine
  | .grow => m.growFrame f 8
  | .reload t => do
    let i ← numbered ids t.number
    let m ← m.modifyInst i (·.replaceUse t.reg t.data)
    m.insertBefore i (Inst.loadSlot t.data t.address t.offset)
  | .writeBack t => do
    let i ← numbered ids t.number
    let m ← m.modifyInst i (·.replaceDef t.reg t.data)
    m.insertAfter i (Inst.storeSlot t.data t.address t.offset)

def applyPlan (m : Machine) (f : FuncId) (ids : Array InstId) (plan : SpillPlan) : Except Fault Machine :=
  plan.steps.foldlM (applyStep f ids) m

/-- Replace a web by its register in the instructions of its ranges, and note the register. -/
def placeWeb (f : FuncId) (ids : Array InstId) (m : Machine) (w : Web) (home : PhysReg) : Except Fault Machine := do
  let m ← w.numbers.foldlM (fun m number => do
    m.modifyInst (← numbered ids number) (·.replaceReg w.reg home)) m
  m.addSaved f home

/-- Carry out the rest of an allocation whose spill code is in place. -/
def applyResult (m : Machine) (f : FuncId) (ids : Array InstId) (a : Allocation) : Except Fault Machine := do
  let m ← a.homed.foldlM (fun m (w, home) => m.placeWeb f ids w home) m
  a.drops.foldlM (fun m (number, _) => do m.removeInst (← numbered ids number)) m

structure Allocated where
  machine : Machine
  messages : List Message := []
  outcome : Except Exhausted Choice

def carryOut (m : Machine) (f : FuncId) (label : String) (ids : Array InstId) (a : Allocation) :
    Except Fault Allocated := do
  let messages := a.decisionMessages label
  let m ← m.applyPlan f ids a.plan
  match a.plan.ending with
  | .overflow => throw .overflow
  | .beyondNumbering => throw .beyondNumbering
  | .exhausted reg number =>
    return { machine := m, messages, outcome := .error { func := label, reg, number } }
  | .complete =>
    return {
      machine := ← m.applyResult f ids a
      messages := messages ++ a.resultMessages label
      outcome := .ok { assignment := a.assignment, slots := a.slots, stats := a.stats } }

/-- Allocate the registers of a function. A function without blocks is left alone. -/
def allocate (m : Machine) (config : Config) (f : FuncId) : Except Fault Allocated := do
  let node ← m.func f
  if node.layout.head.isNone then return { machine := m, outcome := .ok {} }
  let body ← m.body f
  let ids := (← m.instList f).toArray
  let a := Allocation.make config body node.frame
  match a.fault with
  | some fault => throw fault
  | none => m.carryOut f node.label ids a

end Machine

structure Allocator where
  config : Config := {}
  total : Stats := {}

namespace Allocator

structure Report (α : Type) where
  allocator : Allocator
  machine : Machine
  messages : List Message
  outcome : Except Exhausted α

def runFunction (a : Allocator) (m : Machine) (f : FuncId) : Except Fault (Report Choice) := do
  let done ← m.allocate a.config f
  let total := match done.outcome with
    | .ok choice => a.total.add choice.stats
    | .error _ => a.total
  return {
    allocator := { a with total }, machine := done.machine, messages := done.messages, outcome := done.outcome }

/-- Allocate functions in order, up to one that fails. External functions are left out. -/
def runFunctions (a : Allocator) (m : Machine) : List FuncId → Except Fault (Report (List (FuncId × Choice)))
  | [] => return { allocator := a, machine := m, messages := [], outcome := .ok [] }
  | f :: rest => do
    if (← m.func f).external then a.runFunctions m rest
    else
      let first ← a.runFunction m f
      match first.outcome with
      | .error exhausted => return { first with outcome := .error exhausted }
      | .ok choice =>
        let others ← first.allocator.runFunctions first.machine rest
        return {
          others with
          messages := first.messages ++ others.messages
          outcome := others.outcome.map ((f, choice) :: ·) }

def run (a : Allocator) (m : Machine) : Except Fault (Report (List (FuncId × Choice))) :=
  a.runFunctions m m.funcIds

end Allocator

end RegisterAllocator
