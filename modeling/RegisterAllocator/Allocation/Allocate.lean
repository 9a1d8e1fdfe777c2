import RegisterAllocator.Allocation.Search
import RegisterAllocator.Allocation.Spill

/-!
# Allocation of a body

The search decides which virtual registers get which physical registers and which go to the stack; the spill code is
planned; then every virtual register that got a register is replaced by it in the instructions of its live ranges, and
copies that became copies of a register to itself are taken out.
-/

namespace RegisterAllocator

structure Allocation where
  config : Config
  body : Body
  blockWeights : List Float
  live : LiveRanges
  problem : Problem
  /-- The end of the search. -/
  search : SearchState
  /-- The spill code of the registers that go to the stack. -/
  plan : SpillPlan

namespace Allocation

def make (config : Config) (body : Body) (frame : UInt64) : Allocation :=
  let blockWeights := body.blockWeights config.loopWeight
  let live := LiveRanges.ofBody Reg.isTracked body
  let problem := Problem.ofBody config blockWeights live (Hints.ofInsts body.insts)
  let search := SearchState.finish problem
  { config, body, blockWeights, live, problem, search,
    plan := .make live body frame (problem.spills search.decisions) }

def fault (a : Allocation) : Option Fault := a.body.flowFault.or a.search.fault

def homed (a : Allocation) : List (Web × PhysReg) := a.problem.homed a.search

def assignment (a : Allocation) : VirtMap PhysReg := a.problem.assignment a.search

def slots (a : Allocation) : VirtMap UInt64 := .ofList a.plan.slots

/-- Replace a web by its register in the instructions of its ranges. -/
def placeWeb (body : Body) (patches : Array Patch) (w : Web) (home : PhysReg) : Array Patch :=
  w.numbers.foldl (fun patches number =>
    match body.cells[number]? with
    | some cell => patches.modify cell (·.replaceReg w.reg home)
    | none => patches) patches

/-- What becomes of each stored instruction. -/
def placed (a : Allocation) : Array Patch :=
  a.homed.foldl (fun patches (w, home) => placeWeb a.body patches w home) a.plan.patches

/-- What becomes of each instruction, by number. -/
def patches (a : Allocation) : List Patch := a.body.cells.filterMap (a.placed[·]?)

/-- The register that an instruction copies to itself, if the instruction is taken out for it. -/
def dropped? (a : Allocation) (patch : Patch) : Option Reg :=
  if a.config.removeIdentityMoves then patch.identity? else none

def drops (a : Allocation) : List (Nat × Reg) :=
  a.patches.zipIdx.filterMap fun (patch, number) => (a.dropped? patch).map fun reg => (number, reg)

def codeOf (a : Allocation) (patch : Patch) : List (Inst Nat) :=
  patch.before ++ (if (a.dropped? patch).isSome then [] else [patch.inst]) ++ patch.after

def rebuild (a : Allocation) : List Block → List Patch → List Block
  | [], _ => []
  | block :: rest, patches =>
    { block with insts := (patches.take block.insts.length).flatMap a.codeOf } ::
      rebuild a rest (patches.drop block.insts.length)

def result (a : Allocation) : List Block := a.rebuild a.body.blocks a.patches

def stats (a : Allocation) : Stats :=
  { Stats.ofDecisions a.search.decisions with
    webs := a.problem.webs.size
    assigned := a.assignment.length
    loadsAdded := a.plan.loadCount
    storesAdded := a.plan.storeCount
    movesRemoved := a.drops.length }

end Allocation

end RegisterAllocator
