import RegisterAllocator.Hints
import RegisterAllocator.Liveness.Ranges
import RegisterAllocator.Program.Flow

/-!
# Allocation problems

A web is a virtual register with its live ranges and its weight, the estimated cost of keeping it on the stack. Webs
are numbered in the order of their registers. A problem is what the search for registers needs to know of a function:
its webs, the ranges of the registers that the code names itself, and what copies ask for.
-/

namespace RegisterAllocator

structure Config where
  /-- The factor by which a loop makes its blocks heavier. -/
  loopWeight : Float := 4.0
  /-- Whether copies of a register to itself are taken out. -/
  removeIdentityMoves : Bool := true
  /-- How many registers of each file are handed out, if not all. -/
  registerLimit : Option Nat := none

/-- A virtual register to allocate. -/
structure Web where
  reg : VirtReg
  ranges : List LiveRange
  weight : Float

namespace Web

/-- The sum of numbers, from left to right. The empty sum is the neutral element, negative zero. -/
def total (values : List Float) : Float := values.foldl (· + ·) (-0.0)

def numbers (w : Web) : List Nat := w.ranges.flatMap LiveRange.numbers

def blockCount (w : Web) : Nat := (w.ranges.map LiveRange.block).eraseDups.length

def instCount (w : Web) : Nat := w.ranges.foldl (fun count range => count + range.count) 0

/-- The weight of a register: its instructions, each as often as its block runs, and more if copies ask for it. -/
def weigh (blockWeights : List Float) (hints : Hints) (reg : VirtReg) (ranges : List LiveRange) : Float :=
  let weight := total <| ranges.map fun r => r.count.toFloat * blockWeights[r.block]?.getD 1.0
  if hints.isCoalesced reg then weight * 1.5
  else if hints.isHinted reg then weight * 2.0
  else weight

end Web

structure Problem where
  webs : Array Web
  /-- The live ranges of the registers that the code names itself. -/
  fixedRanges : List (Reg × List LiveRange)
  hints : Hints
  /-- How many registers of each file are handed out, if not all. -/
  limit : Option Nat

namespace Problem

def ofBody (config : Config) (blockWeights : List Float) (live : LiveRanges) (hints : Hints) : Problem where
  webs := (live.table.filterMap fun (reg, ranges) =>
    reg.virt?.map fun reg => { reg, ranges, weight := Web.weigh blockWeights hints reg ranges : Web }).toArray
  fixedRanges := live.table.filter fun (reg, _) => !reg.isVirt
  hints := hints
  limit := config.registerLimit

def ranges (p : Problem) (web : Nat) : List LiveRange := (p.webs[web]?.map Web.ranges).getD []

def weight (p : Problem) (web : Nat) : Float := (p.webs[web]?.map Web.weight).getD 0.0

def interfere (p : Problem) (a b : Nat) : Bool := LiveRange.anyConflict (p.ranges a) (p.ranges b)

/-- Whether a register is itself live somewhere in the ranges of a web. -/
def blocked (p : Problem) (web : Nat) (reg : PhysReg) : Bool :=
  reg.isFixed && LiveRange.anyConflict (p.ranges web) ((p.fixedRanges.lookup (.phys reg)).getD [])

/-- The registers of a file that are handed out, most preferred first. -/
def allowed (p : Problem) (file : RegFile) : List PhysReg :=
  match p.limit with
  | some limit => (PhysReg.allocatableIn file).take limit
  | none => PhysReg.allocatableIn file

/-- The registers that a virtual register may get: its hint first, then by preference. -/
def candidates (p : Problem) (hints : Hints) (reg : VirtReg) : List PhysReg :=
  let allowed := p.allowed reg.file
  match hints.hint? reg with
  | some hint => if hint ∈ allowed then hint :: allowed.filter (· ≠ hint) else allowed
  | none => allowed

end Problem

end RegisterAllocator
