import RegisterAllocator.Allocation.Problem
import RegisterAllocator.Allocation.Queue
import RegisterAllocator.Allocation.Stats
import RegisterAllocator.Fault

/-!
# The search for registers

Webs are taken from the queue one after another. A web gets the first candidate register that is free over its ranges.
If none is, it takes the register whose occupants weigh least in sum, provided they weigh less than itself; they are
evicted and queue again. Otherwise the web is demoted, and demoted webs go to the stack. An occupant that has been
evicted as often as there are candidates keeps its register, so the search comes to an end.

The search decides only; what it decided is its trace.
-/

namespace RegisterAllocator

inductive Decision where
  | assign (web : Nat) (reg : PhysReg)
  | evict (web : Nat) (reg : PhysReg)
  | demote (web : Nat)
  | spill (web : Nat)
deriving DecidableEq, Repr

/-- The webs that hold each register, in the order in which they got it. -/
abbrev Occupancy := List (PhysReg × List Nat)

namespace Occupancy

def webs (o : Occupancy) (reg : PhysReg) : List Nat :=
  match o with
  | [] => []
  | (other, held) :: rest => if reg = other then held else webs rest reg

def update (o : Occupancy) (reg : PhysReg) (change : List Nat → List Nat) : Occupancy :=
  match o with
  | [] => [(reg, change [])]
  | (other, held) :: rest => if reg = other then (other, change held) :: rest else (other, held) :: update rest reg change

end Occupancy

/-- The state of a search. Who holds a register is written down with the web and with the register, and who waits in
the queue and in the list of the webs that are in it. -/
structure SearchState where
  /-- How far each web has come. -/
  stages : Array Stage
  /-- The register that each web holds. -/
  homes : Array (Option PhysReg)
  /-- How often each web has been evicted. -/
  evictions : Array Nat
  queue : List Ticket := []
  queued : List Nat := []
  occupancy : Occupancy := []
  hints : Hints
  /-- The decisions, latest first. -/
  trace : List Decision := []
  /-- What stopped the search, if anything did. -/
  fault : Option Fault := none

namespace SearchState

def stage (s : SearchState) (web : Nat) : Stage := s.stages[web]?.getD .done

def evictionCount (s : SearchState) (web : Nat) : Nat := s.evictions[web]?.getD 0

def home? (s : SearchState) (web : Nat) : Option PhysReg := s.homes[web]?.join

def occupants (s : SearchState) (reg : PhysReg) : List Nat := s.occupancy.webs reg

def isQueued (s : SearchState) (web : Nat) : Bool := web ∈ s.queued

def note (s : SearchState) (d : Decision) : SearchState := { s with trace := d :: s.trace }

def ticket (p : Problem) (s : SearchState) (web : Nat) : Ticket :=
  match p.webs[web]? with
  | some w =>
    { web, blocks := w.blockCount, insts := w.instCount, stage := s.stage web,
      hinted := s.hints.isCoalesced w.reg || s.hints.isHinted w.reg }
  | none => { web, blocks := 0, insts := 0, stage := s.stage web, hinted := false }

def enqueue (p : Problem) (s : SearchState) (web : Nat) : SearchState :=
  if s.isQueued web then s else { s with queued := web :: s.queued, queue := s.queue ++ [s.ticket p web] }

def dequeue? (s : SearchState) : Option (Nat × SearchState) :=
  (Ticket.pop? s.queue).map fun (ticket, queue) =>
    (ticket.web, { s with queue, queued := s.queued.filter (· ≠ ticket.web) })

def advance (p : Problem) (s : SearchState) (web : Nat) (stage : Stage) : SearchState :=
  { s with stages := s.stages.setIfInBounds web stage }.enqueue p web

def rivals (p : Problem) (s : SearchState) (web : Nat) (reg : PhysReg) : List Nat :=
  (s.occupants reg).filter (p.interfere web)

/-- Give a web a register. Its partner is asked to take the same one. -/
def assign (p : Problem) (s : SearchState) (web : Nat) (reg : PhysReg) : SearchState :=
  let partner? := p.webs[web]?.bind fun w => s.hints.partner? w.reg
  { s with
    homes := s.homes.setIfInBounds web (some reg)
    stages := s.stages.setIfInBounds web .assign
    occupancy := s.occupancy.update reg (· ++ [web])
    hints := match partner? with
      | some partner => s.hints.want partner reg
      | none => s.hints }.note (.assign web reg)

def evict (p : Problem) (s : SearchState) (reg : PhysReg) (web : Nat) : SearchState :=
  { s with
    occupancy := s.occupancy.update reg (·.filter (· ≠ web))
    homes := s.homes.setIfInBounds web none
    evictions := s.evictions.setIfInBounds web (s.evictionCount web + 1) }
    |>.note (.evict web reg) |>.enqueue p web

def demote (p : Problem) (s : SearchState) (web : Nat) : SearchState :=
  (s.note (.demote web)).advance p web .split

/-- A register that a web can get by evicting its rivals, with their weight in sum. -/
structure Offer where
  cost : Float
  reg : PhysReg
  rivals : List Nat

/-- What evicting the rivals of a web from a register costs, unless one of them may not be evicted. -/
def offer? (p : Problem) (s : SearchState) (web cap : Nat) (reg : PhysReg) : Option Offer :=
  if p.blocked web reg then none
  else
    let rivals := s.rivals p web reg
    if rivals.any fun rival => cap ≤ s.evictionCount rival then none
    else some { cost := Web.total (rivals.map p.weight), reg, rivals }

/-- The first of the cheapest offers. -/
def cheapest? (p : Problem) (s : SearchState) (web cap : Nat) (regs : List PhysReg) : Option Offer :=
  (regs.filterMap (s.offer? p web cap)).foldl (fun best offer =>
    match best with
    | none => some offer
    | some found => if offer.cost < found.cost then some offer else some found) none

def attempt (p : Problem) (s : SearchState) (web : Nat) : SearchState :=
  match p.webs[web]? with
  | none => { s with fault := some .missingRow }
  | some w =>
    let candidates := p.candidates s.hints w.reg
    match candidates.find? fun reg => !p.blocked web reg && (s.rivals p web reg).isEmpty with
    | some reg => s.assign p web reg
    | none =>
      match s.cheapest? p web candidates.length candidates with
      | none => s.demote p web
      | some offer =>
        if offer.cost < w.weight then (offer.rivals.foldl (evict p · offer.reg) s).assign p web offer.reg
        else s.demote p web

/-- Serve a web that has left the queue. Splitting is not done: what might be split goes to the stack. -/
def serve (p : Problem) (s : SearchState) (web : Nat) : SearchState :=
  match s.stage web with
  | .fresh | .assign => s.attempt p web
  | .split => s.advance p web .spill
  | .spill => { s with stages := s.stages.setIfInBounds web .done }.note (.spill web)
  | .done => { s with fault := some (.finishedWeb web) }

def step? (p : Problem) (s : SearchState) : Option SearchState :=
  if s.fault.isSome then none else s.dequeue?.map fun (web, s) => s.serve p web

def run (p : Problem) : Nat → SearchState → SearchState
  | 0, s => s
  | fuel + 1, s =>
    match s.step? p with
    | none => s
    | some next => run p fuel next

def start (p : Problem) : SearchState :=
  (List.range p.webs.size).foldl (enqueue p)
    { stages := Array.replicate p.webs.size .fresh, homes := Array.replicate p.webs.size none
      evictions := Array.replicate p.webs.size 0, hints := p.hints }

/-- The end of the search. A web is served once, once more after each eviction, of which there are at most as many as
registers, and twice on its way to the stack. -/
def finish (p : Problem) : SearchState := run p (p.webs.size * (PhysReg.allocatable.length + 3) + 1) (start p)

def decisions (s : SearchState) : List Decision := s.trace.reverse

end SearchState

def Problem.homed (p : Problem) (s : SearchState) : List (Web × PhysReg) :=
  p.webs.toList.zipIdx.filterMap fun (w, web) => (s.home? web).map fun reg => (w, reg)

def Problem.assignment (p : Problem) (s : SearchState) : VirtMap PhysReg :=
  (p.homed s).map fun (w, reg) => (w.reg, reg)

def Problem.spills (p : Problem) (decisions : List Decision) : List VirtReg :=
  decisions.filterMap fun decision =>
    match decision with
    | .spill web => p.webs[web]?.map Web.reg
    | _ => none

def Stats.ofDecisions (decisions : List Decision) : Stats :=
  decisions.foldl (fun stats decision =>
    match decision with
    | .assign .. => { stats with attempts := stats.attempts + 1 }
    | .evict .. => { stats with evictions := stats.evictions + 1 }
    | .demote _ => { stats with attempts := stats.attempts + 1, demotions := stats.demotions + 1 }
    | .spill _ => { stats with spilled := stats.spilled + 1 }) {}

end RegisterAllocator
