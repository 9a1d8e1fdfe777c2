/-!
# The queue of webs

Webs wait with a ticket that says when they are served: webs of fewer blocks first, then those of fewer instructions,
then those that are further on, then those that copies ask for, then by number.
-/

namespace RegisterAllocator

inductive Stage where
  /-- It has not been looked at. -/
  | fresh
  /-- It has had a register. -/
  | assign
  /-- It got none; it might be split. -/
  | split
  /-- It is to go to the stack. -/
  | spill
  /-- It is on the stack. -/
  | done
deriving DecidableEq, Repr

def Stage.rank : Stage → Nat
  | fresh => 0
  | assign => 1
  | split => 2
  | spill => 3
  | done => 4

structure Ticket where
  web : Nat
  blocks : Nat
  insts : Nat
  stage : Stage
  hinted : Bool
deriving DecidableEq, Repr

namespace Ticket

/-- Tickets are served in ascending order of their keys. -/
def key (t : Ticket) : List Nat := [t.blocks, t.insts, 4 - t.stage.rank, if t.hinted then 0 else 1, t.web]

def before (a b : Ticket) : Bool := a.key < b.key

def pop? : List Ticket → Option (Ticket × List Ticket)
  | [] => none
  | t :: rest =>
    match pop? rest with
    | none => some (t, [])
    | some (first, others) => if t.before first then some (t, rest) else some (first, t :: others)

end Ticket

end RegisterAllocator
