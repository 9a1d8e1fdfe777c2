/-!
# Faults

Operations on stored code have preconditions: a handle names an occupied slot, a node is linked in at
most one container, a counter has room. A `Fault` names the precondition that was not met. An operation that
faults leaves the store as it was, since it returns no new one.
-/

namespace RegisterAllocator

/-- A precondition of a store operation that does not hold. -/
inductive Fault where
  /-- The handle names no occupied slot. -/
  | vacantSlot
  /-- The slot to release is not occupied. -/
  | releasedTwice
  /-- The node to push is already linked in a container. -/
  | alreadyLinked
  /-- The anchor to insert after is in no container. -/
  | looseAnchorAfter
  /-- The anchor to insert before is in no container. -/
  | looseAnchorBefore
  /-- The node to insert already belongs to a container. -/
  | alreadyOwned
  /-- The function has no entry block. -/
  | noEntryBlock
  /-- A fixed-width counter has no room left. -/
  | overflow
  /-- A table has no row for the node asked for. -/
  | missingRow
  /-- A chain of immediate dominators ends before it meets another. -/
  | brokenChain
  /-- A chain of immediate dominators ends before the immediate dominator of a join. -/
  | passedEntry
  /-- A number is beyond the instructions of the function. -/
  | beyondNumbering
  /-- A web that is already on the stack waits in the queue. -/
  | finishedWeb (web : Nat)
deriving DecidableEq, Repr

def Fault.message : Fault → String
  | vacantSlot => "the arena pointer is invalid"
  | releasedTwice => "the arena pointer is invalid, double free may occur"
  | alreadyLinked => "the node is already in another container"
  | looseAnchorAfter => "cannot insert after a node without container"
  | looseAnchorBefore => "cannot insert before a node without container"
  | alreadyOwned => "cannot insert a node that already belongs to a container"
  | noEntryBlock => "entry block of machine function not found"
  | overflow => "attempt to add with overflow"
  | missingRow => "no entry found for key"
  | brokenChain => "intersecting with a node whose idom is not processed"
  | passedEntry => "walk passed the entry before the idom"
  | beyondNumbering => "instruction number out of the numbering"
  | finishedWeb web =>
    "internal error: entered unreachable code: finished allocation unit #" ++ toString web ++ " in queue"

end RegisterAllocator
