/-!
# Statistics

What one or more allocations did, in numbers.
-/

namespace RegisterAllocator

structure Stats where
  /-- The virtual registers to allocate. -/
  webs : Nat := 0
  /-- Those that got a register. -/
  assigned : Nat := 0
  /-- Those that went to the stack. -/
  spilled : Nat := 0
  evictions : Nat := 0
  /-- The searches for a register, those after an eviction included. -/
  attempts : Nat := 0
  demotions : Nat := 0
  loadsAdded : Nat := 0
  storesAdded : Nat := 0
  movesRemoved : Nat := 0
deriving DecidableEq, Repr

namespace Stats

def add (a b : Stats) : Stats where
  webs := a.webs + b.webs
  assigned := a.assigned + b.assigned
  spilled := a.spilled + b.spilled
  evictions := a.evictions + b.evictions
  attempts := a.attempts + b.attempts
  demotions := a.demotions + b.demotions
  loadsAdded := a.loadsAdded + b.loadsAdded
  storesAdded := a.storesAdded + b.storesAdded
  movesRemoved := a.movesRemoved + b.movesRemoved

/-- The text of the counts; attempts and demotions are left out. -/
def text (s : Stats) : String :=
  ", ".intercalate
    ["alloc ids: " ++ toString s.webs, "assigned: " ++ toString s.assigned, "spilled: " ++ toString s.spilled,
      "evictions: " ++ toString s.evictions, "loads: " ++ toString s.loadsAdded,
      "stores: " ++ toString s.storesAdded, "moves removed: " ++ toString s.movesRemoved]

end Stats

end RegisterAllocator
