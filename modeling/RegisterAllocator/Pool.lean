import RegisterAllocator.Fault

/-!
# Slot pools

A pool keeps values in numbered slots. A slot that is released becomes vacant, and a new value takes the slot
that has been vacant longest, or a new slot at the end if none is vacant. A number therefore names a value only
as long as its slot stays occupied; afterwards it names nothing, and later perhaps another value.
-/

namespace RegisterAllocator

/-- Values in numbered slots, and the vacant slots in the order in which they were released. -/
structure Pool (α : Type) where
  slots : Array (Option α) := #[]
  vacant : List Nat := []

namespace Pool

variable {α : Type}

/-- The number of slots, occupied or vacant. -/
def capacity (p : Pool α) : Nat := p.slots.size

def size (p : Pool α) : Nat := p.slots.size - p.vacant.length

def isEmpty (p : Pool α) : Bool := p.size == 0

def get? (p : Pool α) (i : Nat) : Option α := p.slots[i]?.join

def get (p : Pool α) (i : Nat) : Except Fault α :=
  match p.get? i with
  | some a => .ok a
  | none => .error .vacantSlot

def contains (p : Pool α) (i : Nat) : Bool := (p.get? i).isSome

def nextSlot (p : Pool α) : Nat := p.vacant.headD p.slots.size

/-- Insert the value that `f` gives for its own slot. -/
def insertWith (p : Pool α) (f : Nat → α) : Pool α :=
  match p.vacant with
  | [] => { p with slots := p.slots.push (some (f p.slots.size)) }
  | i :: rest => { slots := p.slots.setIfInBounds i (some (f i)), vacant := rest }

def insert (p : Pool α) (a : α) : Pool α := p.insertWith fun _ => a

/-- Replace the value of an occupied slot; a vacant slot stays vacant. -/
def set (p : Pool α) (i : Nat) (a : α) : Pool α :=
  if p.contains i then { p with slots := p.slots.setIfInBounds i (some a) } else p

def modify (p : Pool α) (i : Nat) (f : α → α) : Except Fault (Pool α) := do
  let a ← p.get i
  pure (p.set i (f a))

def erase (p : Pool α) (i : Nat) : Except Fault (Pool α) :=
  if p.contains i then
    .ok { slots := p.slots.setIfInBounds i none, vacant := p.vacant ++ [i] }
  else
    .error .releasedTwice

def toList (p : Pool α) : List (Nat × α) :=
  (List.range p.slots.size).filterMap fun i => (p.get? i).map fun a => (i, a)

end Pool

end RegisterAllocator
