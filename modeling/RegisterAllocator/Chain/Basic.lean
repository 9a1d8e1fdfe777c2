import RegisterAllocator.Fault

/-!
# Chains

A chain is a sequence of nodes held by a container. The container stores its two ends, and each node stores its
two neighbours and its container, so that linking or unlinking a node touches its neighbours only. The functions
here work on any store that offers those records through `Chained`: the instructions of a block, the blocks of a
function and free-standing lists are three such stores.
-/

namespace RegisterAllocator

/-- Where a node stands: its neighbours and the container that holds it. -/
structure Links (ν κ : Type) where
  next : Option ν := none
  prev : Option ν := none
  owner : Option κ := none
deriving DecidableEq, Repr

structure Ends (ν : Type) where
  head : Option ν := none
  tail : Option ν := none
deriving DecidableEq, Repr

/-- The ends of a container once `node`, which stands at `place`, is taken out. -/
def Ends.without {ν κ : Type} [DecidableEq ν] (ends : Ends ν) (node : ν) (place : Links ν κ) :
    Ends ν where
  head := if ends.head = some node then place.next else ends.head
  tail := if ends.tail = some node then place.prev else ends.tail

/-- A store `σ` that keeps links for nodes `ν` and ends for containers `κ`. -/
class Chained (σ ν κ : Type) where
  /-- The links of a node, if the store has the node. -/
  links? : σ → ν → Option (Links ν κ)
  /-- Replace the links of a node that the store has. -/
  setLinks : σ → ν → Links ν κ → σ
  /-- The ends of a container, if the store has the container. -/
  ends? : σ → κ → Option (Ends ν)
  /-- Replace the ends of a container that the store has. -/
  setEnds : σ → κ → Ends ν → σ
  /-- No chain of the store has more nodes than this. -/
  capacity : σ → Nat

namespace Chain

variable {σ ν κ : Type} [Chained σ ν κ]

def links (s : σ) (node : ν) : Except Fault (Links ν κ) :=
  match Chained.links? s node with
  | some found => .ok found
  | none => .error .vacantSlot

def ends (s : σ) (container : κ) : Except Fault (Ends ν) :=
  match Chained.ends? s container with
  | some found => .ok found
  | none => .error .vacantSlot

def relink (s : σ) (node : ν) (change : Links ν κ → Links ν κ) : Except Fault σ := do
  pure (Chained.setLinks s node (change (← links s node)))

def reframe (s : σ) (container : κ) (change : Ends ν → Ends ν) : Except Fault σ := do
  pure (Chained.setEnds s container (change (← ends s container)))

def insertAfter (s : σ) (anchor node : ν) : Except Fault σ := do
  let place : Links ν κ ← links s anchor
  let some owner := place.owner | .error .looseAnchorAfter
  let loose : Links ν κ ← links s node
  if loose.owner.isSome then .error .alreadyOwned
  let s ← match place.next with
    | some next => do
      let s ← relink (κ := κ) s next ({ · with prev := some node })
      relink (κ := κ) s node ({ · with next := some next })
    | none => reframe s owner ({ · with tail := some node })
  let s ← relink (κ := κ) s node ({ · with prev := some anchor })
  let s ← relink (κ := κ) s anchor ({ · with next := some node })
  relink s node ({ · with owner := some owner })

def insertBefore (s : σ) (anchor node : ν) : Except Fault σ := do
  let place : Links ν κ ← links s anchor
  let some owner := place.owner | .error .looseAnchorBefore
  let loose : Links ν κ ← links s node
  if loose.owner.isSome then .error .alreadyOwned
  let s ← match place.prev with
    | some prev => do
      let s ← relink (κ := κ) s prev ({ · with next := some node })
      relink (κ := κ) s node ({ · with prev := some prev })
    | none => reframe s owner ({ · with head := some node })
  let s ← relink (κ := κ) s node ({ · with next := some anchor })
  let s ← relink (κ := κ) s anchor ({ · with prev := some node })
  relink s node ({ · with owner := some owner })

def pushOnly (s : σ) (container : κ) (node : ν) : Except Fault σ := do
  let s ← reframe s container ({ · with head := some node })
  let s ← reframe s container ({ · with tail := some node })
  relink s node ({ · with owner := some container })

def pushFront (s : σ) (container : κ) (node : ν) : Except Fault σ := do
  let loose : Links ν κ ← links s node
  if loose.owner.isSome then .error .alreadyLinked
  let found : Ends ν ← ends s container
  match found.head with
  | some head => insertBefore (κ := κ) s head node
  | none => pushOnly s container node

def pushBack (s : σ) (container : κ) (node : ν) : Except Fault σ := do
  let loose : Links ν κ ← links s node
  if loose.owner.isSome then .error .alreadyLinked
  let found : Ends ν ← ends s container
  match found.tail with
  | some tail => insertAfter (κ := κ) s tail node
  | none => pushOnly s container node

section Unlink

variable [DecidableEq ν]

/-- Take a node out of its chain. A node that is in no chain stays as it is. -/
def unlink (s : σ) (node : ν) : Except Fault σ := do
  let place : Links ν κ ← links s node
  let s ← match place.prev with
    | some prev => relink (κ := κ) s prev ({ · with next := place.next })
    | none => pure s
  let s ← match place.next with
    | some next => relink (κ := κ) s next ({ · with prev := place.prev })
    | none => pure s
  let s ← match place.owner with
    | some owner => reframe s owner (·.without node place)
    | none => pure s
  relink s node fun _ => ({} : Links ν κ)

end Unlink

/-! ## Traversal -/

/-- What is left of a traversal from both sides: the next node from the front and from the back. -/
structure Cursor (ν : Type) where
  front : Option ν
  back : Option ν
deriving DecidableEq, Repr

inductive Side where
  | front
  | back
deriving DecidableEq, Repr

namespace Cursor

variable [DecidableEq ν]

def start (s : σ) (container : κ) : Except Fault (Cursor ν) := do
  let found : Ends ν ← ends s container
  pure ⟨found.head, found.tail⟩

/-- Take the next node from the front. The traversal ends when both sides meet. -/
def next (κ : Type) [Chained σ ν κ] (s : σ) (c : Cursor ν) : Except Fault (Option (ν × Cursor ν)) :=
  match c.front with
  | none => .ok none
  | some node =>
    if c.back = some node then .ok (some (node, ⟨none, none⟩))
    else do
      let place : Links ν κ ← links s node
      pure (some (node, { c with front := place.next }))

def nextBack (κ : Type) [Chained σ ν κ] (s : σ) (c : Cursor ν) :
    Except Fault (Option (ν × Cursor ν)) :=
  match c.back with
  | none => .ok none
  | some node =>
    if c.front = some node then .ok (some (node, ⟨none, none⟩))
    else do
      let place : Links ν κ ← links s node
      pure (some (node, { c with back := place.prev }))

def pull (κ : Type) [Chained σ ν κ] (s : σ) (side : Side) (c : Cursor ν) : Except Fault (Option (ν × Cursor ν)) :=
  match side with
  | .front => c.next κ s
  | .back => c.nextBack κ s

def pulls (κ : Type) [Chained σ ν κ] (s : σ) : List Side → Cursor ν → Except Fault (List (Option ν))
  | [], _ => .ok []
  | side :: rest, c => do
    match ← c.pull κ s side with
    | some (node, c) => return some node :: (← pulls κ s rest c)
    | none => return none :: (← pulls κ s rest c)

def drain (pull : Cursor ν → Except Fault (Option (ν × Cursor ν))) :
    Nat → Cursor ν → Except Fault (List ν)
  | 0, _ => .ok []
  | fuel + 1, c => do
    match ← pull c with
    | none => pure []
    | some (node, rest) => return node :: (← drain pull fuel rest)

end Cursor

section Listing

variable [DecidableEq ν]

def toList (s : σ) (container : κ) : Except Fault (List ν) := do
  Cursor.drain (Cursor.next κ s) (Chained.capacity ν κ s + 1) (← Cursor.start s container)

def toListBack (s : σ) (container : κ) : Except Fault (List ν) := do
  Cursor.drain (Cursor.nextBack κ s) (Chained.capacity ν κ s + 1) (← Cursor.start s container)

end Listing

def following (κ : Type) [Chained σ ν κ] (s : σ) (start : Option ν) : Except Fault (List ν) :=
  go (Chained.capacity ν κ s) start
where
  go : Nat → Option ν → Except Fault (List ν)
    | 0, _ | _, none => .ok []
    | fuel + 1, some node => do
      let place : Links ν κ ← links s node
      return node :: (← go fuel place.next)

end Chain

end RegisterAllocator
