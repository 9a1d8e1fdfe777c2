import RegisterAllocator.Chain.Basic

/-!
# Boards

A board has numbered nodes and numbered lists and nothing else: the smallest store of chains.
-/

namespace RegisterAllocator

structure Board where
  nodes : Array (Links Nat Nat) := #[]
  lists : Array (Ends Nat) := #[]

namespace Board

def blank (lists nodes : Nat) : Board where
  nodes := Array.replicate nodes {}
  lists := Array.replicate lists {}

instance : Chained Board Nat Nat where
  links? b node := b.nodes[node]?
  setLinks b node links := { b with nodes := b.nodes.setIfInBounds node links }
  ends? b list := b.lists[list]?
  setEnds b list ends := { b with lists := b.lists.setIfInBounds list ends }
  capacity b := b.nodes.size

end Board

end RegisterAllocator
