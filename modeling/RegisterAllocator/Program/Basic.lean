import RegisterAllocator.Inst.Basic

/-!
# Programs as lists

The code of a function as a list of labelled blocks in which a branch names the position of its target, and the body
that the analyses and the allocation are functions of: the blocks, where control goes from the end of each, and which
instructions are one and the same.
-/

namespace RegisterAllocator

/-- A labelled block; branch targets are positions among the blocks that the block is one of. -/
structure Block where
  label : String
  insts : List (Inst Nat)
deriving DecidableEq, Repr

structure Function where
  label : String
  /-- The size of the stack frame in bytes. -/
  frame : UInt64
  /-- The blocks in layout order, the entry first. -/
  blocks : List Block
deriving DecidableEq, Repr

inductive Item where
  /-- A function defined elsewhere. -/
  | external (label : String)
  | function (function : Function)
deriving DecidableEq, Repr

abbrev Program := List Item

namespace Block

def fallsThrough (block : Block) : Bool :=
  match block.insts.getLast? with
  | some last => last.fallsThrough
  | none => true

def targets (block : Block) : List Nat := block.insts.flatMap Inst.targets

/-- Where control goes from the end of the block at a position: to the next block, if the end can be reached and there
is one. -/
def exit? (blocks : List Block) (position : Nat) : Option Nat := do
  let block ← blocks[position]?
  guard (block.fallsThrough ∧ position + 1 < blocks.length)
  return position + 1

end Block

/-- The code of a function. An instruction's number is its place in layout order. -/
structure Body where
  /-- The blocks in layout order, the entry first. -/
  blocks : List Block
  /-- Where control goes from the end of each block, by position. -/
  exits : List (Option Nat)
  /-- What each instruction is stored as, by number: the first number of the same stored instruction. Stored chains
  may run together, and then an instruction has several numbers. -/
  cells : List Nat
deriving DecidableEq, Repr

structure Site where
  number : Nat
  cell : Nat
deriving DecidableEq, Repr

namespace Body

def insts (body : Body) : List (Inst Nat) := body.blocks.flatMap Block.insts

/-- The body of blocks that share nothing. -/
def ofBlocks (blocks : List Block) : Body where
  blocks := blocks
  exits := (List.range blocks.length).map (Block.exit? blocks)
  cells := List.range (blocks.flatMap Block.insts).length

def size (body : Body) : Nat := body.blocks.length

def label (body : Body) (position : Nat) : String := (body.blocks[position]?.map Block.label).getD ""

/-- The positions that control may go to from the block at a position: the targets of its branches, then where it goes
from the end. -/
def succs (body : Body) (position : Nat) : List Nat :=
  (body.blocks[position]?.map Block.targets).getD [] ++ body.exits[position]?.join.toList

def numbered (body : Body) : List (Nat × Block) := go 0 body.blocks
where
  go : Nat → List Block → List (Nat × Block)
    | _, [] => []
    | first, block :: rest => (first, block) :: go (first + block.insts.length) rest

end Body

end RegisterAllocator
