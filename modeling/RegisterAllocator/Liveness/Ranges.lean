import RegisterAllocator.Liveness.Blocks
import RegisterAllocator.Register.Map

/-!
# Live ranges

A live range of a register is an interval of instruction numbers within one block, both ends included, over which the
register holds one value that is read later or written only. A block is scanned backwards: a read opens a range unless
one is open, a write closes it, and what is open at the start of the block is live from there on.
-/

namespace RegisterAllocator

structure LiveRange where
  /-- The position of the block. -/
  block : Nat
  start : Nat
  stop : Nat
  /-- The number of instructions in the interval that read or write the register. -/
  count : Nat
deriving DecidableEq, Repr

namespace LiveRange

/-- Whether two ranges overlap. Ranges that only touch, one ending where the other starts, do not. -/
def conflicts (a b : LiveRange) : Bool :=
  (b.start ≤ a.start && a.start < b.stop) || (b.start < a.stop && a.stop ≤ b.stop) ||
    (a.start ≤ b.start && b.stop ≤ a.stop)

def anyConflict (as bs : List LiveRange) : Bool := as.any fun a => bs.any a.conflicts

def text (r : LiveRange) : String :=
  "[" ++ toString r.start ++ ", " ++ toString r.stop ++ "]x" ++ toString r.count

/-- Put a range into a list sorted by start, behind those with the same start. -/
def place (r : LiveRange) : List LiveRange → List LiveRange
  | [] => [r]
  | first :: rest => if first.start ≤ r.start then first :: place r rest else r :: first :: rest

def sort (ranges : List LiveRange) : List LiveRange := ranges.foldl (fun sorted r => r.place sorted) []

def numbers (r : LiveRange) : List Nat := List.range' r.start (r.stop + 1 - r.start)

end LiveRange

/-- An open range: where it ends, and how many instructions of it have been met. -/
structure OpenRange where
  stop : Nat
  count : Nat
deriving DecidableEq, Repr

namespace OpenRange

/-- Close a range, if one is open, at the write with number `number`. -/
def closed (block number : Nat) : Option OpenRange → LiveRange
  | some r => { block, start := number, stop := r.stop, count := r.count + 1 }
  | none => { block, start := number, stop := number, count := 1 }

/-- Count the read with number `number`, which opens a range unless one is open. -/
def read (number : Nat) : Option OpenRange → OpenRange
  | some r => { r with count := r.count + 1 }
  | none => { stop := number, count := 1 }

end OpenRange

/-- What a backward scan has found: the ranges that are open where it stands, and those that are closed. -/
structure RangeScan where
  pending : RegMap OpenRange
  ranges : RegMap (List LiveRange)

namespace RangeScan

variable {τ : Type}

def push (s : RangeScan) (reg : Reg) (r : LiveRange) : RangeScan :=
  { s with ranges := s.ranges.insert reg ((s.ranges.find? reg).getD [] ++ [r]) }

def write (block number : Nat) (s : RangeScan) (reg : Reg) : RangeScan :=
  { s with pending := s.pending.erase reg }.push reg (OpenRange.closed block number (s.pending.find? reg))

def read (number : Nat) (s : RangeScan) (reg : Reg) : RangeScan :=
  { s with pending := s.pending.insert reg (OpenRange.read number (s.pending.find? reg)) }

/-- Go back over an instruction, which writes after it has read. -/
def pass (tracked : Reg → Bool) (block : Nat) (s : RangeScan) (inst : Inst τ) (number : Nat) : RangeScan :=
  let s := (inst.defs.filter tracked).eraseDups.foldl (write block number) s
  (inst.uses.filter tracked).eraseDups.foldl (read number) s

def block (tracked : Reg → Bool) (position first : Nat) (out : RegSet) (insts : List (Inst τ))
    (ranges : RegMap (List LiveRange)) : RegMap (List LiveRange) :=
  if insts.isEmpty then ranges
  else
    let atExit : OpenRange := { stop := first + insts.length - 1, count := 0 }
    let pending := out.toList.foldl (fun pending reg => pending.insert reg atExit) ∅
    let s := (insts.zipIdx first).foldr (fun (inst, number) s => s.pass tracked position inst number)
      { pending, ranges : RangeScan }
    -- what is open now is live from the start of the block on
    (s.pending.rows.foldl (fun s (reg, r) =>
      s.push reg { block := position, start := first, stop := r.stop, count := r.count }) s).ranges

def body (tracked : Reg → Bool) (body : Body) (outs : List RegSet) : RegMap (List LiveRange) :=
  (body.numbered.zip outs).zipIdx.foldl (fun ranges (((first, block), out), position) =>
    RangeScan.block tracked position first out block.insts ranges) ∅

end RangeScan

structure LiveRanges where
  liveness : Liveness
  /-- The ranges of each register that has any, in the order of registers. -/
  table : List (Reg × List LiveRange)

namespace LiveRanges

def ofBody (tracked : Reg → Bool) (body : Body) : LiveRanges :=
  let liveness := Liveness.ofBody tracked body
  { liveness
    table := (RangeScan.body tracked body liveness.outs).rows.map fun (reg, ranges) => (reg, LiveRange.sort ranges) }

def ranges (live : LiveRanges) (reg : Reg) : List LiveRange := (live.table.lookup reg).getD []

def bounds (body : Body) : List (Option (Nat × Nat)) :=
  body.numbered.map fun (first, block) =>
    if block.insts.isEmpty then none else some (first, first + block.insts.length - 1)

def rangesText (body : Body) (ranges : List LiveRange) : String :=
  String.join <| ranges.map fun r => " " ++ r.text ++ "@" ++ body.label r.block

def text (live : LiveRanges) (body : Body) : String :=
  String.join <| live.table.map fun (reg, ranges) => reg.name ++ ":" ++ rangesText body ranges ++ "\n"

end LiveRanges

end RegisterAllocator
