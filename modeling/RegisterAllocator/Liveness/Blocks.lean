import RegisterAllocator.Program.Flow
import RegisterAllocator.Register.Convention
import RegisterAllocator.Register.Name
import RegisterAllocator.Register.Set

/-!
# Block liveness

Which registers hold a value that is still read, at the start and at the end of each block. A block is summarised by
the registers that it reads before it writes them and by those that it writes. The live registers are the least
solution of the equations

* live-out of a block is the union of live-in of its successors,
* live-in of a block is what it reads first, and what is live-out and not written,

found by passes over the blocks in reverse order until a pass changes nothing. The analysis follows the registers that
a predicate selects.
-/

namespace RegisterAllocator

structure Summary where
  /-- The registers read before they are written. -/
  uses : RegSet
  /-- The registers written. -/
  defs : RegSet
deriving DecidableEq

namespace Summary

variable {τ : Type}

def followed (tracked : Reg → Bool) (regs : List Reg) : RegSet := RegSet.empty.insertAll (regs.filter tracked)

def ofInsts (tracked : Reg → Bool) : List (Inst τ) → Summary
  | [] => ⟨∅, ∅⟩
  | inst :: rest =>
    let after := ofInsts tracked rest
    let defs := followed tracked inst.defs
    { uses := (followed tracked inst.uses).union (after.uses.diff defs), defs := defs.union after.defs }

def transfer (s : Summary) (out : RegSet) : RegSet := s.uses.union (out.diff s.defs)

end Summary

structure FlowRow where
  summary : Summary
  succs : List Nat

/-- The live registers at the start of each block, by position. -/
abbrev LiveIns := Array RegSet

namespace LiveIns

def out (ins : LiveIns) (succs : List Nat) : RegSet :=
  succs.foldl (fun live position => live.union (ins[position]?.getD ∅)) ∅

/-- One pass over the rows, the last first; `position` is the position of the first row. -/
def pass (position : Nat) : List FlowRow → LiveIns → LiveIns
  | [], ins => ins
  | row :: rest, ins =>
    let ins := pass (position + 1) rest ins
    ins.setIfInBounds position (row.summary.transfer (ins.out row.succs))

def settle (rows : List FlowRow) : Nat → LiveIns → LiveIns
  | 0, ins => ins
  | fuel + 1, ins =>
    let next := ins.pass 0 rows
    if next = ins then ins else settle rows fuel next

end LiveIns

structure Liveness where
  summaries : List Summary
  ins : List RegSet
  outs : List RegSet

namespace Liveness

def regs (tracked : Reg → Bool) (body : Body) : RegSet :=
  body.insts.foldl (fun found inst => found.insertAll ((inst.uses ++ inst.defs).filter tracked)) ∅

/-- The blocks for the analysis. A block that is not reachable takes part too, since its registers are allocated as
well. -/
def rows (tracked : Reg → Bool) (body : Body) : List FlowRow :=
  (body.blocks.zip body.flowSuccs).map fun (block, succs) => ⟨.ofInsts tracked block.insts, succs⟩

/-- The liveness of a body for the registers that `tracked` selects. Every pass but the last makes a set larger, so the
passes come to an end within the bound. -/
def ofBody (tracked : Reg → Bool) (body : Body) : Liveness :=
  let rows := rows tracked body
  let ins := LiveIns.settle rows (body.size * (regs tracked body).size + 1) (Array.replicate body.size ∅)
  { summaries := rows.map FlowRow.summary, ins := ins.toList, outs := rows.map fun row => ins.out row.succs }

def regsText (regs : RegSet) : String := ", ".intercalate (regs.toList.map Reg.name)

def blockLines (body : Body) (first second : String) (sets : List (RegSet × RegSet)) : String :=
  String.join <| (body.blocks.zip sets).map fun (block, one, two) =>
    block.label ++ " " ++ first ++ ": " ++ regsText one ++ "\n" ++
      block.label ++ " " ++ second ++ ": " ++ regsText two ++ "\n"

def summaryText (live : Liveness) (body : Body) : String :=
  blockLines body "uses" "defs" (live.summaries.map fun s => (s.uses, s.defs))

def text (live : Liveness) (body : Body) : String := blockLines body "in" "out" (live.ins.zip live.outs)

end Liveness

end RegisterAllocator
