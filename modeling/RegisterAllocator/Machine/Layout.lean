import RegisterAllocator.Graph.Explore
import RegisterAllocator.Machine.Basic
import RegisterAllocator.Program.Basic

/-!
# Reading a function from a machine

The stored code of a function as a flow graph and as a body. The nodes of the graph are the blocks of the function by
position, and behind them every other slot of the machine's blocks, since a branch may lead out of its function.
Reading faults where a handle on the way names nothing.
-/

namespace RegisterAllocator.Machine

/-- The blocks that a function's flow graph may meet: those of its layout first. -/
def graphBlocks (m : Machine) (layout : List BlockId) : List BlockId :=
  layout ++ ((List.range m.blocks.capacity).map BlockId.mk).filter (· ∉ layout)

def fault? {α : Type} : Except Fault α → Option Fault
  | .ok _ => none
  | .error fault => some fault

/-- The flow graph of a function. It faults if the function has no entry or control may get to a released block. -/
def flowGraph (m : Machine) (f : FuncId) : Except Fault FlowGraph := do
  let layout ← m.layout f
  let blocks := m.graphBlocks layout
  if entry : 0 < layout.length ∧ 0 < blocks.length then
    let rows := blocks.map m.succs
    let g := FlowGraph.ofLists blocks.length ⟨0, entry.2⟩ <| rows.map fun row =>
      match row with
      | .ok succs => succs.map blocks.idxOf
      | .error _ => []
    match g.visitOrder.findSome? fun node => rows[node.val]?.bind fault? with
    | some fault => throw fault
    | none => pure g
  else throw .noEntryBlock

def instList (m : Machine) (f : FuncId) : Except Fault (List InstId) := do
  List.flatten <$> (← m.layout f).mapM m.code

def position (layout : List BlockId) (b : BlockId) : Except Fault Nat :=
  match layout.idxOf? b with
  | some position => .ok position
  | none => .error .missingRow

/-- The code of a function. It faults if control may leave the function by a branch; the blocks are checked
for that from the last to the first. -/
def body (m : Machine) (f : FuncId) : Except Fault Body := do
  let layout ← m.layout f
  let code ← layout.mapM m.code
  let insts ← code.mapM (List.mapM m.inst)
  let _ ← m.flowGraph f
  let _ ← layout.reverse.mapM fun b => do (← m.succs b).mapM (position layout)
  let blocks ← (layout.zip insts).mapM fun (b, insts) => do
    let insts ← insts.mapM (Inst.mapTargetM (position layout))
    return { label := ← m.label b, insts : Block }
  let exits ← layout.mapM fun b => do (← m.exit? b).mapM (position layout)
  let ids := code.flatten
  return { blocks, exits, cells := ids.map ids.idxOf }

def funcLabel (m : Machine) (f : FuncId) : Except Fault String := (·.label) <$> m.func f

end RegisterAllocator.Machine
