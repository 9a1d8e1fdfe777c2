import RegisterAllocator.Graph.Loops
import RegisterAllocator.Program.Basic

/-!
# The flow graph of a body

The blocks of a body are the nodes of its flow graph, numbered by position.
-/

namespace RegisterAllocator.Body

def graph (body : Body) (nonempty : 0 < body.size) : FlowGraph :=
  .ofLists body.size ⟨0, nonempty⟩ ((List.range body.size).map body.succs)

/-- The successors of each block, by position: of a reachable block as the walk from the entry finds them, each once, and
of another block as they are. -/
def flowSuccs (body : Body) : List (List Nat) :=
  if nonempty : 0 < body.size then
    let g := body.graph nonempty
    let r := g.explore
    g.nodes.map fun node =>
      match r.succs? node with
      | some succs => succs.map Fin.val
      | none => body.succs node.val
  else []

def blockWeights (body : Body) (factor : Float) : List Float :=
  if nonempty : 0 < body.size then
    let g := body.graph nonempty
    let weights := g.weigh factor
    g.nodes.map weights.weight
  else []

def flowFault (body : Body) : Option Fault :=
  if nonempty : 0 < body.size then
    let g := body.graph nonempty
    let r := g.explore
    let d := g.dominance r
    match d.fault, FlowGraph.NodeLists.frontiers r d.idoms d.rpo with
    | some fault, _ | none, .error fault => some fault
    | none, .ok _ => none
  else none

end RegisterAllocator.Body
