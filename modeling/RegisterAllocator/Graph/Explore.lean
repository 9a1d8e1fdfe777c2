import RegisterAllocator.Graph.Basic

/-!
# The reachable part of a graph

A walk from the entry finds the reachable nodes, with the edges between them in both directions and each edge once.
The walk takes the node that was found last, so predecessors are listed in the order in which the walk visits them.
-/

namespace RegisterAllocator.FlowGraph

/-- Visit the nodes found but not yet visited, the last found first. The visited nodes are listed latest first. -/
def walk (g : FlowGraph) : Nat → List g.Node → List g.Node → List g.Node
  | 0, _, visited | _, [], visited => visited
  | fuel + 1, node :: found, visited =>
    if node ∈ visited then walk g fuel found visited
    else
      let fresh := (g.distinctSuccs node).filter (· ∉ node :: visited)
      walk g fuel (fresh.reverse ++ found) (node :: visited)

def visitOrder (g : FlowGraph) : List g.Node := (g.walk (g.size + 1) [g.entry] []).reverse

structure Reachable (g : FlowGraph) where
  /-- The reachable nodes in the order of the walk. -/
  visited : List g.Node
  succTable : Vector (List g.Node) g.order
  /-- The reachable predecessors of each node, once each. -/
  predTable : Vector (List g.Node) g.order

def explore (g : FlowGraph) : Reachable g :=
  let visited := g.visitOrder
  let succTable := Vector.ofFn g.distinctSuccs
  { visited, succTable,
    predTable := Vector.ofFn fun node => visited.filter fun source => node ∈ succTable[source] }

namespace Reachable

variable {g : FlowGraph}

def contains (r : Reachable g) (node : g.Node) : Bool := r.visited.contains node

def succs? (r : Reachable g) (node : g.Node) : Option (List g.Node) :=
  if r.contains node then some r.succTable[node] else none

def preds? (r : Reachable g) (node : g.Node) : Option (List g.Node) :=
  if r.contains node then some r.predTable[node] else none

def succs (r : Reachable g) (node : g.Node) : List g.Node := (r.succs? node).getD []

def preds (r : Reachable g) (node : g.Node) : List g.Node := (r.preds? node).getD []

end Reachable

end RegisterAllocator.FlowGraph
