import RegisterAllocator.Graph.Dominance

/-!
# Loop weights

An edge back to a node that dominates its source closes a loop. Its body is the target and every node from which the
source is reached without passing the target. A node weighs one, times a factor for each loop that it is in; that
estimates how often the node runs.
-/

namespace RegisterAllocator.FlowGraph

variable {g : FlowGraph}

/-- The edges back to a dominating node, as source and target. -/
def backEdges (r : Reachable g) (d : Dominance g) : List (g.Node × g.Node) :=
  d.rpo.flatMap fun latch =>
    ((r.succs latch).filter (d.dominates · latch)).map fun header => (latch, header)

def spread (r : Reachable g) : Nat → List g.Node → List g.Node → List g.Node
  | 0, _, body | _, [], body => body
  | fuel + 1, node :: found, body =>
    let fresh := (r.preds node).filter (· ∉ body)
    spread r fuel (fresh ++ found) (fresh ++ body)

/-- The body of the loop that an edge back from `latch` to `header` closes. -/
def loopBody (r : Reachable g) (latch header : g.Node) : List g.Node :=
  if latch = header then [header] else spread r g.order [latch] [latch, header]

structure Weights (g : FlowGraph) where
  /-- The edges that close loops. -/
  backEdges : List (g.Node × g.Node)
  /-- The bodies of those loops. -/
  bodies : List (List g.Node)
  factor : Float

def weights (r : Reachable g) (d : Dominance g) (factor : Float) : Weights g :=
  let edges := backEdges r d
  { backEdges := edges, bodies := edges.map fun (latch, header) => loopBody r latch header, factor }

def Weights.weight (w : Weights g) (node : g.Node) : Float :=
  w.bodies.foldl (fun weight body => if node ∈ body then weight * w.factor else weight) 1.0

def weigh (g : FlowGraph) (factor : Float) : Weights g :=
  let r := g.explore
  weights r (g.dominance r) factor

end RegisterAllocator.FlowGraph
