/-!
# Flow graphs

A finite graph with an entry. The nodes are numbered, and each has a list of successors in which a node may occur
more than once.
-/

namespace RegisterAllocator

structure FlowGraph where
  /-- The number of nodes. -/
  order : Nat
  entry : Fin order
  succs : Fin order → List (Fin order)

namespace FlowGraph

abbrev Node (g : FlowGraph) := Fin g.order

instance (g : FlowGraph) : LawfulBEq g.Node := inferInstance

/-- A vector with a place for each node is indexed by the nodes. -/
instance (g : FlowGraph) (α : Type) : GetElem (Vector α g.order) g.Node α fun _ _ => True where
  getElem values node _ := values.get node

@[simp]
theorem getElem_node {g : FlowGraph} {α : Type} (values : Vector α g.order) (node : g.Node) :
    values[node] = values[node.val] := rfl

def nodes (g : FlowGraph) : List g.Node := List.finRange g.order

def distinctSuccs (g : FlowGraph) (node : g.Node) : List g.Node := (g.succs node).eraseDups

/-- The number of edges, counted with repetitions. -/
def size (g : FlowGraph) : Nat := (g.nodes.flatMap g.succs).length

def node? (order number : Nat) : Option (Fin order) :=
  if h : number < order then some ⟨number, h⟩ else none

/-- The graph with the given successor lists; numbers that are no nodes are left out. -/
def ofLists (order : Nat) (entry : Fin order) (lists : List (List Nat)) : FlowGraph :=
  let table := (lists.map fun list => list.filterMap (node? order)).toArray
  { order, entry, succs := fun node => table[node.val]?.getD [] }

def ofEdges (order : Nat) (entry : Fin order) (edges : List (Nat × Nat)) : FlowGraph :=
  ofLists order entry <| (List.range order).map fun node =>
    edges.filterMap fun (source, target) => if source = node then some target else none

end FlowGraph

end RegisterAllocator
