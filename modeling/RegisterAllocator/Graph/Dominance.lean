import RegisterAllocator.Fault
import RegisterAllocator.Graph.DepthFirst
import RegisterAllocator.Graph.Explore

/-!
# Dominance

A node dominates another if every path from the entry to the other goes through it. Immediate dominators are found
by passes over the nodes in reverse postorder: the immediate dominator of a node is where the chains of its
predecessors meet, and passes are made until none changes anything.
-/

namespace RegisterAllocator.FlowGraph

abbrev Idoms (g : FlowGraph) := Vector (Option g.Node) g.order

namespace Idoms

variable {g : FlowGraph}

/-- The table with another value for the node with a number. A number that is no node changes nothing. -/
def set (idoms : Idoms g) (number : Nat) (value : Option g.Node) : Idoms g := idoms.setIfInBounds number value

/-- Where the chains of two nodes meet. The node that is left first climbs. -/
def meet (idoms : Idoms g) (rank : g.Node → Nat) : Nat → g.Node → g.Node → Option g.Node
  | 0, _, _ => none
  | fuel + 1, a, b =>
    if a = b then some a
    else if rank a < rank b then idoms[a].bind fun up => meet idoms rank fuel up b
    else idoms[b].bind fun up => meet idoms rank fuel a up

/-- The node where the chains of all predecessors meet that have an immediate dominator so far. -/
def join (idoms : Idoms g) (rank : g.Node → Nat) (preds : List g.Node) : Except Fault (Option g.Node) :=
  preds.foldlM (fun found pred =>
    if idoms[pred].isNone then .ok found
    else match found with
      | none => .ok (some pred)
      | some node =>
        match meet idoms rank (2 * g.order + 1) node pred with
        | some met => .ok (some met)
        | none => .error .brokenChain) none

def pass (r : Reachable g) (rank : g.Node → Nat) (nodes : List g.Node) (idoms : Idoms g) : Except Fault (Idoms g) :=
  nodes.foldlM (fun idoms node => do return idoms.set node.val (← idoms.join rank (r.preds node))) idoms

def settle (r : Reachable g) (rank : g.Node → Nat) (nodes : List g.Node) : Nat → Idoms g → Except Fault (Idoms g)
  | 0, idoms => .ok idoms
  | fuel + 1, idoms => do
    let next ← idoms.pass r rank nodes
    if next = idoms then return idoms else settle r rank nodes fuel next

end Idoms

abbrev NodeLists (g : FlowGraph) := Vector (List g.Node) g.order

namespace NodeLists

variable {g : FlowGraph}

def empty (g : FlowGraph) : NodeLists g := Vector.replicate g.order []

def push (lists : NodeLists g) (owner node : g.Node) : NodeLists g :=
  lists.setIfInBounds owner.val (lists[owner] ++ [node])

def pushNew (lists : NodeLists g) (owner node : g.Node) : NodeLists g :=
  if node ∈ lists[owner] then lists else lists.push owner node

/-- Add a join to the list of every node from `runner` up to `idom`. -/
def run (idoms : Idoms g) (join idom : g.Node) : Nat → g.Node → NodeLists g → Except Fault (NodeLists g)
  | 0, _, _ => .error .passedEntry
  | fuel + 1, runner, lists =>
    if runner = idom then .ok lists
    else
      let lists := lists.pushNew runner join
      match idoms[runner] with
      | none => .error .passedEntry
      | some up => run idoms join idom fuel up lists

/-- Add a node to the frontiers that it is in. The entry is in none, and neither is a node with one predecessor. -/
def addJoin (r : Reachable g) (idoms : Idoms g) (lists : NodeLists g) (node : g.Node) : Except Fault (NodeLists g) :=
  match idoms[node] with
  | none => .ok lists
  | some idom =>
    let preds := r.preds node
    if preds.length ≤ 1 then .ok lists
    else preds.foldlM (fun lists pred => lists.run idoms node idom (g.order + 1) pred) lists

def frontiers (r : Reachable g) (idoms : Idoms g) (rpo : List g.Node) : Except Fault (NodeLists g) :=
  rpo.foldlM (addJoin r idoms) (empty g)

def children (idoms : Idoms g) (rpo : List g.Node) : NodeLists g :=
  rpo.foldl (fun lists node =>
    match idoms[node] with
    | some idom => lists.push idom node
    | none => lists) (empty g)

end NodeLists

structure Dominance (g : FlowGraph) where
  /-- The reachable nodes in reverse postorder. -/
  rpo : List g.Node
  /-- The immediate dominator of each reachable node but the entry. -/
  idoms : Idoms g
  /-- What stopped the search for immediate dominators, if anything did. -/
  fault : Option Fault := none

/-- Find the immediate dominators of the nodes in `rpo`, of which the entry is the first and has none. -/
def findIdoms (g : FlowGraph) (r : Reachable g) (rank : g.Node → Nat) (rpo : List g.Node) :
    Except Fault (Idoms g) := do
  -- while passes are made the entry is its own immediate dominator, so that chains meet there at the latest
  let start := Idoms.set (Vector.replicate g.order none) g.entry.val (some g.entry)
  let found ← start.settle r rank rpo.tail (g.order * g.order + g.order + 1)
  return found.set g.entry.val none

def dominance (g : FlowGraph) (r : Reachable g) : Dominance g :=
  let postorder := g.postorder
  let ranks : Vector Nat g.order := Vector.ofFn fun node => postorder.idxOf node
  let rpo := postorder.reverse
  match g.findIdoms r (ranks[·]) rpo with
  | .ok idoms => { rpo, idoms }
  | .error fault => { rpo, idoms := Vector.replicate g.order none, fault := some fault }

namespace Dominance

variable {g : FlowGraph}

def contains (d : Dominance g) (node : g.Node) : Bool := d.rpo.contains node

def chainUpTo (d : Dominance g) : Nat → g.Node → List g.Node
  | 0, _ => []
  | fuel + 1, node =>
    node :: match d.idoms[node] with
      | none => []
      | some up => chainUpTo d fuel up

/-- The chain of a node up to the entry. A node that is not reachable has itself only. -/
def chain (d : Dominance g) (node : g.Node) : List g.Node := d.chainUpTo g.order node

def dominates (d : Dominance g) (a b : g.Node) : Bool := (d.chain b).contains a

def row {α : Type} (d : Dominance g) (node : g.Node) (value : α) : Except Fault α :=
  match d.fault with
  | some fault => .error fault
  | none => if d.contains node then .ok value else .error .missingRow

def idom (d : Dominance g) (node : g.Node) : Except Fault (Option g.Node) := d.row node d.idoms[node]

def children (d : Dominance g) (node : g.Node) : Except Fault (List g.Node) :=
  d.row node (NodeLists.children d.idoms d.rpo)[node]

def frontier (d : Dominance g) (r : Reachable g) (node : g.Node) : Except Fault (List g.Node) := do
  d.row node (← NodeLists.frontiers r d.idoms d.rpo)[node]

end Dominance

end RegisterAllocator.FlowGraph
