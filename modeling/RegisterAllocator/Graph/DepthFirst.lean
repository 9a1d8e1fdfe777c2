import RegisterAllocator.Graph.Basic

/-!
# Depth-first search

A search keeps a stack of nodes to enter and to leave and takes one event after another off it. Entering a node puts
its successors on the stack, the first on top, so they are searched in order and before the node is left.
-/

namespace RegisterAllocator.FlowGraph

inductive Event where
  | enter
  | leave
deriving DecidableEq, Repr

/-- The state of a search: what is still to do, the next on top, and the nodes entered. -/
structure Search (g : FlowGraph) where
  stack : List (Event × g.Node) := []
  entered : List g.Node := []

namespace Search

variable {g : FlowGraph}

/-- Start over at the entry, whatever the search was doing. -/
def restart (_ : Search g) : Search g := { stack := [(.enter, g.entry)] }

/-- Take the next event off a stack. A node that has been entered is not entered again. -/
def nextEvent (entered : List g.Node) : List (Event × g.Node) → Option ((Event × g.Node) × Search g)
  | [] => none
  | (.leave, node) :: stack => some ((.leave, node), { stack, entered })
  | (.enter, node) :: stack =>
    if node ∈ entered then nextEvent entered stack
    else
      let fresh := (g.succs node).filter (· ∉ node :: entered)
      some ((.enter, node),
        { stack := fresh.map (.enter, ·) ++ (.leave, node) :: stack, entered := node :: entered })

def next (s : Search g) : Option ((Event × g.Node) × Search g) := nextEvent s.entered s.stack

def take : Nat → Search g → List (Event × g.Node)
  | 0, _ => []
  | fuel + 1, s =>
    match s.next with
    | none => []
    | some (event, rest) => event :: take fuel rest

def drop : Nat → Search g → Search g
  | 0, s => s
  | count + 1, s =>
    match s.next with
    | none => s
    | some (_, rest) => drop count rest

/-- All events of a search started over: every node is entered and left at most once. -/
def events (s : Search g) : List (Event × g.Node) := take (2 * g.order) s.restart

def postorder (s : Search g) : List g.Node :=
  s.events.filterMap fun (event, node) => if event = .leave then some node else none

end Search

def events (g : FlowGraph) : List (Event × g.Node) := Search.events (g := g) {}

def postorder (g : FlowGraph) : List g.Node := Search.postorder (g := g) {}

end RegisterAllocator.FlowGraph
