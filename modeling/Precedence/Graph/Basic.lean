import Std.Data.HashMap
import Precedence.Graph.Node

/-!
# The arena

A graph keeps its nodes in creation order and finds them by identifier. Identifiers are
compared with `==` alone, so several spellings may name one node, which keeps the spelling
that created it. Indices are plain positions: an operation on an index that the arena has
not handed out fails with `OutOfRange` and changes nothing.
-/

namespace Precedence

/-- Named nodes with directed edges, the mode in which edges are read, and the clock that
walks advance. -/
structure Graph (ι α : Type) [BEq ι] [Hashable ι] where
  /-- All nodes, in creation order. -/
  nodes : Array (Node ι α)
  /-- The position of each identifier's node. -/
  lookup : Std.HashMap ι NodeIndex
  /-- Whether an edge leads one way only. -/
  directed : Bool
  /-- One more than the last clock reading given out. -/
  clock : Nat

namespace Graph

variable {ι α : Type} [BEq ι] [Hashable ι]

/-- The arena without nodes, directed. -/
def empty : Graph ι α := ⟨#[], ∅, true, 0⟩

/-- The number of nodes. -/
def size (g : Graph ι α) : Nat := g.nodes.size

/-- There are no nodes. -/
def isEmpty (g : Graph ι α) : Bool := g.nodes.isEmpty

/-- The node at an index. -/
def node (g : Graph ι α) (i : NodeIndex) : Except OutOfRange (Node ι α) :=
  match g.nodes[i]? with
  | some n => .ok n
  | none => .error ⟨g.size, i⟩

/-- The index of an identifier's node. -/
def find? (g : Graph ι α) (id : ι) : Option NodeIndex := g.lookup[id]?

/-- Find an identifier's node, or append a fresh node for it. -/
def intern (g : Graph ι α) (id : ι) : Graph ι α × NodeIndex :=
  match g.lookup[id]? with
  | some i => (g, i)
  | none =>
    let i := g.nodes.size
    ({ g with nodes := g.nodes.push { id := id }, lookup := g.lookup.insert id i }, i)

/-- Put a node in the place of the one at an index. -/
def put (g : Graph ι α) (i : NodeIndex) (n : Node ι α) : Graph ι α :=
  { g with nodes := g.nodes.setIfInBounds i n }

/-- Change the node at an index; past the end of the arena there is nothing to change. -/
def modify (g : Graph ι α) (i : NodeIndex) (f : Node ι α → Node ι α) : Graph ι α :=
  { g with nodes := g.nodes.modify i f }

/-- Change the node at an index, and return what `view` shows of it before the change. -/
def exchange {β : Type} (g : Graph ι α) (i : NodeIndex) (f : Node ι α → Node ι α)
    (view : Node ι α → β) : Except OutOfRange (Graph ι α × β) :=
  match g.nodes[i]? with
  | some n => .ok (g.modify i f, view n)
  | none => .error ⟨g.size, i⟩

/-- Add an edge between two indices; says whether the edge is new. Only the source must be in
the arena: a target may be an index that will be handed out later. -/
def addEdge (g : Graph ι α) (source target : NodeIndex) : Except OutOfRange (Graph ι α × Bool) :=
  g.exchange source (·.addNeighbor target) fun n => !n.neighbors.contains target

/-- Add an edge between the nodes of two identifiers, the source's found or created first;
returns whether the edge is new, and the two indices. -/
def connect (g : Graph ι α) (source target : ι) :
    Graph ι α × Bool × NodeIndex × NodeIndex :=
  let (g, i) := g.intern source
  let (g, j) := g.intern target
  let fresh := g.nodes[i]?.any fun n => !n.neighbors.contains j
  (g.modify i (·.addNeighbor j), fresh, i, j)

/-- Give a node a payload; returns the one it replaces. -/
def setPayload (g : Graph ι α) (i : NodeIndex) (payload : α) :
    Except OutOfRange (Graph ι α × Option α) :=
  g.exchange i (·.withPayload payload) (·.payload)

/-- Remove a node's payload and return it. -/
def takePayload (g : Graph ι α) (i : NodeIndex) : Except OutOfRange (Graph ι α × Option α) :=
  g.exchange i (·.withoutPayload) (·.payload)

/-- Change a node's payload in place if it has one; says whether it has. -/
def updatePayload (g : Graph ι α) (i : NodeIndex) (f : α → α) :
    Except OutOfRange (Graph ι α × Bool) :=
  g.exchange i (·.mapPayload f) (·.hasPayload)

/-- Choose whether edges lead one way only. -/
def setDirected (g : Graph ι α) (directed : Bool) : Graph ι α := { g with directed := directed }

/-- Forget all walks and set the clock back to zero; names, edges and payloads stay. -/
def reset (g : Graph ι α) : Graph ι α :=
  { g with nodes := g.nodes.map Node.unvisited, clock := 0 }

/-- A fresh arena has no walks to forget. -/
@[simp] theorem reset_empty : (empty : Graph ι α).reset = empty := by
  simp [reset, empty]

/-- Changing a node keeps their number. -/
@[simp] theorem size_modify (g : Graph ι α) (i : NodeIndex) (f : Node ι α → Node ι α) :
    (g.modify i f).size = g.size := by
  simp [size, modify]

/-- Forgetting the walks keeps the number of nodes. -/
@[simp] theorem size_reset (g : Graph ι α) : g.reset.size = g.size := by
  simp [size, reset]

/-- A node is available exactly below the size of the arena. -/
theorem node_eq_ok_iff (g : Graph ι α) (i : NodeIndex) (n : Node ι α) :
    g.node i = .ok n ↔ g.nodes[i]? = some n := by
  unfold node
  split
  next m h => simp [h]
  next h => simp [h]

end Graph

end Precedence
