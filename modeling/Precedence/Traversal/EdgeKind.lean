import Precedence.Graph.Node

/-!
# Kinds of edges

A depth-first walk sorts the edges out of the node it stands on by how far it has got with
their targets. In a directed graph every edge has a kind. In an undirected graph an edge is
met from both of its ends, and the second meeting is passed over: the way back to the node
one came from, and any edge into a node that has been left.
-/

namespace Precedence

/-- The part an edge plays in a depth-first walk. -/
inductive EdgeKind where
  /-- The target is new, and the walk goes on there. -/
  | tree
  /-- The target is still open: the edge closes a cycle. -/
  | back
  /-- The target has been left, and was entered after the source. -/
  | forward
  /-- The target has been left, and was entered before the source. -/
  | cross
  deriving DecidableEq, Repr

namespace EdgeKind

/-- All kinds of edges. -/
def all : List EdgeKind := [tree, back, forward, cross]

/-- The name of a kind in text and logs. -/
def name : EdgeKind → String
  | tree => "tree"
  | back => "back"
  | forward => "forward"
  | cross => "cross"

/-- The name of a kind as a constructor. -/
def describe : EdgeKind → String
  | tree => "Tree"
  | back => "Back"
  | forward => "Forward"
  | cross => "Cross"

/-- The walk goes on at the target. -/
def isTree (k : EdgeKind) : Bool := k == tree

/-- The edge closes a cycle. -/
def isBack (k : EdgeKind) : Bool := k == back

/-- The kind of an edge from `source` to the node `target` at index `i`, or `none` if it is
passed over. -/
def between {ι α : Type} (directed : Bool) (source : Node ι α) (i : NodeIndex)
    (target : Node ι α) : Option EdgeKind :=
  match target.visit with
  | .undiscovered => some tree
  | .discovered _ => if !directed && source.parent == some i then none else some back
  | .finished entry _ =>
    if !directed then none
    else if source.entryTime?.all (· < entry) then some forward else some cross

/-- The list of all kinds leaves none out. -/
theorem mem_all (k : EdgeKind) : k ∈ all := by
  cases k <;> simp [all]

/-- Different kinds have different names. -/
theorem name_injective {k l : EdgeKind} (h : k.name = l.name) : k = l := by
  cases k <;> cases l <;> simp_all [name]

/-- The walk goes on exactly where it has not been. -/
theorem between_eq_tree_iff {ι α : Type} (directed : Bool) (source : Node ι α) (i : NodeIndex)
    (target : Node ι α) :
    between directed source i target = some tree ↔ target.visit = .undiscovered := by
  cases h : target.visit with
  | undiscovered => simp [between, h]
  | discovered => simp [between, h]
  | finished =>
    simp only [between, h]
    split
    · simp
    · split <;> simp

/-- In a directed graph no edge is passed over. -/
theorem isSome_between_directed {ι α : Type} (source : Node ι α) (i : NodeIndex)
    (target : Node ι α) : (between true source i target).isSome := by
  cases h : target.visit <;> simp [between, h]
  split <;> simp

end EdgeKind

end Precedence
