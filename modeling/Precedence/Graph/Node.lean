/-!
# Nodes of the arena

A node has the identifier that created it, an optional payload, its outgoing edges in the
order they were added, and the marks that depth-first walks leave on it: how far it has been
visited, with the clock readings of its entry and exit, and the node it was first reached from.
-/

namespace Precedence

/-- Position of a node in its arena, counted in creation order from zero. -/
abbrev NodeIndex := Nat

namespace NodeIndex

/-- The short written form of a node index. -/
def label (i : NodeIndex) : String := "#" ++ toString i

/-- The written form of a node index that names its type. -/
def describe (i : NodeIndex) : String := "NodeIndex(" ++ toString i ++ ")"

/-- The distinct indices of a list, smallest first. -/
def ascending (is : List NodeIndex) : List NodeIndex := (is.mergeSort).eraseDups

end NodeIndex

/-- An index that points past the end of an arena. -/
structure OutOfRange where
  /-- How many nodes the arena holds. -/
  size : Nat
  /-- The index that was asked for. -/
  index : NodeIndex
  deriving DecidableEq, Repr

/-- States both the size of the arena and the offending index. -/
def OutOfRange.message (fault : OutOfRange) : String :=
  "index out of bounds: the len is " ++ toString fault.size ++
    " but the index is " ++ toString fault.index

/-- How far a walk has got with a node, without clock readings. -/
inductive NodeState where
  | undiscovered
  | discovered
  | finished
  deriving DecidableEq, Repr, Inhabited

namespace NodeState

/-- All states, in the order in which a node passes through them. -/
def all : List NodeState := [undiscovered, discovered, finished]

/-- The name of a state in text and logs. -/
def name : NodeState → String
  | undiscovered => "undiscovered"
  | discovered => "discovered"
  | finished => "finished"

/-- The name of a state as a constructor. -/
def describe : NodeState → String
  | undiscovered => "Undiscovered"
  | discovered => "Discovered"
  | finished => "Finished"

/-- The list of all states leaves none out. -/
theorem mem_all (s : NodeState) : s ∈ all := by
  cases s <;> simp [all]

/-- Different states have different names. -/
theorem name_injective {s t : NodeState} (h : s.name = t.name) : s = t := by
  cases s <;> cases t <;> simp_all [name]

end NodeState

/-- What walks have recorded about a node: nothing, the clock at entry, or the clock at
entry and at exit. -/
inductive Visit where
  | undiscovered
  | discovered (entry : Nat)
  | finished (entry exit : Nat)
  deriving DecidableEq, Repr, Inhabited

namespace Visit

/-- The state that a visit amounts to. -/
def state : Visit → NodeState
  | undiscovered => .undiscovered
  | discovered _ => .discovered
  | finished _ _ => .finished

/-- The clock when the node was entered, if it was. -/
def entryTime? : Visit → Option Nat
  | undiscovered => none
  | discovered entry => some entry
  | finished entry _ => some entry

/-- The clock when the node was left, if it was. -/
def exitTime? : Visit → Option Nat
  | finished _ exit => some exit
  | _ => none

/-- Close a visit at a clock reading. A node that was never entered has no visit to close. -/
def close (v : Visit) (time : Nat) : Visit :=
  match v with
  | undiscovered => undiscovered
  | discovered entry => finished entry time
  | finished entry _ => finished entry time

/-- Exactly a finished visit has an exit reading. -/
theorem exitTime?_isSome_iff (v : Visit) : v.exitTime?.isSome ↔ v.state = .finished := by
  cases v <;> simp [exitTime?, state]

end Visit

/-- A node of the arena. -/
structure Node (ι α : Type) where
  /-- The identifier, spelled as by whoever created the node. -/
  id : ι
  payload : Option α := none
  visit : Visit := .undiscovered
  /-- Targets of the outgoing edges, in the order they were added, none twice. -/
  neighbors : List NodeIndex := []
  /-- The node from which a walk first reached for this one. -/
  parent : Option NodeIndex := none
  deriving Repr

namespace Node

variable {ι α : Type}

/-- The state of a node. -/
def state (n : Node ι α) : NodeState := n.visit.state

/-- The clock when the node was entered, if it was. -/
def entryTime? (n : Node ι α) : Option Nat := n.visit.entryTime?

/-- The clock when the node was left, if it was. -/
def exitTime? (n : Node ι α) : Option Nat := n.visit.exitTime?

/-- The node has been entered, whether or not it has been left. -/
def isDiscovered (n : Node ι α) : Bool := n.state != .undiscovered

/-- The node has been left. -/
def isFinished (n : Node ι α) : Bool := n.state == .finished

/-- The node has a payload. -/
def hasPayload (n : Node ι α) : Bool := n.payload.isSome

/-- The node with a payload. -/
def withPayload (n : Node ι α) (payload : α) : Node ι α := { n with payload := some payload }

/-- The node without a payload. -/
def withoutPayload (n : Node ι α) : Node ι α := { n with payload := none }

/-- The node with its payload changed, if it has one. -/
def mapPayload (n : Node ι α) (f : α → α) : Node ι α := { n with payload := n.payload.map f }

/-- Append an edge unless it is there already. -/
def addNeighbor (n : Node ι α) (target : NodeIndex) : Node ι α :=
  if target ∈ n.neighbors then n else { n with neighbors := n.neighbors ++ [target] }

/-- Enter the node at a clock reading. -/
def enter (n : Node ι α) (time : Nat) : Node ι α := { n with visit := .discovered time }

/-- Leave the node at a clock reading. -/
def leave (n : Node ι α) (time : Nat) : Node ι α := { n with visit := n.visit.close time }

/-- Forget every mark that walks have left. -/
def unvisited (n : Node ι α) : Node ι α := { n with visit := .undiscovered, parent := none }

/-- Adding an edge makes its target a neighbour and keeps all others. -/
theorem mem_neighbors_addNeighbor (n : Node ι α) (target i : NodeIndex) :
    i ∈ (n.addNeighbor target).neighbors ↔ i ∈ n.neighbors ∨ i = target := by
  unfold addNeighbor
  split
  next h => exact ⟨Or.inl, fun hi => hi.elim (fun hm => hm) (fun he => he ▸ h)⟩
  next => simp

/-- Adding an edge never lists a target twice. -/
theorem nodup_neighbors_addNeighbor (n : Node ι α) (target : NodeIndex)
    (h : n.neighbors.Nodup) : (n.addNeighbor target).neighbors.Nodup := by
  unfold addNeighbor
  split
  next => exact h
  next hn =>
    refine List.nodup_append.2 ⟨h, by simp, ?_⟩
    intro a ha b hb hab
    simp only [List.mem_singleton] at hb
    exact hn (hb ▸ hab ▸ ha)

/-- A node is undiscovered exactly when it counts as not discovered. -/
theorem isDiscovered_eq_false_iff (n : Node ι α) :
    n.isDiscovered = false ↔ n.visit = .undiscovered := by
  cases h : n.visit <;> simp [isDiscovered, state, h, Visit.state]

/-- A node counts as discovered exactly when it has been entered. -/
theorem isDiscovered_eq_true_iff (n : Node ι α) :
    n.isDiscovered = true ↔ n.visit ≠ .undiscovered := by
  rw [← Bool.not_eq_false, Ne, isDiscovered_eq_false_iff]

end Node

end Precedence
