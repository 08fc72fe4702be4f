import Precedence.Traversal.EdgeKind

/-!
# Observers

A walk tells an observer what happens, event by event, with the nodes as they are at that
moment. The observer folds the events into a state of its own and may answer any of them
with a reason to stop; the walk then ends at once and hands the reason on.
-/

namespace Precedence

/-- What happens to a node or an edge during a walk. -/
inductive Event (ι α : Type) where
  /-- A node has been entered and stamped. -/
  | enter (index : NodeIndex) (node : Node ι α)
  /-- An edge has been looked at. The target of a tree edge has its parent but is not
  entered yet. -/
  | edge (source target : Node ι α) (kind : EdgeKind)
  /-- A node has been left and stamped. -/
  | leave (index : NodeIndex) (node : Node ι α)
  deriving Repr

/-- Folds what a walk does into a state `σ`, and may stop the walk for a reason in `ε`. -/
structure Observer (ι α σ ε : Type) where
  /-- A new tree begins at a node, in a graph of this mode. -/
  start : NodeIndex → Bool → σ → σ := fun _ _ s => s
  /-- An event has happened. -/
  notice : Event ι α → σ → σ × Option ε := fun _ s => (s, none)

namespace Observer

variable {ι α σ ε : Type}

/-- Takes no notice of anything. -/
def silent : Observer ι α σ ε := {}

/-- The observer never stops a walk. -/
def Patient (o : Observer ι α σ ε) : Prop := ∀ event s, (o.notice event s).2 = none

/-- The silent observer never stops a walk. -/
theorem patient_silent : (silent : Observer ι α σ ε).Patient := fun _ _ => rfl

/-- The same observer, keeping a list of all events it was told of, in order. -/
def traced (o : Observer ι α σ ε) : Observer ι α (σ × List (Event ι α)) ε where
  start i directed s := (o.start i directed s.1, s.2)
  notice event s :=
    let (t, reason) := o.notice event s.1
    ((t, s.2 ++ [event]), reason)

end Observer

end Precedence
