import Precedence.Traversal.Observer

/-!
# Recording a walk

A recorder keeps every event of a walk in order, and the starts of its trees. It numbers the
events from zero and stops the walk at the first one that a stop rule applies to, giving the
number of that event as the reason.
-/

namespace Precedence

/-- When a recorder stops a walk. -/
inductive StopRule (ι : Type) where
  /-- At the entry of a node. -/
  | enter (id : ι)
  /-- At the exit of a node. -/
  | leave (id : ι)
  /-- At an edge that agrees with everything given. -/
  | edge (kind : Option EdgeKind) (source target : Option ι)
  /-- At the event with a number. -/
  | event (number : Nat)
  deriving Repr

/-- What a recorder has seen. -/
structure Recording (ι α : Type) where
  /-- Where trees started, each with the mode of the graph. -/
  starts : Array (NodeIndex × Bool) := #[]
  events : Array (Event ι α) := #[]

/-- How often each kind of event occurs. -/
structure Tally where
  enter : Nat := 0
  tree : Nat := 0
  back : Nat := 0
  forward : Nat := 0
  cross : Nat := 0
  leave : Nat := 0
  deriving DecidableEq, Repr

namespace StopRule

variable {ι α : Type} [BEq ι]

/-- The rule applies to the event with a number. -/
def appliesTo (rule : StopRule ι) (number : Nat) (event : Event ι α) : Bool :=
  match rule, event with
  | .enter id, .enter _ node => node.id == id
  | .leave id, .leave _ node => node.id == id
  | .edge kind? source? target?, .edge source target kind =>
    kind?.all (· == kind) && source?.all (source.id == ·) && target?.all (target.id == ·)
  | .event n, _ => n == number
  | _, _ => false

end StopRule

/-- Keeps all events, and stops a walk where one of the rules applies. -/
def recorder {ι α : Type} [BEq ι] (rules : List (StopRule ι)) :
    Observer ι α (Recording ι α) Nat where
  start i directed r := { r with starts := r.starts.push (i, directed) }
  notice event r :=
    let number := r.events.size
    let reason := if rules.any (·.appliesTo number event) then some number else none
    ({ r with events := r.events.push event }, reason)

namespace Tally

/-- Count one more event. -/
def add {ι α : Type} (t : Tally) (event : Event ι α) : Tally :=
  match event with
  | .enter .. => { t with enter := t.enter + 1 }
  | .edge _ _ .tree => { t with tree := t.tree + 1 }
  | .edge _ _ .back => { t with back := t.back + 1 }
  | .edge _ _ .forward => { t with forward := t.forward + 1 }
  | .edge _ _ .cross => { t with cross := t.cross + 1 }
  | .leave .. => { t with leave := t.leave + 1 }

end Tally

/-- The counts of all events of a recording. -/
def Recording.tally {ι α : Type} (r : Recording ι α) : Tally := r.events.foldl Tally.add {}

end Precedence
