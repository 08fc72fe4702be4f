import Precedence.Traversal.Walk

/-!
# The script of a walk

What lies ahead of a walk is settled by its graph and its path: which events it will tell, with
the graph as it is at each of them, and how it ends. An observer can only cut this script short.
`Script.perform` reads a script to an observer, up to the first answer that is a reason to stop.
-/

namespace Precedence

/-- What lies ahead of walks, as long as nobody stops them. -/
inductive Script (ι α : Type) [BEq ι] [Hashable ι] where
  /-- All is told. If there is a fault, an index points past the end of the arena. -/
  | ended (graph : Graph ι α) (fault : Option OutOfRange)
  /-- A new tree begins at a node, in a graph of this mode. -/
  | begun (start : NodeIndex) (directed : Bool) (rest : Script ι α)
  /-- An event is told; the graph is as whoever stops here leaves it. -/
  | told (event : Event ι α) (graph : Graph ι α) (rest : Script ι α)

namespace Script

variable {ι α σ ε : Type} [BEq ι] [Hashable ι]

/-- How a script ends if nobody stops it. -/
def close : Option OutOfRange → Except (Interruption ε) Unit
  | none => .ok ()
  | some fault => .error (.outOfRange fault)

/-- Read a script to an observer, until it is told or stopped. -/
def perform (o : Observer ι α σ ε) (s : σ) : Script ι α → Outcome ι α σ ε
  | ended g fault => ⟨g, s, close fault⟩
  | begun start directed rest => rest.perform o (o.start start directed s)
  | told event g rest =>
    match o.notice event s with
    | (s, none) => rest.perform o s
    | (s, some reason) => ⟨g, s, .error (.stopped reason)⟩

/-- The events that an observer is told when a script is read to it, each with its answer. -/
def calls (o : Observer ι α σ ε) (s : σ) : Script ι α → List (Event ι α × Option ε)
  | ended _ _ => []
  | begun start directed rest => rest.calls o (o.start start directed s)
  | told event _ rest =>
    match o.notice event s with
    | (s, none) => (event, none) :: rest.calls o s
    | (_, some reason) => [(event, some reason)]

/-- All events of a script. -/
def events : Script ι α → List (Event ι α)
  | ended _ _ => []
  | begun _ _ rest => rest.events
  | told event _ rest => event :: rest.events

/-- Go on with the graph at the end of a script, unless it ends with a fault. -/
def andThen (next : Graph ι α → Script ι α) : Script ι α → Script ι α
  | ended g none => next g
  | ended g (some fault) => ended g (some fault)
  | begun start directed rest => begun start directed (rest.andThen next)
  | told event g rest => told event g (rest.andThen next)

end Script

namespace Walk

variable {ι α : Type} [BEq ι] [Hashable ι]

private theorem toll_of_leave {g : Graph ι α} {i : NodeIndex} {n : Node ι α}
    (hi : g.nodes[i]? = some n) : (g.stamp i (n.leave g.clock)).toll = g.toll := by
  have := g.toll_stamp i n (n.leave g.clock) hi
  rw [Node.toll_leave] at this
  omega

private theorem toll_of_enter {g : Graph ι α} {j : NodeIndex} {target : Node ι α}
    (n : Node ι α) (time : Nat) (hj : g.nodes[j]? = some target) (hv : target.visit = .undiscovered) :
    (g.stamp j (n.enter time)).toll + target.neighbors.length + 1 = g.toll := by
  have := g.toll_stamp j target (n.enter time) hj
  rw [Node.toll_of_undiscovered hv, Node.toll_enter] at this
  omega

/-- What lies ahead of a walk with a graph and a path. -/
def script (g : Graph ι α) (path : List Frame) : Script ι α :=
  match path with
  | [] => .ended g none
  | ⟨i, []⟩ :: path =>
    match _hi : g.nodes[i]? with
    | none => .ended g (some ⟨g.size, i⟩)
    | some n =>
      let left := n.leave g.clock
      .told (.leave i left) (g.stamp i left) (script (g.stamp i left) path)
  | ⟨i, j :: pending⟩ :: path =>
    match g.nodes[i]?, _hj : g.nodes[j]? with
    | none, _ => .ended g (some ⟨g.size, i⟩)
    | some _, none => .ended g (some ⟨g.size, j⟩)
    | some source, some target =>
      match _hk : EdgeKind.between g.directed source j target with
      | none => script g (⟨i, pending⟩ :: path)
      | some .tree =>
        let child := { target with parent := some i }
        let entered := child.enter g.clock
        .told (.edge source child .tree) (g.put j child)
          (.told (.enter j entered) (g.stamp j entered)
            (script (g.stamp j entered) (⟨j, target.neighbors⟩ :: ⟨i, pending⟩ :: path)))
      | some kind => .told (.edge source target kind) g (script g (⟨i, pending⟩ :: path))
termination_by g.toll + length path
decreasing_by
  · rw [toll_of_leave _hi]
    simp [length]
  · simp [length]
  · have := toll_of_enter { target with parent := some i } g.clock _hj
      ((EdgeKind.between_eq_tree_iff ..).1 _hk)
    simp only [length, List.length_cons]
    omega
  · simp [length]

end Walk

namespace Graph

variable {ι α : Type} [BEq ι] [Hashable ι]

/-- What lies ahead of a walk from a start. -/
def scriptFrom (g : Graph ι α) (start : NodeIndex) : Script ι α :=
  match g.nodes[start]? with
  | none => .ended g (some ⟨g.size, start⟩)
  | some n =>
    if n.isDiscovered then .ended g none
    else
      let entered := n.enter g.clock
      .begun start g.directed
        (.told (.enter start entered) (g.stamp start entered)
          (Walk.script (g.stamp start entered) [⟨start, n.neighbors⟩]))

/-- What lies ahead of walks from a list of starts in turn. -/
def scriptEach (g : Graph ι α) : List NodeIndex → Script ι α
  | [] => .ended g none
  | start :: starts => (g.scriptFrom start).andThen (·.scriptEach starts)

end Graph

end Precedence
