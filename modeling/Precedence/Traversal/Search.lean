import Precedence.Traversal.Walk

/-!
# Depth-first search by recursion

The search of the textbooks: enter a node, look at its edges one after the other, search each
new target before the next edge, then leave the node. The way back is kept by the calls that
are open, so a deep graph needs a deep recursion. It is written as a program that reads and writes
the graph and the state of its observer, and that ends early when an observer stops it or an
index points past the end of the arena.
-/

namespace Precedence

/-- A program over a graph and the state of an observer. It need not come to an end. -/
abbrev Search (ι α σ ε : Type) [BEq ι] [Hashable ι] :=
  ExceptT (Interruption ε) (StateT (Graph ι α × σ) Option)

namespace Search

variable {ι α σ ε : Type} [BEq ι] [Hashable ι]

/-- Read the node at an index. -/
def node (i : NodeIndex) : Search ι α σ ε (Node ι α) := do
  let (g, _) ← get
  match g.nodes[i]? with
  | some n => return n
  | none => throw (.outOfRange ⟨g.size, i⟩)

/-- Write the node at an index. -/
def store (i : NodeIndex) (n : Node ι α) : Search ι α σ ε Unit :=
  modify fun (g, s) => (g.put i n, s)

/-- Read the clock and advance it. -/
def tick : Search ι α σ ε Nat :=
  modifyGet fun (g, s) => (g.clock, ({ g with clock := g.clock + 1 }, s))

/-- Whether edges are read one way only. -/
def directed : Search ι α σ ε Bool := return (← get).1.directed

/-- Tell the observer of an event. -/
def tell (o : Observer ι α σ ε) (event : Event ι α) : Search ι α σ ε Unit := do
  let (g, s) ← get
  let (s, reason) := o.notice event s
  set (g, s)
  match reason with
  | none => return
  | some reason => throw (.stopped reason)

/-- Run a program on a graph and the state of an observer: `none` if it does not come to an end,
else what it returns or why it ended early, and the graph and the state that it leaves behind. -/
def runOn {β : Type} (m : Search ι α σ ε β) (g : Graph ι α) (s : σ) :
    Option (Except (Interruption ε) β × Graph ι α × σ) := m.run.run (g, s)

/-- What a program leaves behind, if it comes to an end. -/
def outcome? (m : Search ι α σ ε Unit) (g : Graph ι α) (s : σ) : Option (Outcome ι α σ ε) :=
  (m.runOn g s).map fun (result, g, s) => ⟨g, s, result⟩

end Search

namespace Observer

open Search

variable {ι α σ ε : Type} [BEq ι] [Hashable ι]

/-- Search from a new node. -/
def visit (o : Observer ι α σ ε) (i : NodeIndex) : Search ι α σ ε Unit := do
  let entered := (← node i).enter (← tick)
  store i entered
  tell o (.enter i entered)
  for j in entered.neighbors do
    let source ← node i
    let target ← node j
    match target.visit with
    | .undiscovered =>
      let child := { target with parent := some i }
      store j child
      tell o (.edge source child .tree)
      o |>.visit j
    | .discovered _ =>
      unless !(← directed) && source.parent == some j do
        tell o (.edge source target .back)
    | .finished .. =>
      if ← directed then
        if Option.lt (· < ·) source.entryTime? target.entryTime? then
          tell o (.edge source target .forward)
        else
          tell o (.edge source target .cross)
  let left := (← node i).leave (← tick)
  store i left
  tell o (.leave i left)
partial_fixpoint

/-- Search from a start, unless it has been entered already. -/
def explore (o : Observer ι α σ ε) (start : NodeIndex) : Search ι α σ ε Unit := do
  let n ← node start
  unless n.isDiscovered do
    modify fun (g, s) => (g, o.start start g.directed s)
    o.visit start

end Observer

end Precedence
