import Precedence.Traversal.Walk

/-!
# Calls that walk a graph

A graph is walked from one node, or from every node in creation order. What an observer is told
during a call is read off a record that is kept beside it: the events in order, each with the
answer that the observer gave. An edge among them is reported by the indices under which the graph
finds its two ends.
-/

namespace Precedence

/-- A call that walks a graph. -/
inductive Call where
  /-- Walk from one node. -/
  | node (start : NodeIndex)
  /-- Walk from every node. -/
  | all
  deriving DecidableEq, Repr

/-- An edge that events tell of, and its kind. -/
structure EdgeReport where
  /-- The index at which the source is found. -/
  source : Option NodeIndex
  /-- The index at which the target is found. -/
  target : Option NodeIndex
  kind : EdgeKind
  deriving DecidableEq, Repr

/-- The report is of an edge between two indices. -/
def EdgeReport.joins (r : EdgeReport) (i j : NodeIndex) : Bool :=
  r.source == some i && r.target == some j

namespace Observer

variable {ι α σ ε : Type}

/-- The same observer, keeping a list of all events it was told of and of what it answered. -/
def answered (o : Observer ι α σ ε) : Observer ι α (σ × List (Event ι α × Option ε)) ε where
  start i directed s := (o.start i directed s.1, s.2)
  notice event s :=
    let (t, reason) := o.notice event s.1
    ((t, s.2 ++ [(event, reason)]), reason)

end Observer

namespace Graph

variable {ι α σ ε : Type} [BEq ι] [Hashable ι]

/-- The nodes where a call starts walks, in order. -/
def starts (g : Graph ι α) : Call → List NodeIndex
  | .node start => [start]
  | .all => List.range g.size

/-- Walk a graph. -/
def walk (g : Graph ι α) (o : Observer ι α σ ε) (s : σ) : Call → Outcome ι α σ ε
  | .node start => g.walkFrom o s start
  | .all => g.walkAll o s

/-- The events that an observer is told during a call, each with its answer. -/
def calls (g : Graph ι α) (o : Observer ι α σ ε) (s : σ) (c : Call) :
    List (Event ι α × Option ε) := (g.walk o.answered (s, []) c).observed.2

/-- The events that an observer is told during a call. -/
def events (g : Graph ι α) (o : Observer ι α σ ε) (s : σ) (c : Call) : List (Event ι α) :=
  (g.walk o.traced (s, []) c).observed.2

/-- The report that an event is, if it tells of an edge. -/
def report? (g : Graph ι α) : Event ι α → Option EdgeReport
  | .edge source target kind => some ⟨g.find? source.id, g.find? target.id, kind⟩
  | _ => none

/-- The edges that events tell of. -/
def reports (g : Graph ι α) (es : List (Event ι α)) : List EdgeReport := es.filterMap g.report?

/-- How often events tell of an edge between two indices. -/
def timesReported (g : Graph ι α) (es : List (Event ι α)) (i j : NodeIndex) : Nat :=
  (g.reports es).countP (·.joins i j)

/-- Every call is a walk from its starts in turn. -/
theorem walk_eq_walkEach (g : Graph ι α) (o : Observer ι α σ ε) (s : σ) (c : Call) :
    g.walk o s c = g.walkEach o s (g.starts c) := by
  cases c with
  | node start =>
    simp only [walk, starts, walkEach]
    obtain ⟨g', s', result⟩ := g.walkFrom o s start
    cases result <;> rfl
  | all => rfl

end Graph

end Precedence
