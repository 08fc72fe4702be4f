import Precedence.Graph.Basic
import Precedence.Traversal.Observer

/-!
# Depth-first walks

A walk keeps the path from its start to the node it stands on as an explicit stack, so its
depth is bounded by memory alone. Each step looks at one edge of the innermost node, or leaves
that node when none is left. `Walk.work` is the exact number of steps that remain unless the
walk is cut short: `work_step` says that each step pays for one.

A walk ends early in two ways: an observer stops it, or an edge points past the end of the
arena. Whatever was recorded until then stays.
-/

namespace Precedence

/-- Why a walk ended before its time. -/
inductive Interruption (ε : Type) where
  /-- An observer gave a reason to stop. -/
  | stopped (reason : ε)
  /-- The walk met an index that the arena has not handed out. -/
  | outOfRange (fault : OutOfRange)
  deriving DecidableEq, Repr

/-- A node on the active path and those of its neighbours that are still to be looked at. -/
structure Frame where
  index : NodeIndex
  pending : List NodeIndex
  deriving DecidableEq, Repr

/-- A walk under way. -/
structure Walk (ι α σ : Type) [BEq ι] [Hashable ι] where
  graph : Graph ι α
  /-- The state of the observer. -/
  observed : σ
  /-- The active path, innermost node first. -/
  path : List Frame

/-- What a walk leaves behind. -/
structure Outcome (ι α σ ε : Type) [BEq ι] [Hashable ι] where
  graph : Graph ι α
  /-- The state of the observer. -/
  observed : σ
  result : Except (Interruption ε) Unit

/-- A walk after a step: still under way, or over. -/
inductive Progress (ι α σ ε : Type) [BEq ι] [Hashable ι] where
  | running (walk : Walk ι α σ)
  | halted (outcome : Outcome ι α σ ε)

namespace Node

variable {ι α : Type}

/-- The steps a walk takes in a node that it has yet to enter: one for each edge and one for
leaving. -/
def toll (n : Node ι α) : Nat :=
  match n.visit with
  | .undiscovered => n.neighbors.length + 1
  | _ => 0

/-- The tolls of several nodes together. -/
def tolls : List (Node ι α) → Nat
  | [] => 0
  | n :: ns => n.toll + tolls ns

/-- An undiscovered node costs a step for each edge and one for leaving. -/
theorem toll_of_undiscovered {n : Node ι α} (h : n.visit = .undiscovered) :
    n.toll = n.neighbors.length + 1 := by
  simp [toll, h]

/-- A node that has been entered costs nothing more. -/
@[simp] theorem toll_enter (n : Node ι α) (time : Nat) : (n.enter time).toll = 0 := rfl

/-- Leaving a node changes no toll. -/
@[simp] theorem toll_leave (n : Node ι α) (time : Nat) : (n.leave time).toll = n.toll := by
  cases h : n.visit <;> simp [toll, leave, Visit.close, h]

private theorem tolls_set (ns : List (Node ι α)) (i : Nat) (n m : Node ι α)
    (h : ns[i]? = some n) : tolls (ns.set i m) + n.toll = tolls ns + m.toll := by
  induction ns generalizing i with
  | nil => simp at h
  | cons a ns ih =>
    cases i with
    | zero =>
      simp only [List.getElem?_cons_zero, Option.some.injEq] at h
      subst h
      simp only [List.set_cons_zero, tolls]
      omega
    | succ i =>
      have := ih i (by simpa using h)
      simp only [List.set_cons_succ, tolls]
      omega

end Node

namespace Graph

variable {ι α : Type} [BEq ι] [Hashable ι]

/-- Put a node into the arena and advance the clock. -/
def stamp (g : Graph ι α) (i : NodeIndex) (n : Node ι α) : Graph ι α :=
  { g with nodes := g.nodes.setIfInBounds i n, clock := g.clock + 1 }

/-- The tolls of all nodes together. -/
def toll (g : Graph ι α) : Nat := Node.tolls g.nodes.toList

/-- Replacing a node moves the toll of the graph by the difference of the nodes' tolls. -/
theorem toll_stamp (g : Graph ι α) (i : NodeIndex) (n m : Node ι α)
    (h : g.nodes[i]? = some n) : (g.stamp i m).toll + n.toll = g.toll + m.toll := by
  simp only [toll, stamp, Array.toList_setIfInBounds]
  exact Node.tolls_set _ _ _ _ (by simpa using h)

end Graph

namespace Walk

variable {ι α σ ε : Type} [BEq ι] [Hashable ι]

/-- Enter the node `n` at index `i`: stamp it, tell the observer, and go on from there. -/
def enter (o : Observer ι α σ ε) (g : Graph ι α) (s : σ) (path : List Frame)
    (i : NodeIndex) (n : Node ι α) : Progress ι α σ ε :=
  let entered := n.enter g.clock
  let g := g.stamp i entered
  match o.notice (.enter i entered) s with
  | (s, none) => .running ⟨g, s, ⟨i, n.neighbors⟩ :: path⟩
  | (s, some reason) => .halted ⟨g, s, .error (.stopped reason)⟩

/-- Leave the node at index `i`: stamp it, tell the observer, and go back. -/
def leave (o : Observer ι α σ ε) (g : Graph ι α) (s : σ) (path : List Frame)
    (i : NodeIndex) : Progress ι α σ ε :=
  match g.nodes[i]? with
  | none => .halted ⟨g, s, .error (.outOfRange ⟨g.size, i⟩)⟩
  | some n =>
    let left := n.leave g.clock
    let g := g.stamp i left
    match o.notice (.leave i left) s with
    | (s, none) => .running ⟨g, s, path⟩
    | (s, some reason) => .halted ⟨g, s, .error (.stopped reason)⟩

/-- Look at the edge from index `i` to index `j`, with `path` as the way back to `i`. A new
target gets its parent before the observer is told of the edge, and is entered after. -/
def examine (o : Observer ι α σ ε) (g : Graph ι α) (s : σ) (path : List Frame)
    (i j : NodeIndex) : Progress ι α σ ε :=
  match g.nodes[i]?, g.nodes[j]? with
  | none, _ => .halted ⟨g, s, .error (.outOfRange ⟨g.size, i⟩)⟩
  | some _, none => .halted ⟨g, s, .error (.outOfRange ⟨g.size, j⟩)⟩
  | some source, some target =>
    match EdgeKind.between g.directed source j target with
    | none => .running ⟨g, s, path⟩
    | some .tree =>
      let child := { target with parent := some i }
      match o.notice (.edge source child .tree) s with
      | (s, none) => enter o g s path j child
      | (s, some reason) => .halted ⟨g.put j child, s, .error (.stopped reason)⟩
    | some kind =>
      match o.notice (.edge source target kind) s with
      | (s, none) => .running ⟨g, s, path⟩
      | (s, some reason) => .halted ⟨g, s, .error (.stopped reason)⟩

/-- Take one step: look at the next edge of the innermost node, or leave it. -/
def step (o : Observer ι α σ ε) (w : Walk ι α σ) : Progress ι α σ ε :=
  match w with
  | ⟨g, s, []⟩ => .halted ⟨g, s, .ok ()⟩
  | ⟨g, s, ⟨i, []⟩ :: path⟩ => leave o g s path i
  | ⟨g, s, ⟨i, j :: pending⟩ :: path⟩ => examine o g s (⟨i, pending⟩ :: path) i j

/-- The steps that remain on a path: one for each edge still to be looked at and one for
leaving each node. -/
def length : List Frame → Nat
  | [] => 0
  | frame :: path => frame.pending.length + 1 + length path

/-- The steps that remain: those on the path and the tolls of all nodes. -/
def work (w : Walk ι α σ) : Nat := w.graph.toll + length w.path

private theorem work_enter {o : Observer ι α σ ε} {g : Graph ι α} {s : σ} {path : List Frame}
    {i : NodeIndex} {m n : Node ι α} {w : Walk ι α σ} (hm : g.nodes[i]? = some m)
    (hv : m.visit = .undiscovered) (h : enter o g s path i n = .running w)
    (hn : n.neighbors = m.neighbors) : w.work = g.toll + length path := by
  unfold enter at h
  dsimp only at h
  split at h
  next =>
    cases h
    have := g.toll_stamp i m (n.enter g.clock) hm
    rw [Node.toll_of_undiscovered hv, Node.toll_enter] at this
    simp only [work, length, hn]
    omega
  next => cases h

private theorem work_leave {o : Observer ι α σ ε} {g : Graph ι α} {s : σ} {path : List Frame}
    {i : NodeIndex} {w : Walk ι α σ} (h : leave o g s path i = .running w) :
    w.work = g.toll + length path := by
  unfold leave at h
  split at h
  next => cases h
  next n hn =>
    dsimp only at h
    split at h
    next =>
      cases h
      have := g.toll_stamp i n (n.leave g.clock) hn
      rw [Node.toll_leave] at this
      simp only [work]
      omega
    next => cases h

private theorem work_examine {o : Observer ι α σ ε} {g : Graph ι α} {s : σ} {path : List Frame}
    {i j : NodeIndex} {w : Walk ι α σ} (h : examine o g s path i j = .running w) :
    w.work = g.toll + length path := by
  unfold examine at h
  split at h
  next => cases h
  next => cases h
  next source target hs ht =>
    split at h
    next => cases h; rfl
    next hk =>
      dsimp only at h
      split at h
      next => exact work_enter ht ((EdgeKind.between_eq_tree_iff ..).1 hk) h rfl
      next => cases h
    next =>
      split at h
      next => cases h; rfl
      next => cases h

/-- Each step that does not end the walk takes exactly one from the work that remains. -/
theorem work_step (o : Observer ι α σ ε) (w w' : Walk ι α σ) (h : w.step o = .running w') :
    w'.work + 1 = w.work := by
  unfold step at h
  split at h
  next => cases h
  next g s i path =>
    rw [work_leave h]
    simp [work, length]
    omega
  next g s i j pending path =>
    rw [work_examine h]
    simp [work, length]
    omega

/-- Take steps until the walk is over. -/
def run (o : Observer ι α σ ε) (w : Walk ι α σ) : Outcome ι α σ ε :=
  match _h : w.step o with
  | .running w' => run o w'
  | .halted outcome => outcome
termination_by w.work
decreasing_by
  have := work_step o w w' _h
  omega

/-- A step that does not end the walk does not change how it ends. -/
theorem run_of_running {o : Observer ι α σ ε} {w w' : Walk ι α σ} (h : w.step o = .running w') :
    run o w = run o w' := by
  rw [run]
  split
  next v hv => rw [h] at hv; cases hv; rfl
  next hv => rw [h] at hv; cases hv

/-- A step that ends the walk says how it ends. -/
theorem run_of_halted {o : Observer ι α σ ε} {w : Walk ι α σ} {outcome : Outcome ι α σ ε}
    (h : w.step o = .halted outcome) : run o w = outcome := by
  rw [run]
  split
  next hv => rw [h] at hv; cases hv
  next hv => rw [h] at hv; cases hv; rfl

end Walk

namespace Graph

variable {ι α σ ε : Type} [BEq ι] [Hashable ι]

/-- Walk depth first from `start`, unless it has been discovered already. Neighbours are
looked at in the order in which their edges were added. -/
def walkFrom (g : Graph ι α) (o : Observer ι α σ ε) (s : σ) (start : NodeIndex) :
    Outcome ι α σ ε :=
  match g.nodes[start]? with
  | none => ⟨g, s, .error (.outOfRange ⟨g.size, start⟩)⟩
  | some n =>
    if n.isDiscovered then ⟨g, s, .ok ()⟩
    else
      match Walk.enter o g (o.start start g.directed s) [] start n with
      | .running w => Walk.run o w
      | .halted outcome => outcome

/-- Walk from each of a list of starts in turn, up to the first interruption. -/
def walkEach (g : Graph ι α) (o : Observer ι α σ ε) (s : σ) : List NodeIndex → Outcome ι α σ ε
  | [] => ⟨g, s, .ok ()⟩
  | start :: starts =>
    match g.walkFrom o s start with
    | ⟨g, s, .ok ()⟩ => walkEach g o s starts
    | ⟨g, s, .error e⟩ => ⟨g, s, .error e⟩

/-- Walk from every node in creation order, so that each node is visited. -/
def walkAll (g : Graph ι α) (o : Observer ι α σ ε) (s : σ) : Outcome ι α σ ε :=
  g.walkEach o s (List.range g.size)

end Graph

end Precedence
