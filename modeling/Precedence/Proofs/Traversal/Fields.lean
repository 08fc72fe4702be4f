import Mathlib.Data.List.Induction
import Precedence.Proofs.Graph.Widening
import Precedence.Proofs.Traversal.Steady

/-!
# Marks in fields of their own

The state of a node and its two clock readings may be kept in three fields. To discover a node is
then to write its state and its entry, and to finish it is to write its state and its exit, whatever
the other field holds. Such fields could contradict one another. They never do: whatever is done to
a graph, only undiscovered nodes are discovered and only discovered ones are finished, and the
fields are what the visits of the nodes tell.
-/

namespace Precedence

open Relation (ReflTransGen)

/-- The state and the clock readings of a node, each in a field of its own. -/
structure Fields where
  state : NodeState := .undiscovered
  entry : Option Nat := none
  exit : Option Nat := none
  deriving DecidableEq, Repr

namespace Fields

/-- Enter a node at a clock reading. -/
def discover (f : Fields) (time : Nat) : Fields :=
  { f with state := .discovered, entry := some time }

/-- Leave a node at a clock reading. -/
def finish (f : Fields) (time : Nat) : Fields := { f with state := .finished, exit := some time }

/-- Forget what walks have written. -/
def forget (_ : Fields) : Fields := {}

/-- What is written into the fields of an arena, and how its clock advances. -/
inductive Writes : List Fields × Nat → List Fields × Nat → Prop where
  /-- A node is created. -/
  | create (fs : List Fields) (clock : Nat) : Writes (fs, clock) (fs ++ [({} : Fields)], clock)
  /-- An undiscovered node is discovered. -/
  | discover {fs : List Fields} {i : NodeIndex} {f : Fields} {clock : Nat}
      (hi : fs[i]? = some f) (hf : f.state = .undiscovered) :
      Writes (fs, clock) (fs.set i (f.discover clock), clock + 1)
  /-- A discovered node is finished. -/
  | finish {fs : List Fields} {i : NodeIndex} {f : Fields} {clock : Nat}
      (hi : fs[i]? = some f) (hf : f.state = .discovered) :
      Writes (fs, clock) (fs.set i (f.finish clock), clock + 1)
  /-- All walks are forgotten. -/
  | reset (fs : List Fields) (clock : Nat) : Writes (fs, clock) (fs.map forget, 0)

/-- The state tells which readings there are, the entry comes before the exit, and both are behind
the clock. -/
structure Agree (clock : Nat) (f : Fields) : Prop where
  undiscovered_iff : f.state = .undiscovered ↔ f.entry = none ∧ f.exit = none
  discovered_iff : f.state = .discovered ↔ f.entry.isSome ∧ f.exit = none
  finished_iff : f.state = .finished ↔ f.entry.isSome ∧ f.exit.isSome
  entry_lt_exit : ∀ t u, f.entry = some t → f.exit = some u → t < u
  entry_lt_clock : ∀ t, f.entry = some t → t < clock
  exit_lt_clock : ∀ u, f.exit = some u → u < clock

namespace Agree

variable {f : Fields} {clock : Nat}

private theorem fresh (clock : Nat) : Agree clock {} := by
  constructor <;> simp

private theorem tick (h : f.Agree clock) : f.Agree (clock + 1) :=
  { h with
    entry_lt_clock := fun t ht => Nat.lt_succ_of_lt (h.entry_lt_clock t ht)
    exit_lt_clock := fun u hu => Nat.lt_succ_of_lt (h.exit_lt_clock u hu) }

/-- An undiscovered node may be discovered. -/
theorem discover (h : f.Agree clock) (hf : f.state = .undiscovered) :
    (f.discover clock).Agree (clock + 1) := by
  obtain ⟨-, hexit⟩ := h.undiscovered_iff.mp hf
  constructor <;> simp [Fields.discover, hexit]

/-- A discovered node may be finished. -/
theorem finish (h : f.Agree clock) (hf : f.state = .discovered) :
    (f.finish clock).Agree (clock + 1) := by
  obtain ⟨hentry, -⟩ := h.discovered_iff.mp hf
  obtain ⟨t, ht⟩ := Option.isSome_iff_exists.mp hentry
  have hlt := h.entry_lt_clock t ht
  constructor <;> simp [Fields.finish, ht] <;> omega

end Agree

/-- Whatever is written, the fields of every node agree. -/
theorem Writes.agree {s s' : List Fields × Nat} (h : Writes s s') (hs : ∀ f ∈ s.1, f.Agree s.2) :
    ∀ f ∈ s'.1, f.Agree s'.2 := by
  cases h with
  | create fs clock =>
    intro f hf
    rcases List.mem_append.mp hf with hf | hf
    · exact hs f hf
    · rw [List.mem_singleton.mp hf]
      exact .fresh clock
  | @discover fs i g clock hi hg =>
    intro f hf
    rcases List.mem_or_eq_of_mem_set hf with hf | rfl
    · exact (hs f hf).tick
    · exact (hs g (List.mem_of_getElem? hi)).discover hg
  | @finish fs i g clock hi hg =>
    intro f hf
    rcases List.mem_or_eq_of_mem_set hf with hf | rfl
    · exact (hs f hf).tick
    · exact (hs g (List.mem_of_getElem? hi)).finish hg
  | reset fs clock =>
    intro f hf
    obtain ⟨_, -, rfl⟩ := List.mem_map.mp hf
    exact .fresh 0

/-- Fields that agree still agree after several writes. -/
theorem agree_of_writes {s s' : List Fields × Nat} (h : ReflTransGen Writes s s')
    (hs : ∀ f ∈ s.1, f.Agree s.2) : ∀ f ∈ s'.1, f.Agree s'.2 := by
  induction h with
  | refl => exact hs
  | tail _ hwrites ih => exact hwrites.agree ih

end Fields

variable {ι α σ ε : Type}

/-! ### The visit of a node -/

namespace Node

/-- What the visit of a node tells, in fields. -/
def fields (n : Node ι α) : Fields := ⟨n.state, n.entryTime?, n.exitTime?⟩

variable {n : Node ι α}

/-- To enter an undiscovered node is to discover it. -/
theorem fields_enter (hv : n.visit = .undiscovered) (time : Nat) :
    (n.enter time).fields = n.fields.discover time := by
  simp [fields, enter, state, entryTime?, exitTime?, hv, Visit.state, Visit.entryTime?,
    Visit.exitTime?, Fields.discover]

/-- To leave an open node is to finish it. -/
theorem fields_leave {entry : Nat} (hv : n.visit = .discovered entry) (time : Nat) :
    (n.leave time).fields = n.fields.finish time := by
  simp [fields, leave, state, entryTime?, exitTime?, hv, Visit.close, Visit.state,
    Visit.entryTime?, Visit.exitTime?, Fields.finish]

/-- To forget the visit of a node is to forget its fields. -/
theorem fields_unvisited (n : Node ι α) : n.unvisited.fields = n.fields.forget := rfl

private theorem fields_congr {m : Node ι α} (hv : n.visit = m.visit) : n.fields = m.fields := by
  simp only [fields, state, entryTime?, exitTime?, hv]

end Node

/-! ### The visits of a graph -/

variable [BEq ι] [Hashable ι]

namespace Graph

/-- The fields of all nodes, and the clock. -/
def fields (g : Graph ι α) : List Fields × Nat := (g.nodes.toList.map Node.fields, g.clock)

section
variable {g : Graph ι α} {i : NodeIndex} {m n : Node ι α}

private theorem getElem?_fields (hi : g.nodes[i]? = some m) : g.fields.1[i]? = some m.fields := by
  simp [fields, hi]

private theorem fields_stamp (g : Graph ι α) (i : NodeIndex) (n : Node ι α) :
    (g.stamp i n).fields = (g.fields.1.set i n.fields, g.clock + 1) := by
  simp [fields, stamp, List.map_set]

private theorem fields_modify (i : NodeIndex) {f : Node ι α → Node ι α}
    (hf : ∀ n, (f n).visit = n.visit) : (g.modify i f).fields = g.fields := by
  have hnodes : (g.modify i f).nodes.toList.map Node.fields = g.nodes.toList.map Node.fields := by
    apply List.ext_getElem?
    intro k
    simpa using map_modify Node.fields (fun n => Node.fields_congr (hf n)) k
  simp only [fields, hnodes]
  rfl

private theorem fields_put (hi : g.nodes[i]? = some m) (hn : n.visit = m.visit) :
    (g.put i n).fields = g.fields := by
  have hset : (g.nodes.toList.map Node.fields).set i n.fields = g.nodes.toList.map Node.fields := by
    obtain ⟨hlt, hm⟩ := List.getElem?_eq_some_iff.mp (getElem?_fields hi)
    rw [Node.fields_congr hn, ← hm]
    exact List.set_getElem_self hlt
  simp [fields, put, List.map_set, hset]

/-- To enter an undiscovered node is one write. -/
theorem writes_enter (hi : g.nodes[i]? = some m) (hm : m.visit = .undiscovered)
    (hn : n.visit = m.visit) : Fields.Writes g.fields (g.stamp i (n.enter g.clock)).fields := by
  have hstate : m.fields.state = .undiscovered := by
    simp [Node.fields, Node.state, hm, Visit.state]
  rw [fields_stamp, Node.fields_enter (hn.trans hm), Node.fields_congr hn]
  exact .discover (getElem?_fields hi) hstate

/-- To leave an open node is one write. -/
theorem writes_leave (hi : g.nodes[i]? = some m) (ho : g.IsOpen i) :
    Fields.Writes g.fields (g.stamp i (m.leave g.clock)).fields := by
  obtain ⟨t, ht⟩ := ho
  rw [visit?_of_node hi, Option.some.injEq] at ht
  have hstate : m.fields.state = .discovered := by
    simp [Node.fields, Node.state, ht, Visit.state]
  rw [fields_stamp, Node.fields_leave ht]
  exact .finish (getElem?_fields hi) hstate

end

end Graph

/-! ### Walks -/

namespace Walk

/-- A move is one write or none. -/
theorem Moves.writes {o : Observer ι α σ ε} {w w' : Walk ι α σ} (h : Moves o w w')
    (hsteady : Steady w.graph w.path) :
    ReflTransGen Fields.Writes w.graph.fields w'.graph.fields := by
  cases h with
  | leave hi hn => exact .single (Graph.writes_leave hi (hsteady.isOpen _ (head_mem_trail ..)))
  | pass => exact .refl
  | report => exact .refl
  | descend hi hj hv he hn => exact .single (Graph.writes_enter hj hv rfl)

/-- A walk that halts has made one more write or none. -/
theorem Halts.writes {o : Observer ι α σ ε} {w : Walk ι α σ} {r : Outcome ι α σ ε}
    (h : Halts o w r) (hsteady : Steady w.graph w.path) :
    ReflTransGen Fields.Writes w.graph.fields r.graph.fields := by
  cases h with
  | done => exact .refl
  | leave hi hn => exact .single (Graph.writes_leave hi (hsteady.isOpen _ (head_mem_trail ..)))
  | report => exact .refl
  | @reach g _ _ i j _ _ _ target _ hi hj hv he =>
    have hput : (g.put j { target with parent := some i }).fields = g.fields :=
      Graph.fields_put hj rfl
    rw [hput]
  | enter hi hj hv he hn => exact .single (Graph.writes_enter hj hv rfl)
  | lost => exact .refl
  | dangling => exact .refl

/-- A run is made of writes. -/
theorem writes_run (o : Observer ι α σ ε) {w : Walk ι α σ} (hsteady : Steady w.graph w.path) :
    ReflTransGen Fields.Writes w.graph.fields (run o w).graph.fields := by
  obtain ⟨v, ⟨hv, hwrites⟩, hh⟩ := run_of_invariant (o := o)
    (P := fun v => Steady v.graph v.path ∧
      ReflTransGen Fields.Writes w.graph.fields v.graph.fields)
    (fun _ _ hP hm => ⟨hP.1.moves hm, hP.2.trans (hm.writes hP.1)⟩) ⟨hsteady, .refl⟩
  exact hwrites.trans (hh.writes hv)

end Walk

namespace Graph

/-- A walk from a start is made of writes. -/
theorem writes_walkFrom (g : Graph ι α) (o : Observer ι α σ ε) (s : σ) (start : NodeIndex) :
    ReflTransGen Fields.Writes g.fields (g.walkFrom o s start).graph.fields := by
  obtain ⟨p, hp, hw⟩ := exists_starts o g s start
  rw [hw]
  cases hp with
  | lost hi => exact .refl
  | known hi hv => exact .refl
  | @enter n s' hi hv hn =>
    have hsteady : Walk.Steady (g.stamp start (n.enter g.clock)) [⟨start, n.neighbors⟩] :=
      (Walk.steady_nil g).push hi hv rfl rfl (by simp)
    have hrun := Walk.writes_run o (w := ⟨_, s', [⟨start, n.neighbors⟩]⟩) hsteady
    exact .head (writes_enter hi hv rfl) hrun
  | refused hi hv hn => exact .single (writes_enter hi hv rfl)

/-- Every operation is made of writes. -/
theorem writes_apply (g : Graph ι α) (op : Operation ι α) :
    ReflTransGen Fields.Writes g.fields (g.apply op).fields := by
  cases op with
  | intern id =>
    show ReflTransGen Fields.Writes g.fields (g.intern id).1.fields
    cases hfind : g.find? id with
    | some i =>
      rw [intern_of_some hfind]
    | none =>
      have hfields : (g.intern id).1.fields = (g.fields.1 ++ [({} : Fields)], g.clock) := by
        rw [intern_of_none hfind]
        simp [fields, Node.fields, Node.state, Node.entryTime?, Node.exitTime?, Visit.state,
          Visit.entryTime?, Visit.exitTime?]
      rw [hfields]
      exact .single (.create _ _)
  | addEdge i j =>
    have hvisit (n : Node ι α) : (n.addNeighbor j).visit = n.visit :=
      (Node.extends_addNeighbor j).visit n
    rw [apply_addEdge, fields_modify i hvisit]
  | setDirected directed => exact .refl
  | setPayload i payload =>
    rw [apply_setPayload, fields_modify i (f := (·.withPayload payload)) fun _ => rfl]
  | takePayload i =>
    rw [apply_takePayload, fields_modify i (f := (·.withoutPayload)) fun _ => rfl]
  | updatePayload i f =>
    rw [apply_updatePayload, fields_modify i (f := (·.mapPayload f)) fun _ => rfl]
  | walk o s c =>
    show ReflTransGen Fields.Writes g.fields (g.walk o s c).graph.fields
    rw [walk_eq_walkEach]
    exact walkEach_of_invariant
      (P := fun g' => ReflTransGen Fields.Writes g.fields g'.fields)
      (fun g' s start hg' => hg'.trans (g'.writes_walkFrom o s start)) .refl s _
  | reset =>
    have hfields : g.reset.fields = (g.fields.1.map Fields.forget, 0) := by
      simp [fields, Graph.reset, Node.fields_unvisited]
    show ReflTransGen Fields.Writes g.fields g.reset.fields
    rw [hfields]
    exact .single (.reset _ _)

/-- Whatever is done to a fresh graph, the visits of its nodes tell what three fields hold that are
written one by one, and these agree. -/
theorem fields_after (ops : List (Operation ι α)) :
    ReflTransGen Fields.Writes ([], 0) ((empty : Graph ι α).after ops).fields ∧
      ∀ f ∈ ((empty : Graph ι α).after ops).fields.1,
        f.Agree ((empty : Graph ι α).after ops).clock := by
  have hwrites : ReflTransGen Fields.Writes ([], 0) ((empty : Graph ι α).after ops).fields := by
    induction ops using List.reverseRecOn with
    | nil => exact .refl
    | append_singleton ops op ih =>
      rw [after_append]
      exact ih.trans (writes_apply _ op)
  exact ⟨hwrites, Fields.agree_of_writes hwrites nofun⟩

end Graph

end Precedence
