import Mathlib.Logic.Relation
import Precedence.Traversal.Walk

/-!
# What walks leave alone

A walk writes visits, parents and the clock, and nothing else. `reset` forgets exactly these, so
two graphs with one `reset` agree in names, payloads, edges, lookup and mode. Nodes are observed
through `id?`, `successors`, `visit?` and `exit?`, which are total: past the end of the arena
there is no name, no edge and no visit.
-/

namespace Precedence.Graph

variable {ι α : Type} [BEq ι] [Hashable ι]

/-- The identifier of the node at an index. -/
def id? (g : Graph ι α) (i : NodeIndex) : Option ι := g.nodes[i]?.map (·.id)

/-- The targets of the edges out of an index, in the order in which they were added. -/
def successors (g : Graph ι α) (i : NodeIndex) : List NodeIndex :=
  (g.nodes[i]?.map (·.neighbors)).getD []

/-- What walks have recorded about an index. -/
def visit? (g : Graph ι α) (i : NodeIndex) : Option Visit := g.nodes[i]?.map (·.visit)

/-- The clock when the node at an index was left, if it was. -/
def exit? (g : Graph ι α) (i : NodeIndex) : Option Nat := (g.visit? i).bind (·.exitTime?)

/-- An edge leads from one index to another. -/
def Edge (g : Graph ι α) (i j : NodeIndex) : Prop := j ∈ g.successors i

/-- All edges stay in the arena. -/
def Closed (g : Graph ι α) : Prop := ∀ i j, g.Edge i j → j < g.size

/-- The node has been entered and not been left. -/
def IsOpen (g : Graph ι α) (i : NodeIndex) : Prop := ∃ t, g.visit? i = some (.discovered t)

/-- The node has been entered, whether or not it has been left. -/
def IsEntered (g : Graph ι α) (i : NodeIndex) : Prop :=
  ∃ v, g.visit? i = some v ∧ v ≠ .undiscovered

/-- No node has been entered. -/
def Untouched (g : Graph ι α) : Prop := ∀ i v, g.visit? i = some v → v = .undiscovered

/-- The node has been entered and left. -/
def IsFinished (g : Graph ι α) (i : NodeIndex) : Prop := ∃ t, g.exit? i = some t

/-- A node is in the arena exactly below its size. -/
theorem exists_node_iff (g : Graph ι α) (i : NodeIndex) :
    (∃ n, g.nodes[i]? = some n) ↔ i < g.size := by
  constructor
  · rintro ⟨n, hn⟩
    exact (Array.getElem?_eq_some_iff.mp hn).1
  · intro hi
    exact ⟨g.nodes[i], Array.getElem?_eq_getElem hi⟩

theorem successors_of_node {g : Graph ι α} {i : NodeIndex} {n : Node ι α}
    (hi : g.nodes[i]? = some n) : g.successors i = n.neighbors := by
  simp [successors, hi]

theorem visit?_of_node {g : Graph ι α} {i : NodeIndex} {n : Node ι α}
    (hi : g.nodes[i]? = some n) : g.visit? i = some n.visit := by
  simp [visit?, hi]

theorem id?_of_node {g : Graph ι α} {i : NodeIndex} {n : Node ι α}
    (hi : g.nodes[i]? = some n) : g.id? i = some n.id := by
  simp [id?, hi]

/-- The indices of the arena lead to its nodes in order. -/
theorem map_node_range (g : Graph ι α) :
    (List.range g.size).map (g.nodes[·]?) = g.nodes.toList.map some := by
  apply List.ext_getElem?
  intro i
  simp only [List.getElem?_map, Array.getElem?_toList]
  cases hi : g.nodes[i]? with
  | none =>
    have hle : g.size ≤ i := Array.getElem?_eq_none_iff.mp hi
    simp [hle]
  | some n =>
    have hlt : i < g.size := (g.exists_node_iff i).mp ⟨n, hi⟩
    simp [hlt, hi]

/-- The indices of the arena name its nodes in order. -/
theorem map_id?_range (g : Graph ι α) :
    (List.range g.size).map g.id? = (g.nodes.toList.map (·.id)).map some :=
  calc (List.range g.size).map g.id?
      = ((List.range g.size).map (g.nodes[·]?)).map (Option.map (·.id)) := by
        rw [List.map_map]
        rfl
    _ = (g.nodes.toList.map (·.id)).map some := by
        rw [map_node_range, List.map_map, List.map_map]
        rfl

/-- The nodes of indices of the arena are all there. -/
theorem exists_mapM_node (g : Graph ι α) {is : List NodeIndex} (his : ∀ i ∈ is, i < g.size) :
    ∃ ns : List (Node ι α), is.mapM g.node = .ok ns ∧ is.map (g.nodes[·]?) = ns.map some := by
  induction is with
  | nil => exact ⟨[], rfl, rfl⟩
  | cons i is ih =>
    obtain ⟨n, hn⟩ := (g.exists_node_iff i).mpr (his i (by simp))
    obtain ⟨ns, hns, hmap⟩ := ih fun j hj => his j (List.mem_cons_of_mem _ hj)
    refine ⟨n :: ns, ?_, ?_⟩
    · rw [List.mapM_cons, (g.node_eq_ok_iff i n).mpr hn, hns]
      rfl
    · rw [List.map_cons, List.map_cons, hn, hmap]

/-- The exit reading at an index is that of its node. -/
theorem exit?_of_node {g : Graph ι α} {i : NodeIndex} {n : Node ι α}
    (hi : g.nodes[i]? = some n) : g.exit? i = n.exitTime? := by
  simp [exit?, visit?, hi, Node.exitTime?]

/-- Only a node of the arena has edges. -/
theorem Edge.source_lt {g : Graph ι α} {i j : NodeIndex} (h : g.Edge i j) : i < g.size := by
  cases hi : g.nodes[i]? with
  | none => simp [Edge, successors, hi] at h
  | some n => exact (g.exists_node_iff i).mp ⟨n, hi⟩

/-- Whether all edges stay in the arena can be looked up. -/
theorem closed_iff (g : Graph ι α) :
    g.Closed ↔ ∀ i < g.size, ∀ j ∈ g.successors i, j < g.size := by
  constructor
  · intro h i _ j hij
    exact h i j hij
  · intro h i j hij
    exact h i hij.source_lt j hij

instance (g : Graph ι α) : Decidable g.Closed := decidable_of_iff _ g.closed_iff.symm

/-- A finished node has an exit reading in its visit. -/
theorem exit?_eq_some_iff (g : Graph ι α) (i : NodeIndex) (u : Nat) :
    g.exit? i = some u ↔ ∃ t, g.visit? i = some (.finished t u) := by
  cases hv : g.visit? i with
  | none => simp [exit?, hv]
  | some v => cases v <;> simp [exit?, hv, Visit.exitTime?]

/-- Only a node of the arena has been left. -/
theorem IsFinished.lt_size {g : Graph ι α} {i : NodeIndex} (h : g.IsFinished i) : i < g.size := by
  obtain ⟨t, ht⟩ := h
  obtain ⟨u, hu⟩ := (g.exit?_eq_some_iff i t).mp ht
  obtain ⟨n, hn, _⟩ := Option.map_eq_some_iff.mp hu
  exact (g.exists_node_iff i).mp ⟨n, hn⟩

/-- In an untouched graph no node has been left. -/
theorem Untouched.exit?_eq_none {g : Graph ι α} (h : g.Untouched) (i : NodeIndex) :
    g.exit? i = none := by
  cases hv : g.visit? i with
  | none => simp [exit?, hv]
  | some v => simp [exit?, hv, h i v hv, Visit.exitTime?]

/-- A node that has been entered is open or finished. -/
theorem IsEntered.isOpen_or_isFinished {g : Graph ι α} {i : NodeIndex} (h : g.IsEntered i) :
    g.IsOpen i ∨ g.IsFinished i := by
  obtain ⟨v, hv, hne⟩ := h
  cases v with
  | undiscovered => exact absurd rfl hne
  | discovered t => exact .inl ⟨t, hv⟩
  | finished t u => exact .inr ⟨u, (g.exit?_eq_some_iff i u).mpr ⟨t, hv⟩⟩

/-- A node that has been left is not open. -/
theorem IsFinished.not_isOpen {g : Graph ι α} {i : NodeIndex} (h : g.IsFinished i) :
    ¬ g.IsOpen i := by
  rintro ⟨t, ht⟩
  obtain ⟨u, hu⟩ := h
  simp [exit?, ht, Visit.exitTime?] at hu

/-- A node that has yet to be entered has not been left. -/
theorem not_isFinished_of_node {g : Graph ι α} {i : NodeIndex} {n : Node ι α}
    (hi : g.nodes[i]? = some n) (hv : n.visit = .undiscovered) : ¬ g.IsFinished i := by
  rintro ⟨u, hu⟩
  simp [exit?_of_node hi, Node.exitTime?, hv, Visit.exitTime?] at hu

/-! ### The skeleton -/

theorem successors_reset (g : Graph ι α) (i : NodeIndex) :
    g.reset.successors i = g.successors i := by
  simp [successors, reset, Function.comp_def, Node.unvisited]

theorem id?_reset (g : Graph ι α) (i : NodeIndex) : g.reset.id? i = g.id? i := by
  simp [id?, reset, Function.comp_def, Node.unvisited]

section
variable {g g' : Graph ι α} (h : g'.reset = g.reset)
include h

/-- Graphs with one skeleton have the same edges. -/
theorem successors_congr : g'.successors = g.successors := by
  funext i
  rw [← successors_reset, h, successors_reset]

/-- Graphs with one skeleton have the same edges. -/
theorem edge_congr : g'.Edge = g.Edge := by
  funext i j
  simp only [Edge, successors_congr h]

/-- Graphs with one skeleton have the same names. -/
theorem id?_congr : g'.id? = g.id? := by
  funext i
  rw [← id?_reset, h, id?_reset]

/-- Graphs with one skeleton have the same size. -/
theorem size_congr : g'.size = g.size := by
  rw [← size_reset, h, size_reset]

/-- Graphs with one skeleton are read in the same mode. -/
theorem directed_congr : g'.directed = g.directed := by
  change g'.reset.directed = g.reset.directed
  rw [h]

/-- Graphs with one skeleton find the same nodes. -/
theorem find?_congr : g'.find? = g.find? := by
  change g'.reset.find? = g.reset.find?
  rw [h]

/-- Nodes of graphs with one skeleton differ in their marks only. -/
theorem exists_node_of_reset_eq {i : NodeIndex} {n : Node ι α} (hi : g'.nodes[i]? = some n) :
    ∃ m, g.nodes[i]? = some m ∧ m.unvisited = n.unvisited := by
  have hnode : g'.reset.nodes[i]? = g.reset.nodes[i]? := by rw [h]
  simp only [reset, Array.getElem?_map, hi, Option.map_some] at hnode
  exact Option.map_eq_some_iff.mp hnode.symm

/-- Graphs with one skeleton stay in the arena together. -/
theorem Closed.congr (hg : g.Closed) : g'.Closed := by
  intro i j hij
  rw [size_congr h]
  rw [edge_congr h] at hij
  exact hg i j hij

end

/-! ### Writing one node -/

theorem getElem?_stamp {g : Graph ι α} {i : NodeIndex} {m : Node ι α}
    (hi : g.nodes[i]? = some m) (n : Node ι α) (j : NodeIndex) :
    (g.stamp i n).nodes[j]? = if i = j then some n else g.nodes[j]? := by
  have hlt : i < g.nodes.size := (Array.getElem?_eq_some_iff.mp hi).1
  simp only [stamp, Array.getElem?_setIfInBounds, hlt, ↓reduceIte]

/-- Writing a node changes the visit at its own index only. -/
theorem visit?_stamp {g : Graph ι α} {i : NodeIndex} {m : Node ι α}
    (hi : g.nodes[i]? = some m) (n : Node ι α) (j : NodeIndex) :
    (g.stamp i n).visit? j = if i = j then some n.visit else g.visit? j := by
  simp only [visit?, getElem?_stamp hi n j]
  split <;> rfl

theorem exit?_stamp {g : Graph ι α} {i : NodeIndex} {m : Node ι α}
    (hi : g.nodes[i]? = some m) (n : Node ι α) (j : NodeIndex) :
    (g.stamp i n).exit? j = if i = j then n.exitTime? else g.exit? j := by
  simp only [exit?, visit?_stamp hi n j]
  split <;> rfl

/-- Entering a new node changes no exit reading. -/
theorem exit?_enter {g : Graph ι α} {j : NodeIndex} {n target : Node ι α} {t : Nat}
    (hj : g.nodes[j]? = some target) (hv : target.visit = .undiscovered)
    (hn : n.visit = .discovered t) : (g.stamp j n).exit? = g.exit? := by
  funext k
  rw [exit?_stamp hj]
  split
  · next hjk =>
    subst hjk
    simp [exit?_of_node hj, Node.exitTime?, hn, hv, Visit.exitTime?]
  · rfl

/-- Leaving an open node gives it the reading of the clock as its exit. -/
theorem exit?_leave {g : Graph ι α} {i : NodeIndex} {n : Node ι α} (hi : g.nodes[i]? = some n)
    (ho : g.IsOpen i) (k : NodeIndex) :
    (g.stamp i (n.leave g.clock)).exit? k = if i = k then some g.clock else g.exit? k := by
  obtain ⟨t, ht⟩ := ho
  rw [visit?_of_node hi] at ht
  rw [exit?_stamp hi]
  simp [Node.exitTime?, Node.leave, Option.some.inj ht, Visit.close, Visit.exitTime?]

/-- Leaving an open node keeps the exit readings of the nodes left before. -/
theorem exit?_leave_of_eq_some {g : Graph ι α} {i k : NodeIndex} {n : Node ι α} {u : Nat}
    (hi : g.nodes[i]? = some n) (ho : g.IsOpen i) (hk : g.exit? k = some u) :
    (g.stamp i (n.leave g.clock)).exit? k = some u := by
  rw [exit?_leave hi ho, if_neg, hk]
  rintro rfl
  exact IsFinished.not_isOpen ⟨u, hk⟩ ho

/-- The clock stays ahead of all exits when an open node is left. -/
theorem exit_lt_clock_leave {g : Graph ι α} {i k : NodeIndex} {n : Node ι α} {u : Nat}
    (hi : g.nodes[i]? = some n) (ho : g.IsOpen i)
    (h : ∀ k u, g.exit? k = some u → u < g.clock)
    (hk : (g.stamp i (n.leave g.clock)).exit? k = some u) :
    u < (g.stamp i (n.leave g.clock)).clock := by
  rw [exit?_leave hi ho] at hk
  split at hk
  · cases hk
    exact Nat.lt_succ_self _
  · exact Nat.lt_succ_of_lt (h k u hk)

/-- What is the same in every changed node is the same in the whole graph. -/
theorem map_modify {β : Type} {g : Graph ι α} {i : NodeIndex} {f : Node ι α → Node ι α}
    (view : Node ι α → β) (hview : ∀ n, view (f n) = view n) (k : NodeIndex) :
    (g.modify i f).nodes[k]?.map view = g.nodes[k]?.map view := by
  simp only [modify, Array.getElem?_modify]
  split
  · simp [Function.comp_def, hview]
  · rfl

/-! ### Opening and closing one node -/

section
variable {g : Graph ι α} {i k : NodeIndex} {m n : Node ι α} (hi : g.nodes[i]? = some m)
include hi

/-- Writing a node keeps all others open. -/
theorem IsOpen.stamp_of_ne (hne : i ≠ k) (hk : g.IsOpen k) : (g.stamp i n).IsOpen k := by
  rwa [IsOpen, visit?_stamp hi, if_neg hne]

/-- Entering a node opens it and keeps all others open. -/
theorem IsOpen.enter {t : Nat} (hvisit : n.visit = .discovered t) (hk : k = i ∨ g.IsOpen k) :
    (g.stamp i n).IsOpen k := by
  by_cases hik : i = k
  · exact ⟨t, by rw [visit?_stamp hi, if_pos hik, hvisit]⟩
  · exact (hk.resolve_left (Ne.symm hik)).stamp_of_ne hi hik

/-- Writing a node opens no other. -/
theorem IsOpen.of_stamp (hk : (g.stamp i n).IsOpen k) : k = i ∨ g.IsOpen k := by
  by_cases hik : i = k
  · exact .inl hik.symm
  · rw [IsOpen, visit?_stamp hi, if_neg hik] at hk
    exact .inr hk

/-- A node that is left is open no more. -/
theorem IsOpen.of_leave (hk : (g.stamp i (n.leave g.clock)).IsOpen k) : k ≠ i ∧ g.IsOpen k := by
  have hne : k ≠ i := by
    rintro rfl
    obtain ⟨t, ht⟩ := hk
    rw [visit?_stamp hi, if_pos rfl] at ht
    cases hv : n.visit <;> simp [Node.leave, hv, Visit.close] at ht
  exact ⟨hne, (hk.of_stamp hi).resolve_left hne⟩

end

omit [BEq ι] [Hashable ι] in
private theorem map_unvisited_set {ns : Array (Node ι α)} {i : NodeIndex} {m n : Node ι α}
    (hi : ns[i]? = some m) (hn : n.unvisited = m.unvisited) :
    (ns.setIfInBounds i n).map Node.unvisited = ns.map Node.unvisited := by
  obtain ⟨hlt, rfl⟩ := Array.getElem?_eq_some_iff.mp hi
  apply Array.ext_getElem?
  intro j
  rw [Array.getElem?_map, Array.getElem?_map, Array.getElem?_setIfInBounds]
  split
  · next hij =>
    subst hij
    simp [hlt, hn]
  · rfl

/-- Writing a node that differs from the old one in its marks only keeps the skeleton. -/
theorem reset_stamp {g : Graph ι α} {i : NodeIndex} {m n : Node ι α}
    (hi : g.nodes[i]? = some m) (hn : n.unvisited = m.unvisited) :
    (g.stamp i n).reset = g.reset := by
  simp only [reset, stamp, map_unvisited_set hi hn]

/-- Replacing a node by one that differs in its marks only keeps the skeleton. -/
theorem reset_put {g : Graph ι α} {i : NodeIndex} {m n : Node ι α}
    (hi : g.nodes[i]? = some m) (hn : n.unvisited = m.unvisited) :
    (g.put i n).reset = g.reset := by
  simp only [reset, put, map_unvisited_set hi hn]

end Precedence.Graph
