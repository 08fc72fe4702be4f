import Precedence.Proofs.Graph.Skeleton

/-!
# The marks that walks leave

When a node was entered and from which node it was first reached, observed as in the skeleton: past
the end of the arena there is no mark. Each mark changes at the node that is written, and nowhere
else.
-/

namespace Precedence.Graph

variable {ι α : Type} [BEq ι] [Hashable ι]

/-- The clock when the node at an index was entered, if it was. -/
def entrance? (g : Graph ι α) (i : NodeIndex) : Option Nat := (g.visit? i).bind (·.entryTime?)

/-- The node from which a walk first reached for the node at an index. -/
def parent? (g : Graph ι α) (i : NodeIndex) : Option NodeIndex :=
  (g.nodes[i]?.map (·.parent)).join

theorem entrance?_of_node {g : Graph ι α} {i : NodeIndex} {n : Node ι α}
    (hi : g.nodes[i]? = some n) : g.entrance? i = n.entryTime? := by
  simp [entrance?, visit?, hi, Node.entryTime?]

theorem parent?_of_node {g : Graph ι α} {i : NodeIndex} {n : Node ι α}
    (hi : g.nodes[i]? = some n) : g.parent? i = n.parent := by
  simp [parent?, hi]

/-- Exactly the nodes that have been entered have an entry reading. -/
theorem isEntered_iff (g : Graph ι α) (i : NodeIndex) :
    g.IsEntered i ↔ ∃ t, g.entrance? i = some t := by
  rw [IsEntered]
  cases hv : g.visit? i with
  | none => simp [entrance?, hv]
  | some v => cases v <;> simp [entrance?, hv, Visit.entryTime?]

/-- A node that has been left was entered. -/
theorem IsFinished.isEntered {g : Graph ι α} {i : NodeIndex} (h : g.IsFinished i) :
    g.IsEntered i := by
  obtain ⟨u, hu⟩ := h
  obtain ⟨t, ht⟩ := (g.exit?_eq_some_iff i u).mp hu
  exact ⟨_, ht, by simp⟩

/-- An open node has been entered. -/
theorem IsOpen.isEntered {g : Graph ι α} {i : NodeIndex} (h : g.IsOpen i) : g.IsEntered i := by
  obtain ⟨t, ht⟩ := h
  exact ⟨_, ht, by simp⟩

/-- An open node has been entered and has no exit. -/
theorem isOpen_iff (g : Graph ι α) (i : NodeIndex) :
    g.IsOpen i ↔ g.IsEntered i ∧ g.exit? i = none := by
  rw [IsOpen, IsEntered, exit?]
  cases hv : g.visit? i with
  | none => simp
  | some v => cases v <;> simp [Visit.exitTime?]

/-- A node without a visit has not been entered. -/
theorem not_isEntered_of_node {g : Graph ι α} {i : NodeIndex} {n : Node ι α}
    (hi : g.nodes[i]? = some n) (hv : n.visit = .undiscovered) : ¬ g.IsEntered i := by
  rintro ⟨v, hv', hne⟩
  rw [visit?_of_node hi, hv] at hv'
  exact hne (Option.some.inj hv').symm

/-- Nobody has been entered in a graph that has been reset. -/
theorem untouched_reset (g : Graph ι α) : g.reset.Untouched := by
  intro i v hv
  simp only [visit?, reset, Array.getElem?_map, Option.map_map] at hv
  obtain ⟨n, -, rfl⟩ := Option.map_eq_some_iff.mp hv
  rfl

/-- Nobody has a parent in a graph that has been reset. -/
theorem parent?_reset (g : Graph ι α) (i : NodeIndex) : g.reset.parent? i = none := by
  cases hi : g.nodes[i]? <;> simp [parent?, reset, Node.unvisited, hi]

section
variable {g g' : Graph ι α} (h : g'.visit? = g.visit?)
include h

/-- Graphs with the same visits have the same entrances. -/
theorem entrance?_congr : g'.entrance? = g.entrance? := by
  funext i
  rw [entrance?, entrance?, h]

/-- Graphs with the same visits have the same exits. -/
theorem exit?_congr : g'.exit? = g.exit? := by
  funext i
  rw [exit?, exit?, h]

end

/-! ### Writing one node -/

section
variable {g : Graph ι α} {i : NodeIndex} {m n : Node ι α} (hi : g.nodes[i]? = some m)
include hi

theorem entrance?_stamp (n : Node ι α) (k : NodeIndex) :
    (g.stamp i n).entrance? k = if i = k then n.entryTime? else g.entrance? k := by
  simp only [entrance?, visit?_stamp hi n k]
  split <;> rfl

theorem parent?_stamp (n : Node ι α) (k : NodeIndex) :
    (g.stamp i n).parent? k = if i = k then n.parent else g.parent? k := by
  simp only [parent?, getElem?_stamp hi n k]
  split <;> rfl

theorem getElem?_put (n : Node ι α) (k : NodeIndex) :
    (g.put i n).nodes[k]? = if i = k then some n else g.nodes[k]? := by
  have hlt : i < g.nodes.size := (Array.getElem?_eq_some_iff.mp hi).1
  simp only [put, Array.getElem?_setIfInBounds, hlt, ↓reduceIte]

theorem parent?_put (n : Node ι α) (k : NodeIndex) :
    (g.put i n).parent? k = if i = k then n.parent else g.parent? k := by
  simp only [parent?, getElem?_put hi n k]
  split <;> rfl

/-- A node that keeps its visit may be written without a change in any visit. -/
theorem visit?_put (hn : n.visit = m.visit) : (g.put i n).visit? = g.visit? := by
  funext k
  simp only [visit?, getElem?_put hi n k]
  split
  · next hik =>
    subst hik
    simp [hi, hn]
  · rfl

end

end Precedence.Graph
