import Precedence.Proofs.Registry.Records
import Precedence.Proofs.Traversal.Steady
import Precedence.Traversal.Operation

/-!
# Graphs that operations build

Nodes are found by their identifiers alone, and no node lists a neighbour twice. Every operation
that changes a graph keeps this, and so do walks, which leave the skeleton alone.
-/

namespace Precedence.Graph

variable {ι α : Type} [BEq ι] [Hashable ι]

/-- The lookup is exact, and no edge is there twice. -/
structure WellFormed (g : Graph ι α) : Prop where
  indexed : g.Indexed
  nodup : ∀ i, (g.successors i).Nodup

private theorem indexed_iff (g : Graph ι α) :
    g.Indexed ↔ ∀ a i, g.find? a = some i ↔ ∃ b, g.id? i = some b ∧ b == a := by
  simp only [Indexed, id?, Option.map_eq_some_iff, exists_exists_and_eq_and]

/-- An identifier is found where it stands. -/
theorem Indexed.find?_of_id? [EquivBEq ι] {g : Graph ι α} (h : g.Indexed) {i : NodeIndex} {a : ι}
    (hi : g.id? i = some a) : g.find? a = some i :=
  (g.indexed_iff.mp h a i).mpr ⟨a, hi, BEq.refl a⟩

/-- A node is named as an identifier exactly if it is the node that the identifier finds. -/
theorem Indexed.id?_beq_iff {g : Graph ι α} (h : g.Indexed) {i : NodeIndex} {a : ι}
    (hi : g.find? a = some i) (k : NodeIndex) : g.id? k == some a ↔ k = i := by
  have hk := g.indexed_iff.mp h a k
  rw [hi, Option.some.injEq, eq_comm] at hk
  rw [hk]
  cases g.id? k <;> simp

/-- A node is created without edges, and all others keep theirs. -/
theorem successors_intern (g : Graph ι α) (a : ι) : (g.intern a).1.successors = g.successors := by
  cases ha : g.find? a with
  | some i => rw [intern_of_some ha]
  | none =>
    funext k
    simp only [intern_of_none ha, successors, Array.getElem?_push]
    split
    · next hk => simp [hk]
    · rfl

namespace WellFormed

private theorem congr {g g' : Graph ι α} (h : g.WellFormed) (hid : g'.id? = g.id?)
    (hfind : g'.find? = g.find?) (hsuccessors : g'.successors = g.successors) :
    g'.WellFormed where
  indexed := by
    rw [indexed_iff, hfind, hid]
    exact g.indexed_iff.mp h.indexed
  nodup i := by
    rw [hsuccessors]
    exact h.nodup i

private theorem congr_reset {g g' : Graph ι α} (h : g.WellFormed) (hreset : g'.reset = g.reset) :
    g'.WellFormed :=
  h.congr (id?_congr hreset) (find?_congr hreset) (successors_congr hreset)

/-- An empty graph is well-formed. -/
theorem empty : (Graph.empty : Graph ι α).WellFormed where
  indexed := records_empty.indexed
  nodup i := by simp [successors, Graph.empty]

/-- The mode does not matter. -/
theorem setDirected {g : Graph ι α} (h : g.WellFormed) (directed : Bool) :
    (g.setDirected directed).WellFormed :=
  h.congr rfl rfl rfl

/-- Forgetting all walks keeps a graph well-formed. -/
theorem reset {g : Graph ι α} (h : g.WellFormed) : g.reset.WellFormed :=
  h.congr (funext g.id?_reset) rfl (funext g.successors_reset)

/-- A node may be changed in all but its identifier, unless a neighbour is listed twice then. -/
theorem modify {g : Graph ι α} (h : g.WellFormed) {f : Node ι α → Node ι α}
    (hid : ∀ n, (f n).id = n.id) (hnodup : ∀ n, n.neighbors.Nodup → (f n).neighbors.Nodup)
    (i : NodeIndex) : (g.modify i f).WellFormed where
  indexed := h.indexed.modify hid i
  nodup k := by
    have hk := h.nodup k
    simp only [successors, Graph.modify, Array.getElem?_modify] at hk ⊢
    split
    · cases hn : g.nodes[k]? with
      | none => simp
      | some n =>
        rw [hn] at hk
        exact hnodup n hk
    · exact hk

/-- A node may be changed in all but its identifier and its edges. -/
theorem edit {g : Graph ι α} (h : g.WellFormed) (i : NodeIndex) {f : Node ι α → Node ι α}
    (hid : ∀ n, (f n).id = n.id) (hneighbors : ∀ n, (f n).neighbors = n.neighbors) :
    (g.modify i f).WellFormed :=
  h.modify hid (fun n hn => (hneighbors n).symm ▸ hn) i

/-- An edge may be added. -/
theorem addNeighbor {g : Graph ι α} (h : g.WellFormed) (i j : NodeIndex) :
    (g.modify i (·.addNeighbor j)).WellFormed := by
  refine h.modify ?_ (fun n => n.nodup_neighbors_addNeighbor j) i
  intro n
  unfold Node.addNeighbor
  split <;> rfl

section
variable [EquivBEq ι] [LawfulHashable ι]

/-- An identifier may be interned. -/
theorem intern {g : Graph ι α} (h : g.WellFormed) (a : ι) : (g.intern a).1.WellFormed where
  indexed := h.indexed.intern a
  nodup i := by
    rw [successors_intern]
    exact h.nodup i

/-- An edge may be added between two identifiers. -/
theorem connect {g : Graph ι α} (h : g.WellFormed) (source target : ι) :
    (g.connect source target).1.WellFormed :=
  ((h.intern source).intern target).addNeighbor _ _

end

end WellFormed

/-- A call keeps a graph well-formed, however it ends. -/
theorem WellFormed.walk {σ ε : Type} {g : Graph ι α} (h : g.WellFormed)
    (o : Observer ι α σ ε) (s : σ) (c : Call) : (g.walk o s c).graph.WellFormed := by
  rw [walk_eq_walkEach]
  exact h.congr_reset (g.reset_walkEach o s _)

section
variable [EquivBEq ι] [LawfulHashable ι]

/-- Every operation keeps a graph well-formed. -/
theorem WellFormed.apply {g : Graph ι α} (h : g.WellFormed) (op : Operation ι α) :
    (g.apply op).WellFormed := by
  cases op with
  | intern id => exact h.intern id
  | addEdge source target =>
    rw [apply_addEdge]
    exact h.addNeighbor source target
  | setDirected directed => exact h.setDirected directed
  | setPayload i payload =>
    rw [apply_setPayload]
    exact h.edit i (fun _ => rfl) fun _ => rfl
  | takePayload i =>
    rw [apply_takePayload]
    exact h.edit i (fun _ => rfl) fun _ => rfl
  | updatePayload i f =>
    rw [apply_updatePayload]
    exact h.edit i (fun _ => rfl) fun _ => rfl
  | walk o s c => exact h.walk o s c
  | reset => exact h.reset

/-- So do several operations, one after the other. -/
theorem WellFormed.after {g : Graph ι α} (h : g.WellFormed) (ops : List (Operation ι α)) :
    (g.after ops).WellFormed := by
  induction ops generalizing g with
  | nil => exact h
  | cons op ops ih => exact ih (h.apply op)

end

end Precedence.Graph
