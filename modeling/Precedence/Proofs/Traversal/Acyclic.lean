import Precedence.Proofs.Traversal.Steady

/-!
# Walks that have closed no cycle

A walk over a graph that was untouched when it began, and in which no edge so far has led to an
open node, knows three things at every step: only the nodes on its path are open; an edge of a
node on the path is still to be looked at, or leads to a finished node or further in along the
path; and every edge out of a finished node leads to a node that was finished before. From the
last it follows that no cycle goes through a finished node.
-/

namespace Precedence

open Relation (ReflTransGen TransGen)

variable {ι α σ ε : Type} [BEq ι] [Hashable ι]

namespace Graph

/-- Edges out of finished nodes lead to nodes that were finished before. -/
def Settled (g : Graph ι α) : Prop :=
  ∀ i j, g.Edge i j → ∀ t, g.exit? i = some t → ∃ u, g.exit? j = some u ∧ u < t

private theorem Settled.exit_lt {g : Graph ι α} (h : g.Settled) {i j : NodeIndex}
    (hij : TransGen g.Edge i j) {t : Nat} (hi : g.exit? i = some t) :
    ∃ u, g.exit? j = some u ∧ u < t := by
  induction hij with
  | single hij => exact h _ _ hij t hi
  | tail _ hjk ih =>
    obtain ⟨u, hu, hut⟩ := ih
    obtain ⟨v, hv, hvu⟩ := h _ _ hjk u hu
    exact ⟨v, hv, Nat.lt_trans hvu hut⟩

/-- What is reached from a finished node is finished. -/
theorem Settled.isFinished {g : Graph ι α} (h : g.Settled) {i j : NodeIndex}
    (hi : g.IsFinished i) (hij : ReflTransGen g.Edge i j) : g.IsFinished j := by
  obtain ⟨t, ht⟩ := hi
  rcases Relation.reflTransGen_iff_eq_or_transGen.mp hij with rfl | hij
  · exact ⟨t, ht⟩
  · obtain ⟨u, hu, _⟩ := h.exit_lt hij ht
    exact ⟨u, hu⟩

/-- No cycle goes through a finished node. -/
theorem Settled.not_transGen_self {g : Graph ι α} (h : g.Settled) {i : NodeIndex}
    (hi : g.IsFinished i) : ¬ TransGen g.Edge i i := by
  intro hii
  obtain ⟨t, ht⟩ := hi
  obtain ⟨u, hu, hut⟩ := h.exit_lt hii ht
  rw [ht] at hu
  cases hu
  exact Nat.lt_irrefl t hut

end Graph

namespace Walk

/-- Each edge out of a node on the path is still to be looked at, or leads to a finished node or to
one of the nodes further in, which `inner` are for the first frame. -/
def Covered (g : Graph ι α) (inner : List NodeIndex) : List Frame → Prop
  | [] => True
  | f :: path =>
    (∀ j, g.Edge f.index j → j ∈ f.pending ∨ g.IsFinished j ∨ j ∈ inner) ∧
      Covered g (f.index :: inner) path

private theorem Covered.mono {g g' : Graph ι α} (hedge : g'.Edge = g.Edge)
    {inner inner' : List NodeIndex}
    (h : ∀ j, g.IsFinished j ∨ j ∈ inner → g'.IsFinished j ∨ j ∈ inner') {path : List Frame}
    (hc : Covered g inner path) : Covered g' inner' path := by
  induction path generalizing inner inner' with
  | nil => trivial
  | cons f path ih =>
    obtain ⟨hf, hpath⟩ := hc
    constructor
    · intro j hj
      rw [hedge] at hj
      exact (hf j hj).imp_right (h j)
    · apply ih _ hpath
      intro j hj
      rcases hj with hj | hj
      · exact (h j (.inl hj)).imp_right (List.mem_cons_of_mem _)
      · rcases List.mem_cons.mp hj with rfl | hj
        · exact .inr (by simp)
        · exact (h j (.inr hj)).imp_right (List.mem_cons_of_mem _)

private theorem Covered.advance {g : Graph ι α} {inner : List NodeIndex} {i j : NodeIndex}
    {pending : List NodeIndex} {path : List Frame}
    (hc : Covered g inner (⟨i, j :: pending⟩ :: path)) (hj : g.IsFinished j ∨ j ∈ inner) :
    Covered g inner (⟨i, pending⟩ :: path) := by
  refine ⟨?_, hc.2⟩
  intro k hk
  rcases hc.1 k hk with hp | hk
  · rcases List.mem_cons.mp hp with rfl | hp
    · exact .inr hj
    · exact .inl hp
  · exact .inr hk

/-- The open nodes are those on the path, and the finished ones are settled. -/
structure Tidy (g : Graph ι α) (path : List Frame) : Prop extends Steady g path where
  mem_of_isOpen : ∀ i, g.IsOpen i → i ∈ trail path
  settled : g.Settled
  /-- The clock is ahead of all exits. -/
  exit_lt_clock : ∀ i t, g.exit? i = some t → t < g.clock

/-- A walk over an untouched graph that has closed no cycle so far. -/
structure Clean (g : Graph ι α) (path : List Frame) : Prop extends Tidy g path where
  covered : Covered g [] path

section
variable {g : Graph ι α} {i j : NodeIndex} {pending : List NodeIndex} {path : List Frame}

/-- An untouched graph is clean before a walk begins. -/
theorem clean_of_untouched (h : g.Untouched) : Clean g [] := by
  have hexit := h.exit?_eq_none
  refine ⟨⟨steady_nil g, ?_, ?_, ?_⟩, trivial⟩
  · rintro i ⟨t, ht⟩
    cases h i _ ht
  · intro i j _ t ht
    simp [hexit] at ht
  · intro i t ht
    simp [hexit] at ht

/-- When a walk is over, what has been entered has been left. -/
theorem Tidy.isFinished_of_isEntered (h : Tidy g []) (hi : g.IsEntered i) : g.IsFinished i := by
  rcases hi.isOpen_or_isFinished with ho | hf
  · exact absurd (h.mem_of_isOpen i ho) (by simp [trail])
  · exact hf

private theorem Tidy.advance (h : Tidy g (⟨i, j :: pending⟩ :: path)) :
    Tidy g (⟨i, pending⟩ :: path) where
  toSteady := h.toSteady.advance
  mem_of_isOpen := h.mem_of_isOpen
  settled := h.settled
  exit_lt_clock := h.exit_lt_clock

private theorem Clean.advance (h : Clean g (⟨i, j :: pending⟩ :: path)) (hj : g.IsFinished j) :
    Clean g (⟨i, pending⟩ :: path) :=
  ⟨h.toTidy.advance, h.covered.advance (.inl hj)⟩

/-- A new node may be entered from the innermost one, or as the first of all. -/
theorem Tidy.push {n target : Node ι α} (h : Tidy g path) (hc : Covered g [j] path)
    (hj : g.nodes[j]? = some target) (hv : target.visit = .undiscovered)
    (hn : n.unvisited = target.unvisited) (hvisit : n.visit = .discovered g.clock)
    (hedge : ∀ f ∈ path.head?, g.Edge f.index j) :
    Clean (g.stamp j n) (⟨j, target.neighbors⟩ :: path) := by
  have hkeep : (g.stamp j n).Edge = g.Edge := Graph.edge_congr (Graph.reset_stamp hj hn)
  have hexit := Graph.exit?_enter hj hv hvisit
  refine ⟨⟨h.toSteady.push hj hv hn hvisit hedge, ?_, ?_, ?_⟩, ?_, ?_⟩
  · intro k hk
    apply List.mem_cons.mpr
    exact (hk.of_stamp hj).imp_right (h.mem_of_isOpen k)
  · intro k l hkl t ht
    rw [hkeep] at hkl
    rw [hexit] at ht ⊢
    exact h.settled k l hkl t ht
  · intro k t ht
    rw [hexit] at ht
    exact Nat.lt_succ_of_lt (h.exit_lt_clock k t ht)
  · intro k hk
    rw [hkeep, Graph.Edge, Graph.successors_of_node hj] at hk
    exact .inl hk
  · apply hc.mono hkeep
    rintro k (⟨t, ht⟩ | hk)
    · exact .inl ⟨t, by rw [hexit, ht]⟩
    · exact .inr hk

private theorem Clean.pop {n : Node ι α} (h : Clean g (⟨i, []⟩ :: path))
    (hi : g.nodes[i]? = some n) :
    Clean (g.stamp i (n.leave g.clock)) path := by
  have hedge : (g.stamp i (n.leave g.clock)).Edge = g.Edge :=
    Graph.edge_congr (Graph.reset_stamp hi rfl)
  have ho : g.IsOpen i := h.isOpen i (head_mem_trail ..)
  have hexit := Graph.exit?_leave hi ho
  have hold {k : NodeIndex} {u : Nat} (hk : g.exit? k = some u) :=
    Graph.exit?_leave_of_eq_some hi ho hk
  refine ⟨⟨h.toSteady.pop hi rfl, ?_, ?_, ?_⟩, ?_⟩
  · intro k hk
    obtain ⟨hne, ho⟩ := hk.of_leave hi
    exact (List.mem_cons.mp (h.mem_of_isOpen k ho)).resolve_left hne
  · intro k l hkl u hu
    rw [hedge] at hkl
    rw [hexit] at hu
    split at hu
    · next hik =>
      subst hik
      cases hu
      -- Nothing is left to look at, so all edges lead to finished nodes.
      have hl := h.covered.1 l hkl
      simp only [List.not_mem_nil, false_or, or_false] at hl
      obtain ⟨v, hv⟩ := hl
      exact ⟨v, hold hv, h.exit_lt_clock l v hv⟩
    · obtain ⟨v, hv, hvu⟩ := h.settled k l hkl u hu
      exact ⟨v, hold hv, hvu⟩
  · intro k u hu
    exact Graph.exit_lt_clock_leave hi ho h.exit_lt_clock hu
  · apply h.covered.2.mono hedge
    rintro k (⟨u, hu⟩ | hk)
    · exact .inl ⟨u, hold hu⟩
    · rw [List.mem_singleton] at hk
      exact .inl ⟨g.clock, by rw [hexit, hk, if_pos rfl]⟩

end

/-- An edge that closes a cycle leads to an open node. -/
theorem isOpen_of_back {g : Graph ι α} {j : NodeIndex} {source target : Node ι α}
    (hj : g.nodes[j]? = some target)
    (hk : EdgeKind.between g.directed source j target = some .back) : g.IsOpen j := by
  cases hv : target.visit with
  | undiscovered => simp [EdgeKind.between, hv] at hk
  | discovered t => exact ⟨t, by rw [Graph.visit?_of_node hj, hv]⟩
  | finished t u =>
    simp only [EdgeKind.between, hv] at hk
    split at hk
    · cases hk
    · split at hk <;> cases hk

/-- An edge that is no tree edge and closes no cycle leads to a node that has been left. -/
theorem isFinished_of_between {g : Graph ι α} {j : NodeIndex} {source target : Node ι α}
    {kind : EdgeKind} (hj : g.nodes[j]? = some target)
    (hk : EdgeKind.between g.directed source j target = some kind) (ht : kind ≠ .tree)
    (hb : kind ≠ .back) : g.IsFinished j := by
  cases hv : target.visit with
  | undiscovered =>
    rw [(EdgeKind.between_eq_tree_iff ..).mpr hv] at hk
    cases hk
    exact absurd rfl ht
  | discovered t =>
    simp only [EdgeKind.between, hv] at hk
    split at hk
    · cases hk
    · cases hk
      exact absurd rfl hb
  | finished t u =>
    exact ⟨u, by simp [Graph.exit?_of_node hj, Node.exitTime?, hv, Visit.exitTime?]⟩

omit [BEq ι] [Hashable ι] in
/-- In a directed graph no edge is passed over. -/
theorem between_ne_none {directed : Bool} (hd : directed = true) (source : Node ι α)
    (j : NodeIndex) (target : Node ι α) : EdgeKind.between directed source j target ≠ none := by
  have hsome := EdgeKind.isSome_between_directed source j target
  intro hk
  rw [hd] at hk
  rw [hk] at hsome
  cases hsome

/-- While an observer refuses edges that close cycles, a walk over a directed graph stays clean. -/
theorem Clean.moves {o : Observer ι α σ ε}
    (ho : ∀ source target s, (o.notice (.edge source target .back) s).2 ≠ none)
    {w w' : Walk ι α σ} (hd : w.graph.directed = true) (hw : Clean w.graph w.path)
    (h : Moves o w w') : Clean w'.graph w'.path := by
  cases h with
  | leave hi hn => exact hw.pop hi
  | pass hi hj hk => exact absurd hk (between_ne_none hd _ _ _)
  | @report _ s _ _ _ _ _ source target kind hi hj hk ht hn =>
    refine hw.advance (isFinished_of_between hj hk ht ?_)
    rintro rfl
    exact ho source target s (by rw [hn])
  | @descend g _ _ _ i j pending path _ _ hi hj hv he hn =>
    have hc : Covered g [j] (⟨i, j :: pending⟩ :: path) :=
      hw.covered.mono rfl fun k hk => hk.imp_right (List.mem_cons_of_mem _)
    exact hw.toTidy.advance.push (hc.advance (.inr (by simp))) hj hv rfl rfl hw.edge_head

end Walk

end Precedence
