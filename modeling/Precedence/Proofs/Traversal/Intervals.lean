import Mathlib
import Precedence.Proofs.Graph.Widening
import Precedence.Proofs.Traversal.Extent

/-!
# Intervals and descent

As long as no walk is stopped, the time between the entry and the exit of a node nests like
parentheses, over all calls together: of two nodes one is left before the other is entered, or one
lies within the other, and then it descends from it. The nodes without a parent are those at which
the calls found a new tree to begin. The graph may grow and change its mode between calls.
-/

namespace Precedence

open Relation (TransGen)

variable {ι α σ ε : Type} [BEq ι] [Hashable ι]

namespace Graph

/-! ### Calls that go through -/

/-- Those of a list of starts, walked from in turn, that are new when their turn comes. -/
def founders (g : Graph ι α) (o : Observer ι α σ ε) (s : σ) : List NodeIndex → List NodeIndex
  | [] => []
  | start :: starts =>
    let found := if g.IsNew start then [start] else []
    match g.walkFrom o s start with
    | ⟨g, s, .ok ()⟩ => found ++ g.founders o s starts
    | ⟨_, _, .error _⟩ => found

/-- The starts of an operation that are new when their turn comes. -/
def foundersOf (g : Graph ι α) : Operation ι α → List NodeIndex
  | .walk o s c => g.founders o s (g.starts c)
  | _ => []

/-- The starts of operations, one after the other, that are new when their turn comes. -/
def foundersOver (g : Graph ι α) : List (Operation ι α) → List NodeIndex
  | [] => []
  | op :: ops => g.foundersOf op ++ (g.apply op).foundersOver ops

/-- The operation is a walk that goes through, or it leaves the marks alone. -/
def GoesThrough (g : Graph ι α) : Operation ι α → Prop
  | .walk o s c => (g.walk o s c).result = .ok ()
  | .reset => False
  | _ => True

/-- All walks among the operations go through, and none is forgotten. -/
def Uninterrupted (g : Graph ι α) : List (Operation ι α) → Prop
  | [] => True
  | op :: ops => g.GoesThrough op ∧ (g.apply op).Uninterrupted ops

/-! ### Nodes without a parent -/

/-- Exactly these nodes have been entered without a parent. -/
def FoundedBy (g : Graph ι α) (is : List NodeIndex) : Prop :=
  ∀ i, i ∈ is ↔ g.IsEntered i ∧ g.parent? i = none

section
variable {g : Graph ι α} {is : List NodeIndex} {i j : NodeIndex}

/-- A new node that is entered without a parent joins the others. -/
theorem FoundedBy.found {n : Node ι α} (h : g.FoundedBy is) (hj : g.nodes[j]? = some n)
    (hparent : n.parent = none) : (g.stamp j (n.enter g.clock)).FoundedBy (is ++ [j]) := by
  intro k
  rw [List.mem_append, h k, List.mem_singleton, isEntered_enter hj rfl, parent?_stamp hj]
  by_cases hjk : j = k
  · subst hjk
    simp [Node.enter, hparent]
  · simp [hjk, Ne.symm hjk]

private theorem FoundedBy.descend {n target : Node ι α} (h : g.FoundedBy is)
    (hj : g.nodes[j]? = some target) (hv : target.visit = .undiscovered)
    (hparent : n.parent = some i) : (g.stamp j (n.enter g.clock)).FoundedBy is := by
  intro k
  rw [h k, isEntered_enter hj rfl, parent?_stamp hj]
  by_cases hjk : j = k
  · subst hjk
    simp [Node.enter, hparent, not_isEntered_of_node hj hv]
  · simp [hjk]

private theorem FoundedBy.leave {n : Node ι α} (h : g.FoundedBy is) (hi : g.nodes[i]? = some n) :
    (g.stamp i (n.leave g.clock)).FoundedBy is := by
  intro k
  rw [h k, isEntered_iff, isEntered_iff, entrance?_leave hi, parent?_leave hi]

private theorem FoundedBy.widen {g' : Graph ι α} (h : g.FoundedBy is) (hw : g.Widens g') :
    g'.FoundedBy is := by
  intro k
  rw [h k, hw.isEntered_iff, hw.parent?_eq]

end

end Graph

namespace Walk

private theorem Rooted.widen {g g' : Graph ι α} (h : Rooted g []) (hw : g.Widens g') :
    Rooted g' [] where
  toSteady := steady_nil g'
  nested := h.nested.congr_readings hw.entrance?_eq hw.exit?_eq hw.parent?_eq
  mem_of_isOpen i hi := by
    rw [Graph.isOpen_iff, hw.isEntered_iff, hw.exit?_eq, ← Graph.isOpen_iff] at hi
    exact h.mem_of_isOpen i hi
  adopted := by simp [trail]
  entrance_lt_clock := by
    rw [hw.entrance?_eq, hw.clock_eq]
    exact h.entrance_lt_clock
  exit_lt_clock := by
    rw [hw.exit?_eq, hw.clock_eq]
    exact h.exit_lt_clock

/-- Every move keeps a graph nested. -/
theorem Rooted.moves {o : Observer ι α σ ε} {w w' : Walk ι α σ} (hw : Rooted w.graph w.path)
    (h : Moves o w w') : Rooted w'.graph w'.path := by
  cases h with
  | leave hi hn => exact hw.pop hi
  | pass => exact hw.advance
  | report => exact hw.advance
  | descend hi hj hv he hn => exact hw.advance.push hj hv rfl rfl rfl hw.edge_head

/-- No move adds a node without a parent. -/
theorem Moves.foundedBy {o : Observer ι α σ ε} {w w' : Walk ι α σ} (h : Moves o w w')
    {is : List NodeIndex} (hw : w.graph.FoundedBy is) : w'.graph.FoundedBy is := by
  cases h with
  | leave hi hn => exact hw.leave hi
  | pass => exact hw
  | report => exact hw
  | descend hi hj hv he hn => exact hw.descend hj hv rfl

end Walk

namespace Graph

/-- The graph is nested, no node is open, and exactly these nodes have been entered without a
parent. -/
structure Grown (g : Graph ι α) (is : List NodeIndex) : Prop where
  rooted : Walk.Rooted g []
  foundedBy : g.FoundedBy is

namespace Grown

variable {g : Graph ι α} {is : List NodeIndex}

/-- A walk that goes through adds its start to the nodes without a parent, if it is new. -/
theorem walkFrom (h : g.Grown is) {o : Observer ι α σ ε} {s : σ} {start : NodeIndex}
    (hok : (g.walkFrom o s start).result = .ok ()) :
    (g.walkFrom o s start).graph.Grown
      (is ++ if g.IsNew start then [start] else []) := by
  obtain ⟨p, hp, hw⟩ := exists_starts o g s start
  rw [hw] at hok ⊢
  cases hp with
  | lost hi => cases hok
  | @known n hi hv =>
    have hentered : g.IsEntered start := ⟨n.visit, visit?_of_node hi, hv⟩
    rw [if_neg fun hnew => hnew.not_isEntered hentered, List.append_nil]
    exact h
  | @enter n s' hi hv hn =>
    rw [if_pos (isNew_of_node hi hv)]
    have hparent := h.rooted.parent?_of_new hi hv
    have hrooted : Walk.Rooted (g.stamp start (n.enter g.clock)) [⟨start, n.neighbors⟩] :=
      h.rooted.push hi hv rfl rfl hparent (by simp)
    have hfounded := h.foundedBy.found hi hparent
    obtain ⟨w, ⟨hr, hf⟩, hh⟩ := Walk.run_of_invariant (o := o)
      (P := fun w => Walk.Rooted w.graph w.path ∧ w.graph.FoundedBy (is ++ [start]))
      (fun _ _ hP hm => ⟨hP.1.moves hm, hm.foundedBy hP.2⟩)
      (w := ⟨g.stamp start (n.enter g.clock), s', [⟨start, n.neighbors⟩]⟩) ⟨hrooted, hfounded⟩
    obtain ⟨hpath, hgraph⟩ := hh.of_ok hok
    rw [hpath] at hr
    show (Walk.run o _).graph.Grown _
    rw [hgraph]
    exact ⟨hr, hf⟩
  | refused hi hv hn => cases hok

/-- Walks that go through add those of their starts that are new when their turn comes. -/
theorem walkEach (h : g.Grown is) {o : Observer ι α σ ε} {s : σ} {starts : List NodeIndex}
    (hok : (g.walkEach o s starts).result = .ok ()) :
    (g.walkEach o s starts).graph.Grown (is ++ g.founders o s starts) := by
  induction starts generalizing g s is with
  | nil =>
    rw [founders, List.append_nil]
    exact h
  | cons start starts ih =>
    have hfirst : (g.walkFrom o s start).result = .ok () → (g.walkFrom o s start).graph.Grown
        (is ++ if g.IsNew start then [start] else []) := h.walkFrom
    rw [Graph.walkEach] at hok ⊢
    rw [founders]
    generalize g.walkFrom o s start = r at hok hfirst ⊢
    obtain ⟨g', s', result⟩ := r
    cases result with
    | error e => cases hok
    | ok =>
      rw [← List.append_assoc]
      exact ih (hfirst rfl) hok

/-- An operation that goes through adds the starts that it finds new. -/
theorem apply (h : g.Grown is) {op : Operation ι α} (hop : g.GoesThrough op) :
    (g.apply op).Grown (is ++ g.foundersOf op) := by
  have hquiet (hq : op.Quiet) (hnone : g.foundersOf op = []) :
      (g.apply op).Grown (is ++ g.foundersOf op) := by
    rw [hnone, List.append_nil]
    exact ⟨h.rooted.widen (g.widens_apply hq), h.foundedBy.widen (g.widens_apply hq)⟩
  cases op with
  | walk o s c =>
    rw [Graph.apply, foundersOf, walk_eq_walkEach]
    rw [GoesThrough, walk_eq_walkEach] at hop
    exact h.walkEach hop
  | reset => exact hop.elim
  | _ => exact hquiet trivial rfl

/-- So do several operations. -/
theorem after (h : g.Grown is) {ops : List (Operation ι α)} (hops : g.Uninterrupted ops) :
    (g.after ops).Grown (is ++ g.foundersOver ops) := by
  induction ops generalizing g is with
  | nil =>
    rw [foundersOver, List.append_nil]
    exact h
  | cons op ops ih =>
    rw [foundersOver, ← List.append_assoc]
    exact ih (h.apply hops.1) hops.2

end Grown

/-- A graph that has been reset has no node without a parent to account for. -/
theorem grown_reset (g : Graph ι α) : g.reset.Grown [] where
  rooted := Walk.rooted_of_unmarked g.untouched_reset g.parent?_reset
  foundedBy i := by
    simp only [List.not_mem_nil, false_iff, not_and]
    rintro ⟨v, hv, hne⟩
    exact absurd (g.untouched_reset i v hv) hne

/-! ### Intervals -/

/-- `j` was entered after `i` and left before it. -/
def Encloses (g : Graph ι α) (i j : NodeIndex) : Prop :=
  g.Elder i j ∧ ∃ t u, g.exit? j = some t ∧ g.exit? i = some u ∧ t < u

/-- The time that finished nodes spend under way nests like parentheses along their parents, and
these founders are the nodes without a parent. -/
structure Parenthesized (g : Graph ι α) (founders : List NodeIndex) : Prop where
  entrance_lt_exit : ∀ i t u, g.entrance? i = some t → g.exit? i = some u → t < u
  /-- Two nodes are under way at different times, or one of them within the time of the other. -/
  precedes_or_encloses : ∀ i j, g.IsFinished i → g.IsFinished j → i ≠ j →
    (g.Precedes i j ∨ g.Precedes j i) ∨ g.Encloses i j ∨ g.Encloses j i
  /-- One is under way within the time of the other exactly if it descends from it. -/
  encloses_iff : ∀ i j, g.IsFinished i → g.IsFinished j → i ≠ j →
    (g.Encloses i j ↔ TransGen (fun child parent => g.parent? child = some parent) j i)
  parent?_eq_none_iff : ∀ i, g.IsFinished i → (g.parent? i = none ↔ i ∈ founders)

namespace Nested

variable {g : Graph ι α} {i j : NodeIndex} (h : g.Nested)
include h

private theorem encloses_of_descends (hji : g.Descends j i) (hne : j ≠ i) (hi : g.IsFinished i) :
    g.Encloses i j := by
  obtain ⟨t, ht⟩ := hi
  obtain ⟨u, hu, hut⟩ := h.exit_lt_of_descends hji hne ht
  exact ⟨h.elder_of_descends hji hne.symm, u, t, hu, ht, hut⟩

private theorem not_encloses_of_precedes (hij : g.Precedes i j) : ¬ g.Encloses i j := by
  rintro ⟨-, u, t, hu, ht, hut⟩
  exact Nat.lt_asymm hut (h.exit_lt_of_precedes hij ht hu)

/-- A node encloses its proper descendants and no others. -/
theorem encloses_iff_transGen (hi : g.IsFinished i) :
    g.Encloses i j ↔ TransGen (fun child parent => g.parent? child = some parent) j i := by
  constructor
  · intro hij
    rcases h.descends_or_precedes i j hij.1 with hd | hp
    · exact (Relation.reflTransGen_iff_eq_or_transGen.mp hd).resolve_left hij.1.ne
    · exact absurd hij (h.not_encloses_of_precedes hp)
  · intro hji
    have hne : j ≠ i := by
      rintro rfl
      obtain ⟨k, hjk, hkj⟩ := TransGen.head'_iff.mp hji
      have helder := h.parent_elder k j hjk
      exact helder.asymm (h.elder_of_descends hkj helder.ne.symm)
    exact h.encloses_of_descends hji.to_reflTransGen hne hi

end Nested

/-- Where no node is open, intervals and parents are as they should be. -/
theorem Grown.parenthesized {g : Graph ι α} {is : List NodeIndex} (h : g.Grown is) :
    g.Parenthesized is := by
  have hnested := h.rooted.nested
  refine ⟨hnested.entrance_lt_exit, ?_, fun i j hi _ _ => hnested.encloses_iff_transGen hi, ?_⟩
  · intro i j hi hj hij
    have hapart {k l : NodeIndex} (hk : g.IsFinished k) (hkl : g.Elder k l) :
        g.Encloses k l ∨ g.Precedes k l :=
      (hnested.descends_or_precedes k l hkl).imp_left fun hd =>
        hnested.encloses_of_descends hd hkl.ne.symm hk
    rcases hnested.elder_or_elder hi.isEntered hj.isEntered hij with helder | helder
    · rcases hapart hi helder with he | hp
      · exact .inr (.inl he)
      · exact .inl (.inl hp)
    · rcases hapart hj helder with he | hp
      · exact .inr (.inr he)
      · exact .inl (.inr hp)
  · intro i hi
    rw [h.foundedBy i]
    constructor
    · intro hparent
      exact ⟨hi.isEntered, hparent⟩
    · intro hfounded
      exact hfounded.2

/-- From a graph without walks on, as long as every call goes through, however the graph grows and
whatever its mode between calls: the intervals of finished nodes nest like parentheses along their
parents, and the nodes without a parent are the starts that were new when their turn came. -/
theorem parenthesized_after (g : Graph ι α) {ops : List (Operation ι α)}
    (hops : g.reset.Uninterrupted ops) :
    (g.reset.after ops).Parenthesized (g.reset.foundersOver ops) := by
  have hgrown := g.grown_reset.after hops
  exact hgrown.parenthesized

/-- A walk in a directed graph, then a new node and the other mode, then a walk of everything. -/
def interplay : List (Operation Nat Unit) :=
  [.intern 10, .intern 20, .intern 30, .addEdge 1 2, .addEdge 0 1,
    .walk (Observer.silent : Observer Nat Unit Unit Unit) () (.node 1), .setDirected false,
    .intern 40, .addEdge 0 3, .addEdge 3 0,
    .walk (Observer.silent : Observer Nat Unit Unit Unit) () .all]

/-- The first call begins a tree at the second node, the second call one at the first node; neither
of the two descends from the other, and each has a child. -/
theorem parenthesized_after_interplay :
    (empty : Graph Nat Unit).reset.Uninterrupted interplay ∧
      ((empty : Graph Nat Unit).reset.after interplay).Parenthesized
        ((empty : Graph Nat Unit).reset.foundersOver interplay) ∧
      (empty : Graph Nat Unit).reset.foundersOver interplay = [1, 0] ∧
      ((empty : Graph Nat Unit).reset.after interplay).readings = [4, 7, 0, 3, 1, 2, 5, 6] := by
  have hops : (empty : Graph Nat Unit).reset.Uninterrupted interplay := by
    simp only [interplay, Uninterrupted, GoesThrough, true_and, and_true]
    constructor
    · cbv
    · cbv
  exact ⟨hops, parenthesized_after empty hops, by cbv, by cbv⟩

end Graph

end Precedence
