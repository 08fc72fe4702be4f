import Precedence.Proofs.Traversal.Acyclic
import Precedence.Resolution.Basic

/-!
# Collecting an order

Walks with the collector, from one start after the other over an untouched directed graph. As
long as no cycle has been closed, the collected order is that in which nodes were left, and all
starts so far have been left. A walk that does stop was sent back along an edge into its own path,
which lies on a cycle that no earlier start reaches.
-/

namespace Precedence

open Relation (ReflTransGen TransGen)

variable {ι α : Type} [BEq ι] [Hashable ι]

/-! ### The collector -/

omit [BEq ι] [Hashable ι] in
/-- Beginning a walk collects nothing. -/
theorem order_start (i : NodeIndex) (directed : Bool) (c : Collection ι) :
    ((collector : Observer ι α _ _).start i directed c).order = c.order := rfl

omit [BEq ι] [Hashable ι] in
/-- A node that is left is collected. -/
theorem order_of_leave {i : NodeIndex} {n : Node ι α} {c c' : Collection ι}
    {reason : Option (ResolveError ι)} (h : collector.notice (.leave i n) c = (c', reason)) :
    c'.order = c.order.push i ∧ reason = none := by
  cases h
  exact ⟨rfl, rfl⟩

omit [BEq ι] [Hashable ι] in
/-- A node that is entered is not noticed. -/
theorem eq_of_enter {i : NodeIndex} {n : Node ι α} {c c' : Collection ι}
    {reason : Option (ResolveError ι)} (h : collector.notice (.enter i n) c = (c', reason)) :
    c' = c ∧ reason = none := by
  cases h
  exact ⟨rfl, rfl⟩

omit [BEq ι] [Hashable ι] in
/-- An edge collects nothing, and stops the collector exactly if it closes a cycle. -/
theorem order_of_edge {source target : Node ι α} {kind : EdgeKind} {c c' : Collection ι}
    {reason : Option (ResolveError ι)}
    (h : collector.notice (.edge source target kind) c = (c', reason)) :
    c'.order = c.order ∧
      reason = if kind = .back then some (.cycle source.id target.id) else none := by
  cases kind <;> cases h <;> exact ⟨rfl, rfl⟩

omit [BEq ι] [Hashable ι] in
private theorem collector_back (source target : Node ι α) (c : Collection ι) :
    (collector.notice (.edge source target .back) c).2 = some (.cycle source.id target.id) := rfl

/-! ### The collected order -/

/-- The order holds the nodes that have been left, as they were left. -/
structure Collected (g : Graph ι α) (order : Array NodeIndex) : Prop where
  mem_iff : ∀ i, i ∈ order ↔ g.IsFinished i
  increasing : order.toList.Pairwise fun i j =>
    ∃ t u, g.exit? i = some t ∧ g.exit? j = some u ∧ t < u

namespace Collected

variable {g g' : Graph ι α} {order : Array NodeIndex}

private theorem of_untouched (h : g.Untouched) : Collected g #[] := by
  constructor
  · intro i
    simp [Graph.IsFinished, h.exit?_eq_none]
  · simp

private theorem congr (h : Collected g order) (hexit : g'.exit? = g.exit?) :
    Collected g' order := by
  constructor
  · intro i
    rw [h.mem_iff, Graph.IsFinished, Graph.IsFinished, hexit]
  · rw [hexit]
    exact h.increasing

/-- A node that is left goes to the end. -/
theorem push {i : NodeIndex} {n : Node ι α} (h : Collected g order)
    (hi : g.nodes[i]? = some n) (ho : g.IsOpen i)
    (hclock : ∀ k t, g.exit? k = some t → t < g.clock) :
    Collected (g.stamp i (n.leave g.clock)) (order.push i) := by
  have hexit := Graph.exit?_leave hi ho
  have hold {k : NodeIndex} {u : Nat} (hk : g.exit? k = some u) :=
    Graph.exit?_leave_of_eq_some hi ho hk
  constructor
  · intro k
    simp only [Array.mem_push, h.mem_iff, Graph.IsFinished, hexit]
    split
    · next hik => simp [hik]
    · next hik => simp [Ne.symm hik]
  · rw [Array.toList_push, List.pairwise_append]
    refine ⟨?_, List.pairwise_singleton _ _, ?_⟩
    · refine h.increasing.imp ?_
      rintro k l ⟨t, u, ht, hu, htu⟩
      exact ⟨t, u, hold ht, hold hu, htu⟩
    · intro k hk l hl
      rw [List.mem_singleton] at hl
      subst hl
      obtain ⟨t, ht⟩ := (h.mem_iff k).mp (Array.mem_toList_iff.mp hk)
      exact ⟨t, g.clock, hold ht, by rw [hexit, if_pos rfl], hclock k t ht⟩

/-- No node is collected twice. -/
theorem nodup (h : Collected g order) : order.toList.Nodup := by
  refine h.increasing.imp ?_
  rintro i j ⟨t, u, ht, hu, htu⟩ rfl
  rw [ht] at hu
  cases hu
  exact Nat.lt_irrefl t htu

end Collected

/-! ### Walks from one start after the other -/

/-- The walks over `g₀` from the starts `before` are over, and have closed no cycle. -/
structure Collecting (g₀ : Graph ι α) (before : List NodeIndex) (g : Graph ι α)
    (order : Array NodeIndex) : Prop where
  reset_eq : g.reset = g₀.reset
  clean : Walk.Clean g []
  collected : Collected g order
  isFinished : ∀ p ∈ before, g.IsFinished p

/-- Before the first walk there is nothing to show. -/
theorem Collecting.of_untouched {g : Graph ι α} (h : g.Untouched) : Collecting g [] g #[] :=
  ⟨rfl, Walk.clean_of_untouched h, Collected.of_untouched h, by simp⟩

private theorem Collecting.snoc {g₀ g : Graph ι α} {before : List NodeIndex}
    {order : Array NodeIndex}
    {start : NodeIndex} (h : Collecting g₀ before g order) (hs : g.IsEntered start) :
    Collecting g₀ (before ++ [start]) g order := by
  refine ⟨h.reset_eq, h.clean, h.collected, ?_⟩
  intro p hp
  rcases List.mem_append.mp hp with hp | hp
  · exact h.isFinished p hp
  · rw [List.mem_singleton] at hp
    rw [hp]
    exact h.clean.isFinished_of_isEntered hs

/-- The edge from `i` to `j` closes a cycle that `start` reaches, and none of the starts `before`
does: from there no cycle is reached at all. -/
structure ClosesCycle (g₀ : Graph ι α) (before : List NodeIndex) (start i j : NodeIndex) :
    Prop where
  edge : g₀.Edge i j
  back : ReflTransGen g₀.Edge j i
  reached : ReflTransGen g₀.Edge start i
  unreached : ∀ p ∈ before, ¬ ReflTransGen g₀.Edge p i ∧ ¬ ReflTransGen g₀.Edge p j
  acyclic : ∀ p ∈ before, ∀ k, ReflTransGen g₀.Edge p k → ¬ TransGen g₀.Edge k k

/-- How the walk from `start` ends: no cycle has been closed, or here is one. -/
inductive CollectsFrom (g₀ : Graph ι α) (before : List NodeIndex) (start : NodeIndex) :
    Outcome ι α (Collection ι) (ResolveError ι) → Prop where
  | ok {g : Graph ι α} {c : Collection ι} (h : Collecting g₀ (before ++ [start]) g c.order) :
      CollectsFrom g₀ before start ⟨g, c, .ok ()⟩
  | cycle {g : Graph ι α} {c : Collection ι} {i j : NodeIndex} {a b : ι}
      (h : ClosesCycle g₀ before start i j) (ha : g₀.id? i = some a) (hb : g₀.id? j = some b) :
      CollectsFrom g₀ before start ⟨g, c, .error (.stopped (.cycle a b))⟩

/-- A walk from `start`, on the way. -/
structure Underway (g₀ : Graph ι α) (before : List NodeIndex) (start : NodeIndex)
    (w : Walk ι α (Collection ι)) : Prop where
  reset_eq : w.graph.reset = g₀.reset
  clean : Walk.Clean w.graph w.path
  collected : Collected w.graph w.observed.order
  isFinished : ∀ p ∈ before, w.graph.IsFinished p
  isEntered : w.graph.IsEntered start
  reached : ∀ k ∈ Walk.trail w.path, ReflTransGen g₀.Edge start k

section
variable {g₀ : Graph ι α} {before : List NodeIndex} {start : NodeIndex}

private theorem Underway.isFinished_of_reach {w : Walk ι α (Collection ι)}
    (h : Underway g₀ before start w) {p k : NodeIndex} (hp : p ∈ before)
    (hk : ReflTransGen g₀.Edge p k) : w.graph.IsFinished k := by
  rw [← Graph.edge_congr h.reset_eq] at hk
  exact h.clean.settled.isFinished (h.isFinished p hp) hk

/-- A walk with the collector stays on its way. -/
theorem Underway.moves {w w' : Walk ι α (Collection ι)} (hd : g₀.directed = true)
    (h : Underway g₀ before start w) (hm : Walk.Moves collector w w') :
    Underway g₀ before start w' := by
  have hdirected : w.graph.directed = true := by rw [Graph.directed_congr h.reset_eq, hd]
  have hclean : Walk.Clean w'.graph w'.path :=
    h.clean.moves (fun _ _ _ => by rw [collector_back]; simp) hdirected hm
  refine ⟨hm.reset_eq.trans h.reset_eq, hclean, ?_, fun p hp => hm.isFinished (h.isFinished p hp),
    hm.isEntered h.isEntered, ?_⟩
  · cases hm with
    | @leave _ _ _ i _ _ hi hn =>
      rw [(order_of_leave hn).1]
      exact h.collected.push hi (h.clean.isOpen i (Walk.head_mem_trail ..)) h.clean.exit_lt_clock
    | pass => exact h.collected
    | report _ _ _ _ hn =>
      rw [(order_of_edge hn).1]
      exact h.collected
    | descend hi hj hv he hn =>
      rw [(eq_of_enter hn).1, (order_of_edge he).1]
      exact h.collected.congr (Graph.exit?_enter hj hv rfl)
  · cases hm with
    | leave hi hn => exact fun k hk => h.reached k (List.mem_cons_of_mem _ hk)
    | pass => exact h.reached
    | report => exact h.reached
    | @descend g _ _ _ i j _ _ _ _ hi hj hv he hn =>
      intro k hk
      rcases List.mem_cons.mp hk with rfl | hk
      · have hedge : g.Edge i k := h.clean.edge
        rw [Graph.edge_congr h.reset_eq] at hedge
        exact (h.reached i (Walk.head_mem_trail ..)).tail hedge
      · exact h.reached k hk

/-- An edge into the path closes a cycle that no earlier start reaches. -/
theorem Underway.closesCycle {g : Graph ι α} {c : Collection ι} {i j : NodeIndex}
    {pending : List NodeIndex} {path : List Frame}
    (h : Underway g₀ before start ⟨g, c, ⟨i, j :: pending⟩ :: path⟩) (hj : g.IsOpen j) :
    ClosesCycle g₀ before start i j := by
  have hback := h.clean.reaches_head (h.clean.mem_of_isOpen j hj)
  have hedge : g.Edge i j := h.clean.edge
  rw [Graph.edge_congr h.reset_eq] at hedge hback
  -- Both ends are open, while all that an earlier start reaches has been left.
  refine ⟨hedge, hback, h.reached i (Walk.head_mem_trail ..), ?_, ?_⟩
  · intro p hp
    constructor
    · intro hpi
      exact (h.isFinished_of_reach hp hpi).not_isOpen (h.clean.isOpen i (Walk.head_mem_trail ..))
    · intro hpj
      exact (h.isFinished_of_reach hp hpj).not_isOpen hj
  · intro p hp k hpk hkk
    have hk : g.IsFinished k := h.isFinished_of_reach hp hpk
    rw [← Graph.edge_congr h.reset_eq] at hkk
    exact h.clean.settled.not_transGen_self hk hkk

/-- Where a walk with the collector halts, its start has been left or a cycle has been closed. -/
theorem Underway.collectsFrom {w : Walk ι α (Collection ι)}
    {r : Outcome ι α (Collection ι) (ResolveError ι)} (hc : g₀.Closed)
    (h : Underway g₀ before start w) (hh : Walk.Halts collector w r) :
    CollectsFrom g₀ before start r := by
  cases hh with
  | done =>
    have hcollecting := Collecting.mk h.reset_eq h.clean h.collected h.isFinished
    exact .ok (hcollecting.snoc h.isEntered)
  | leave hi hn => cases (order_of_leave hn).2
  | @report g _ _ i j _ _ source target kind reason hi hj hk ht hn =>
    have hreason := (order_of_edge hn).2
    split at hreason
    · next hb =>
      subst hb
      cases hreason
      have hid := congrFun (Graph.id?_congr h.reset_eq)
      exact .cycle (h.closesCycle (Walk.isOpen_of_back hj hk)) (by rw [← hid, Graph.id?_of_node hi])
        (by rw [← hid, Graph.id?_of_node hj])
    · cases hreason
  | reach hi hj hv he => cases (order_of_edge he).2
  | enter hi hj hv he hn => cases (eq_of_enter hn).2
  | @lost g _ i _ _ hi =>
    obtain ⟨t, ht⟩ := h.clean.isOpen i (Walk.head_mem_trail ..)
    simp [Graph.visit?, hi] at ht
  | @dangling g _ i j _ _ source hi hj =>
    have hedge : g.Edge i j := h.clean.edge
    obtain ⟨n, hn⟩ := (g.exists_node_iff j).mpr (hc.congr h.reset_eq i j hedge)
    rw [hn] at hj
    cases hj

/-- A walk is on its way from a start that is new. -/
theorem Collecting.underway {g : Graph ι α} {c c' : Collection ι} {n : Node ι α}
    (h : Collecting g₀ before g c.order) (hi : g.nodes[start]? = some n)
    (hv : n.visit = .undiscovered)
    (hn : collector.notice (.enter start (n.enter g.clock))
      ((collector : Observer ι α _ _).start start g.directed c) = (c', none)) :
    Underway g₀ before start ⟨g.stamp start (n.enter g.clock), c', [⟨start, n.neighbors⟩]⟩ := by
  have hexit : (g.stamp start (n.enter g.clock)).exit? = g.exit? := Graph.exit?_enter hi hv rfl
  have hreset : (g.stamp start (n.enter g.clock)).reset = g.reset := Graph.reset_stamp hi rfl
  refine ⟨hreset.trans h.reset_eq, h.clean.toTidy.push trivial hi hv rfl rfl (by simp),
    ?_, ?_, ?_, ?_⟩
  · rw [(eq_of_enter hn).1, order_start]
    exact h.collected.congr hexit
  · intro p hp
    obtain ⟨t, ht⟩ := h.isFinished p hp
    exact ⟨t, by rw [hexit, ht]⟩
  · exact ⟨_, by rw [Graph.visit?_stamp hi, if_pos rfl], by simp [Node.enter]⟩
  · intro k hk
    have hks : k = start := by simpa [Walk.trail] using hk
    rw [hks]

/-- One more walk leaves all starts so far behind, or closes a cycle. -/
theorem collectsFrom_walkFrom {g : Graph ι α} {c : Collection ι} (hd : g₀.directed = true)
    (hc : g₀.Closed) (hstart : start < g₀.size) (h : Collecting g₀ before g c.order) :
    CollectsFrom g₀ before start (g.walkFrom collector c start) := by
  obtain ⟨p, hp, hrun⟩ := g.exists_starts collector c start
  rw [hrun]
  cases hp with
  | lost hi =>
    rw [← Graph.size_congr h.reset_eq] at hstart
    obtain ⟨n, hn⟩ := (g.exists_node_iff start).mpr hstart
    rw [hn] at hi
    cases hi
  | @known n hi hv =>
    exact .ok (h.snoc ⟨n.visit, Graph.visit?_of_node hi, hv⟩)
  | @enter n s' hi hv hn =>
    have hw := h.underway hi hv hn
    obtain ⟨w, hw, hh⟩ := Walk.run_of_invariant (fun _ _ hw hm => hw.moves hd hm) hw
    exact hw.collectsFrom hc hh
  | refused hi hv hn => cases (eq_of_enter hn).2

/-- How walks from several starts end: no cycle has been closed, or the walk from one of the
starts has closed one. -/
inductive CollectsEach (g₀ : Graph ι α) (starts : List NodeIndex) :
    Outcome ι α (Collection ι) (ResolveError ι) → Prop where
  | ok {g : Graph ι α} {c : Collection ι} (h : Collecting g₀ starts g c.order) :
      CollectsEach g₀ starts ⟨g, c, .ok ()⟩
  | cycle {g : Graph ι α} {c : Collection ι} {before after : List NodeIndex}
      {start i j : NodeIndex} {a b : ι} (hs : starts = before ++ start :: after)
      (h : ClosesCycle g₀ before start i j) (ha : g₀.id? i = some a) (hb : g₀.id? j = some b) :
      CollectsEach g₀ starts ⟨g, c, .error (.stopped (.cycle a b))⟩

/-- Walks from several starts close no cycle, or one that the first start from which a cycle is
reached does reach. -/
theorem collectsEach_walkEach {g : Graph ι α} {c : Collection ι} (hd : g₀.directed = true)
    (hc : g₀.Closed) (h : Collecting g₀ before g c.order) (starts : List NodeIndex)
    (hstarts : ∀ s ∈ starts, s < g₀.size) :
    CollectsEach g₀ (before ++ starts) (g.walkEach collector c starts) := by
  induction starts generalizing before g c with
  | nil =>
    rw [List.append_nil]
    exact .ok h
  | cons start starts ih =>
    have hfrom := collectsFrom_walkFrom hd hc (hstarts start (by simp)) h
    rw [Graph.walkEach]
    cases hw : g.walkFrom collector c start with
    | mk g' c' r =>
      rw [hw] at hfrom
      cases hfrom with
      | ok h' =>
        have hrest := ih h' fun s hs => hstarts s (List.mem_cons_of_mem _ hs)
        rw [List.append_assoc] at hrest
        exact hrest
      | cycle hcycle ha hb => exact .cycle rfl hcycle ha hb

end

end Precedence
