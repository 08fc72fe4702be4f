import Precedence.Proofs.Traversal.Fields
import Precedence.Proofs.Traversal.Nesting

/-!
# Clock readings and parents at any time

A graph may be grown, walked, left in the middle of a walk, walked again and reset. At any time its
nodes carry the readings below the clock, each of them once, and whoever is a parent was entered
before its children were. Nodes that a stopped walk has left open are no exception, nor are those
that have been given a parent and were never entered.
-/

namespace Precedence

open Relation (TransGen)

variable {ι α σ ε : Type}

/-! ### Readings -/

/-- The state of a node tells which clock readings it has, and it is entered before it is left. -/
structure Node.Timed (n : Node ι α) : Prop where
  undiscovered_iff : n.state = .undiscovered ↔ n.entryTime? = none ∧ n.exitTime? = none
  discovered_iff : n.state = .discovered ↔ n.entryTime?.isSome ∧ n.exitTime? = none
  finished_iff : n.state = .finished ↔ n.entryTime?.isSome ∧ n.exitTime?.isSome
  entry_lt_exit : ∀ t u, n.entryTime? = some t → n.exitTime? = some u → t < u

private theorem Node.timed_of_agree {n : Node ι α} {clock : Nat} (h : n.fields.Agree clock) :
    n.Timed :=
  ⟨h.undiscovered_iff, h.discovered_iff, h.finished_iff, h.entry_lt_exit⟩

private theorem Node.length_readings (n : Node ι α) :
    n.readings.length = n.isDiscovered.toNat + n.isFinished.toNat := by
  obtain ⟨_, _, v, _, _⟩ := n
  cases v <;> rfl

private theorem perm_flatMap_set {β γ : Type} {f : β → List γ} {xs : List β} {i : Nat} {a b : β}
    {t : γ} (hi : xs[i]? = some a) (hb : (f b).Perm (t :: f a)) :
    ((xs.set i b).flatMap f).Perm (t :: xs.flatMap f) := by
  induction xs generalizing i with
  | nil => simp at hi
  | cons x xs ih =>
    cases i with
    | zero =>
      simp only [List.getElem?_cons_zero, Option.some.injEq] at hi
      subst hi
      simp only [List.set_cons_zero, List.flatMap_cons]
      exact hb.append_right _
    | succ i =>
      simp only [List.getElem?_cons_succ] at hi
      simp only [List.set_cons_succ, List.flatMap_cons]
      exact ((ih hi).append_left (f x)).trans List.perm_middle

private theorem length_flatMap_readings (ns : List (Node ι α)) :
    (ns.flatMap Node.readings).length =
      ns.countP (·.isDiscovered) + ns.countP (·.isFinished) := by
  induction ns with
  | nil => rfl
  | cons n ns ih =>
    rw [List.flatMap_cons, List.length_append, ih, n.length_readings, List.countP_cons,
      List.countP_cons]
    cases n.isDiscovered <;> cases n.isFinished <;> simp <;> omega

variable [BEq ι] [Hashable ι]

namespace Graph

private theorem mem_readings_of_entrance? {g : Graph ι α} {i : NodeIndex} {t : Nat}
    (hi : g.entrance? i = some t) : t ∈ g.readings := by
  cases hn : g.nodes[i]? with
  | none => simp [entrance?, visit?, hn] at hi
  | some n =>
    rw [entrance?_of_node hn] at hi
    have hmem : n ∈ g.nodes.toList := Array.mem_toList_iff.mpr (Array.mem_of_getElem? hn)
    exact List.mem_flatMap.mpr ⟨n, hmem, by simp [Node.readings, hi]⟩

private theorem readings_stamp {g : Graph ι α} {i : NodeIndex} {m n : Node ι α}
    (hi : g.nodes[i]? = some m) (hn : n.readings.Perm (g.clock :: m.readings))
    (h : g.readings.Perm (List.range g.clock)) :
    (g.stamp i n).readings.Perm (List.range (g.stamp i n).clock) := by
  have hset : (g.stamp i n).readings.Perm (g.clock :: g.readings) := by
    rw [readings, stamp, Array.toList_setIfInBounds]
    exact perm_flatMap_set (by simpa using hi) hn
  show (g.stamp i n).readings.Perm (List.range (g.clock + 1))
  rw [List.range_succ]
  exact (hset.trans (h.cons g.clock)).trans (List.perm_append_singleton _ _).symm

private theorem stamp_put (g : Graph ι α) (i : NodeIndex) (m n : Node ι α) :
    (g.put i m).stamp i n = g.stamp i n := by
  simp [put, stamp]

private theorem readings_put {g : Graph ι α} {i : NodeIndex} {m n : Node ι α}
    (hi : g.nodes[i]? = some m) (hn : n.visit = m.visit) : (g.put i n).readings = g.readings := by
  have hmap : (g.put i n).nodes.toList.map Node.readings = g.nodes.toList.map Node.readings := by
    apply List.ext_getElem?
    intro k
    simp only [List.getElem?_map, Array.getElem?_toList, getElem?_put hi]
    split
    · next hik =>
      subst hik
      simp [hi, Node.readings, Node.entryTime?, Node.exitTime?, hn]
    · rfl
  simp only [readings, List.flatMap_def, hmap]

/-! ### The invariant -/

/-- The readings of a graph are those below its clock, and its parents are elder. -/
structure Coherent (g : Graph ι α) : Prop where
  readings : g.readings.Perm (List.range g.clock)
  parent_edge : ∀ i j, g.parent? j = some i → g.Edge i j
  parent_entered : ∀ i j, g.parent? j = some i → g.IsEntered i
  /-- The child may be a node that has not been entered. -/
  parent_elder : ∀ i j, g.parent? j = some i → g.IsEntered j → g.Elder i j

namespace Coherent

section
variable {g : Graph ι α} {i j : NodeIndex}

/-- A graph that has been reset has no marks. -/
theorem reset (g : Graph ι α) : g.reset.Coherent := by
  have hparent : ∀ i j, g.reset.parent? j ≠ some i := by
    intro i j hij
    rw [g.parent?_reset j] at hij
    cases hij
  constructor
  · have hnone : ∀ n ∈ g.reset.nodes.toList, n.readings = [] := by
      intro n hn
      simp only [Graph.reset, Array.toList_map, List.mem_map] at hn
      obtain ⟨m, -, rfl⟩ := hn
      rfl
    have hempty : g.reset.readings = [] := List.flatMap_eq_nil_iff.mpr hnone
    rw [hempty]
    exact .nil
  · intro i j hij
    exact absurd hij (hparent i j)
  · intro i j hij
    exact absurd hij (hparent i j)
  · intro i j hij
    exact absurd hij (hparent i j)

variable (h : g.Coherent)
include h

private theorem entrance_lt_clock {t : Nat} (hi : g.entrance? i = some t) : t < g.clock :=
  List.mem_range.mp (h.readings.mem_iff.mp (mem_readings_of_entrance? hi))

/-- What leaves the marks alone keeps a graph coherent. -/
theorem widen {g' : Graph ι α} (hw : g.Widens g') : g'.Coherent where
  readings := by
    rw [hw.readings_eq, hw.clock_eq]
    exact h.readings
  parent_edge i j hij := by
    rw [hw.parent?_eq] at hij
    exact hw.edge i j (h.parent_edge i j hij)
  parent_entered i j hij := by
    rw [hw.parent?_eq] at hij
    exact (hw.isEntered_iff i).mpr (h.parent_entered i j hij)
  parent_elder i j hij hj := by
    rw [hw.parent?_eq] at hij
    rw [hw.elder_eq]
    exact h.parent_elder i j hij ((hw.isEntered_iff j).mp hj)

private theorem grow {g' : Graph ι α} (hgrows : g.Grows g') (hparent : g'.parent? = g.parent?)
    (hreadings : g'.readings.Perm (List.range g'.clock))
    (hnew : ∀ i j, g.IsEntered i → ¬ g.IsEntered j → g'.IsEntered j → g'.Elder i j) :
    g'.Coherent where
  readings := hreadings
  parent_edge i j hij := by
    rw [hparent] at hij
    rw [hgrows.edge_eq]
    exact h.parent_edge i j hij
  parent_entered i j hij := by
    rw [hparent] at hij
    exact hgrows.isEntered (h.parent_entered i j hij)
  parent_elder i j hij hj := by
    rw [hparent] at hij
    by_cases hold : g.IsEntered j
    · exact hgrows.elder (h.parent_elder i j hij hold)
    · exact hnew i j (h.parent_entered i j hij) hold hj

/-- A new node may be entered. -/
theorem enter {n : Node ι α} (hj : g.nodes[j]? = some n) (hv : n.visit = .undiscovered) :
    (g.stamp j (n.enter g.clock)).Coherent := by
  have hgrows : g.Grows (g.stamp j (n.enter g.clock)) := grows_enter hj hv rfl rfl
  have hentrance (k : NodeIndex) : (g.stamp j (n.enter g.clock)).entrance? k =
      if j = k then some g.clock else g.entrance? k := entrance?_enter hj rfl k
  apply h.grow hgrows
  · funext k
    rw [parent?_stamp hj]
    split
    · next hjk =>
      subst hjk
      rw [parent?_of_node hj]
      rfl
    · rfl
  · apply readings_stamp hj ?_ h.readings
    simp [Node.readings, Node.entryTime?, Node.exitTime?, Node.enter, hv, Visit.entryTime?,
      Visit.exitTime?]
  · intro i k hi hold hk
    obtain ⟨t, ht⟩ := (g.isEntered_iff i).mp hi
    obtain ⟨u, hu⟩ := ((g.stamp j (n.enter g.clock)).isEntered_iff k).mp hk
    refine ⟨t, u, hgrows.entrance i t ht, hu, ?_⟩
    rw [hentrance] at hu
    split at hu
    · cases hu
      exact h.entrance_lt_clock ht
    · exact absurd ((g.isEntered_iff k).mpr ⟨u, hu⟩) hold

/-- An open node may be left. -/
theorem leave {n : Node ι α} (hi : g.nodes[i]? = some n) (ho : g.IsOpen i) :
    (g.stamp i (n.leave g.clock)).Coherent := by
  have hentrance := entrance?_leave hi
  apply h.grow (grows_leave hi ho) (parent?_leave hi)
  · obtain ⟨t, ht⟩ := ho
    rw [visit?_of_node hi] at ht
    have hvisit : n.visit = .discovered t := Option.some.inj ht
    apply readings_stamp hi ?_ h.readings
    simp only [Node.readings, Node.entryTime?, Node.exitTime?, Node.leave, hvisit, Visit.close,
      Visit.entryTime?, Visit.exitTime?]
    exact .swap ..
  · intro k l _ hold hl
    have hstill : g.IsEntered l := by
      rwa [isEntered_iff, hentrance, ← isEntered_iff] at hl
    exact absurd hstill hold

/-- A new node may be given a parent that has been entered and has an edge to it. -/
theorem adopt {n target : Node ι α} (hj : g.nodes[j]? = some target)
    (hv : target.visit = .undiscovered) (hn : n.unvisited = target.unvisited)
    (hvisit : n.visit = target.visit) (hadopted : n.parent = some i) (hij : g.Edge i j)
    (hi : g.IsEntered i) : (g.put j n).Coherent := by
  have hvisits : (g.put j n).visit? = g.visit? := visit?_put hj hvisit
  have hentrance : (g.put j n).entrance? = g.entrance? := entrance?_congr hvisits
  have hparent {l k : NodeIndex} (hlk : (g.put j n).parent? k = some l) :
      (j = k ∧ i = l) ∨ g.parent? k = some l := by
    rw [parent?_put hj, hadopted] at hlk
    split at hlk
    · next hjk => exact .inl ⟨hjk, Option.some.inj hlk⟩
    · exact .inr hlk
  constructor
  · rw [readings_put hj hvisit]
    exact h.readings
  · intro l k hlk
    rw [edge_congr (reset_put hj hn)]
    rcases hparent hlk with ⟨rfl, rfl⟩ | hlk
    · exact hij
    · exact h.parent_edge l k hlk
  · intro l k hlk
    rw [IsEntered, hvisits]
    rcases hparent hlk with ⟨rfl, rfl⟩ | hlk
    · exact hi
    · exact h.parent_entered l k hlk
  · intro l k hlk hk
    rw [IsEntered, hvisits] at hk
    rw [Elder, hentrance]
    rcases hparent hlk with ⟨rfl, rfl⟩ | hlk
    · exact absurd hk (not_isEntered_of_node hj hv)
    · exact h.parent_elder l k hlk hk

/-- A new node may be given a parent and be entered. -/
theorem descend {n target : Node ι α} (hj : g.nodes[j]? = some target)
    (hv : target.visit = .undiscovered) (hn : n.unvisited = target.unvisited)
    (hvisit : n.visit = target.visit) (hadopted : n.parent = some i) (hij : g.Edge i j)
    (hi : g.IsEntered i) : (g.stamp j (n.enter g.clock)).Coherent := by
  have hchild : (g.put j n).nodes[j]? = some n := by rw [getElem?_put hj, if_pos rfl]
  have hentered := (h.adopt hj hv hn hvisit hadopted hij hi).enter hchild (hvisit.trans hv)
  rwa [stamp_put] at hentered

/-! ### Acyclic parents -/

private theorem elder_of_transGen
    (hji : TransGen (fun child parent => g.parent? child = some parent) j i)
    (hj : g.IsEntered j) : g.Elder i j := by
  induction hji with
  | single hparent => exact h.parent_elder _ j hparent hj
  | @tail k l _ hparent ih =>
    have hk : g.IsEntered k := by
      obtain ⟨t, -, ht, -⟩ := ih
      exact (g.isEntered_iff k).mpr ⟨t, ht⟩
    exact (h.parent_elder l k hparent hk).trans ih

/-- Following parents never leads back. -/
theorem not_transGen_self (i : NodeIndex) :
    ¬ TransGen (fun child parent => g.parent? child = some parent) i i := by
  intro hcycle
  obtain ⟨j, -, hj⟩ := TransGen.tail'_iff.mp hcycle
  exact (h.elder_of_transGen hcycle (h.parent_entered i j hj)).ne rfl

end

end Coherent

/-! ### Walks -/

end Graph

namespace Walk

/-- A move keeps a graph coherent. -/
theorem Moves.coherent {o : Observer ι α σ ε} {w w' : Walk ι α σ} (h : Moves o w w')
    (hsteady : Steady w.graph w.path) (hw : w.graph.Coherent) : w'.graph.Coherent := by
  cases h with
  | leave hi hn => exact hw.leave hi (hsteady.isOpen _ (head_mem_trail ..))
  | pass => exact hw
  | report => exact hw
  | descend hi hj hv he hn =>
    have ho := hsteady.isOpen _ (head_mem_trail ..)
    exact hw.descend hj hv rfl rfl rfl hsteady.edge ho.isEntered

/-- A walk that halts leaves a coherent graph, wherever it was stopped. -/
theorem Halts.coherent {o : Observer ι α σ ε} {w : Walk ι α σ} {r : Outcome ι α σ ε}
    (h : Halts o w r) (hsteady : Steady w.graph w.path) (hw : w.graph.Coherent) :
    r.graph.Coherent := by
  cases h with
  | done => exact hw
  | leave hi hn => exact hw.leave hi (hsteady.isOpen _ (head_mem_trail ..))
  | report => exact hw
  | reach hi hj hv he =>
    have ho := hsteady.isOpen _ (head_mem_trail ..)
    exact hw.adopt hj hv rfl rfl rfl hsteady.edge ho.isEntered
  | enter hi hj hv he hn =>
    have ho := hsteady.isOpen _ (head_mem_trail ..)
    exact hw.descend hj hv rfl rfl rfl hsteady.edge ho.isEntered
  | lost => exact hw
  | dangling => exact hw

/-- A run leaves a coherent graph. -/
theorem coherent_run (o : Observer ι α σ ε) {w : Walk ι α σ} (hsteady : Steady w.graph w.path)
    (hw : w.graph.Coherent) : (run o w).graph.Coherent := by
  obtain ⟨v, ⟨hv, hcoherent⟩, hh⟩ := run_of_invariant (o := o)
    (P := fun v => Steady v.graph v.path ∧ v.graph.Coherent)
    (fun _ _ hP hm => ⟨hP.1.moves hm, hm.coherent hP.1 hP.2⟩) ⟨hsteady, hw⟩
  exact hh.coherent hv hcoherent

end Walk

namespace Graph

namespace Coherent

/-- A walk from a start keeps a graph coherent. -/
theorem walkFrom {g : Graph ι α} (h : g.Coherent) (o : Observer ι α σ ε) (s : σ)
    (start : NodeIndex) : (g.walkFrom o s start).graph.Coherent := by
  obtain ⟨p, hp, hw⟩ := exists_starts o g s start
  rw [hw]
  cases hp with
  | lost hi => exact h
  | known hi hv => exact h
  | enter hi hv hn =>
    exact Walk.coherent_run o ((Walk.steady_nil g).push hi hv rfl rfl (by simp)) (h.enter hi hv)
  | refused hi hv hn => exact h.enter hi hv

/-- A call keeps a graph coherent, however it ends. -/
theorem walk {g : Graph ι α} (h : g.Coherent) (o : Observer ι α σ ε) (s : σ) (c : Call) :
    (g.walk o s c).graph.Coherent := by
  rw [walk_eq_walkEach]
  exact walkEach_of_invariant (fun _ s start hg => hg.walkFrom o s start) h s _

/-- Every operation keeps a graph coherent. -/
theorem apply {g : Graph ι α} (h : g.Coherent) (op : Operation ι α) : (g.apply op).Coherent := by
  cases op with
  | walk o s c => exact h.walk o s c
  | reset => exact reset g
  | _ => exact h.widen (g.widens_apply trivial)

/-- So do several operations. -/
theorem after {g : Graph ι α} (h : g.Coherent) (ops : List (Operation ι α)) :
    (g.after ops).Coherent := by
  induction ops generalizing g with
  | nil => exact h
  | cons op ops ih => exact ih (h.apply op)

end Coherent

/-! ### Every history -/

/-- What the marks of a graph say about one another and about the clock. -/
structure Chronicled (g : Graph ι α) : Prop where
  timed : ∀ n ∈ g.nodes, n.Timed
  /-- Each reading below the clock is there once, and there is no other. -/
  readings : g.readings.Perm (List.range g.clock)
  clock_eq : g.clock = g.nodes.countP (·.isDiscovered) + g.nodes.countP (·.isFinished)
  clock_le : g.clock ≤ 2 * g.size
  parent : ∀ i j, g.parent? j = some i →
    g.Edge i j ∧ g.IsEntered i ∧ i ≠ j ∧ (g.IsEntered j → g.Elder i j)
  acyclic : ∀ i, ¬ TransGen (fun child parent => g.parent? child = some parent) i i

/-- A coherent graph has all this, if the fields of each node agree. -/
theorem Coherent.chronicled {g : Graph ι α} (h : g.Coherent)
    (hfields : ∀ f ∈ g.fields.1, f.Agree g.clock) : g.Chronicled := by
  have hclock : g.clock = g.nodes.countP (·.isDiscovered) + g.nodes.countP (·.isFinished) := by
    have hlength := h.readings.length_eq
    rw [List.length_range, Graph.readings, length_flatMap_readings] at hlength
    simpa using hlength.symm
  refine ⟨?_, h.readings, hclock, ?_, ?_, h.not_transGen_self⟩
  · intro n hn
    have hmem : n.fields ∈ g.fields.1 := List.mem_map_of_mem (Array.mem_toList_iff.mpr hn)
    exact Node.timed_of_agree (hfields _ hmem)
  · have hdiscovered : g.nodes.countP (·.isDiscovered) ≤ g.size := Array.countP_le_size
    have hfinished : g.nodes.countP (·.isFinished) ≤ g.size := Array.countP_le_size
    omega
  · intro i j hij
    have hi := h.parent_entered i j hij
    refine ⟨h.parent_edge i j hij, hi, ?_, h.parent_elder i j hij⟩
    rintro rfl
    exact (h.parent_elder i i hij hi).ne rfl

/-- However a fresh graph is grown, edited, walked, stopped in its walks and reset: each node has the
readings that its state calls for, the readings are those below the clock, and the parents form no
cycle and were entered before their children. -/
theorem chronicled_after (ops : List (Operation ι α)) :
    ((empty : Graph ι α).after ops).Chronicled := by
  have hfresh := Coherent.reset (empty : Graph ι α)
  rw [reset_empty] at hfresh
  exact (hfresh.after ops).chronicled (fields_after ops).2

/-- A walk that is stopped at its first edge leaves its start open, and a node with a parent that was
never entered. -/
example :
    let o : Observer Nat Unit Unit Unit :=
      { notice := fun event s => (s, if event matches .edge .. then some () else none) }
    let g := (empty : Graph Nat Unit).after
      [.intern 10, .intern 20, .addEdge 0 1, .walk o () (.node 0)]
    g.readings = [0] ∧ g.visit? 0 = some (.discovered 0) ∧ g.parent? 1 = some 0 ∧
      g.visit? 1 = some .undiscovered := by
  cbv
  exact ⟨rfl, trivial⟩

end Graph

end Precedence
