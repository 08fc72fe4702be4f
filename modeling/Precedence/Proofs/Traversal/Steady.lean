import Mathlib.Data.List.Chain
import Precedence.Proofs.Traversal.Move

/-!
# What every walk keeps

Whatever a walk starts from and whoever observes it, it keeps the skeleton of its graph, and
its path stays a path: no node is on it twice, all its nodes are open, each has an edge to the
next one inwards, and what a frame has still to look at is the end of its node's edges.
-/

namespace Precedence

open Relation (ReflTransGen)

variable {ι α σ ε : Type} [BEq ι] [Hashable ι]

namespace Walk

/-- The nodes on a path, innermost first. -/
def trail (path : List Frame) : List NodeIndex := path.map Frame.index

/-- The innermost node is on the path. -/
theorem head_mem_trail (i : NodeIndex) (pending : List NodeIndex) (path : List Frame) :
    i ∈ trail (⟨i, pending⟩ :: path) :=
  List.mem_cons_self

/-! ### The skeleton -/

/-- A move keeps the skeleton. -/
theorem Moves.reset_eq {o : Observer ι α σ ε} {w w' : Walk ι α σ} (h : Moves o w w') :
    w'.graph.reset = w.graph.reset := by
  cases h with
  | leave hi hn => exact Graph.reset_stamp hi rfl
  | pass => rfl
  | report => rfl
  | descend hi hj hv he hn => exact Graph.reset_stamp hj rfl

private theorem Halts.reset_eq {o : Observer ι α σ ε} {w : Walk ι α σ} {r : Outcome ι α σ ε}
    (h : Halts o w r) : r.graph.reset = w.graph.reset := by
  cases h with
  | done => rfl
  | leave hi hn => exact Graph.reset_stamp hi rfl
  | report => rfl
  | reach hi hj hv he => exact Graph.reset_put hj rfl
  | enter hi hj hv he hn => exact Graph.reset_stamp hj rfl
  | lost => rfl
  | dangling => rfl

private theorem reset_run (o : Observer ι α σ ε) (w : Walk ι α σ) :
    (run o w).graph.reset = w.graph.reset := by
  obtain ⟨v, hv, hh⟩ := run_of_invariant
    (P := fun v => v.graph.reset = w.graph.reset)
    (fun _ _ hP hm => hm.reset_eq.trans hP) rfl
  exact hh.reset_eq.trans hv

/-! ### What has been entered and left -/

/-- A node that has been entered stays so. -/
theorem Moves.isEntered {o : Observer ι α σ ε} {w w' : Walk ι α σ} (h : Moves o w w')
    {k : NodeIndex} (hk : w.graph.IsEntered k) : w'.graph.IsEntered k := by
  obtain ⟨v, hv, hne⟩ := hk
  cases h with
  | @leave _ _ _ i _ n hi hn =>
    rw [Graph.IsEntered, Graph.visit?_stamp hi]
    split
    · next hik =>
      subst hik
      rw [Graph.visit?_of_node hi] at hv
      cases hv
      refine ⟨_, rfl, ?_⟩
      cases hn : n.visit <;> simp_all [Node.leave, Visit.close]
    · exact ⟨v, hv, hne⟩
  | pass => exact ⟨v, hv, hne⟩
  | report => exact ⟨v, hv, hne⟩
  | descend hi hj hv' he hn =>
    rw [Graph.IsEntered, Graph.visit?_stamp hj]
    split
    · exact ⟨_, rfl, by simp [Node.enter]⟩
    · exact ⟨v, hv, hne⟩

/-- A node that has been left stays so. -/
theorem Moves.isFinished {o : Observer ι α σ ε} {w w' : Walk ι α σ} (h : Moves o w w')
    {k : NodeIndex} (hk : w.graph.IsFinished k) : w'.graph.IsFinished k := by
  obtain ⟨u, hu⟩ := hk
  cases h with
  | @leave _ _ _ i _ n hi hn =>
    rw [Graph.IsFinished, Graph.exit?_stamp hi]
    split
    · next hik =>
      subst hik
      rw [Graph.exit?_of_node hi] at hu
      cases hn : n.visit <;>
        simp_all [Node.exitTime?, Node.leave, Visit.close, Visit.exitTime?]
    · exact ⟨u, hu⟩
  | pass => exact ⟨u, hu⟩
  | report => exact ⟨u, hu⟩
  | @descend _ _ _ _ i j _ _ source target hi hj hv he hn =>
    have hne : j ≠ k := by
      rintro rfl
      exact Graph.not_isFinished_of_node hj hv ⟨u, hu⟩
    exact ⟨u, by rw [Graph.exit?_stamp hj, if_neg hne, hu]⟩

/-! ### The path -/

/-- What holds of the path of every walk. -/
structure Steady (g : Graph ι α) (path : List Frame) : Prop where
  /-- A frame looks at the edges of its node in order. -/
  pending_suffix : ∀ f ∈ path, f.pending <:+ g.successors f.index
  isOpen : ∀ i ∈ trail path, g.IsOpen i
  nodup : (trail path).Nodup
  /-- Each node on the path has an edge to the next one inwards. -/
  linked : (trail path).IsChain fun inner outer => g.Edge outer inner

/-- A walk that has not begun has no path to go wrong. -/
theorem steady_nil (g : Graph ι α) : Steady g [] :=
  ⟨by simp, by simp [trail], by simp [trail], by simp [trail]⟩

section
variable {g : Graph ι α} {i j : NodeIndex} {pending : List NodeIndex} {path : List Frame}

/-- The next edge of the innermost node leads out of it. -/
theorem Steady.edge (h : Steady g (⟨i, j :: pending⟩ :: path)) : g.Edge i j := by
  have hs : (j :: pending) <:+ g.successors i := h.pending_suffix ⟨i, j :: pending⟩ (by simp)
  exact hs.subset (by simp)

/-- The next edge leads out of the first frame, in the form in which a node is entered. -/
theorem Steady.edge_head (h : Steady g (⟨i, j :: pending⟩ :: path)) :
    ∀ f ∈ (Frame.mk i pending :: path).head?, g.Edge f.index j := by
  intro f hf
  cases hf
  exact h.edge

/-- An edge may be looked at and left behind. -/
theorem Steady.advance (h : Steady g (⟨i, j :: pending⟩ :: path)) :
    Steady g (⟨i, pending⟩ :: path) where
  pending_suffix := by
    intro f hf
    rcases List.mem_cons.mp hf with rfl | hf
    · have hs : (j :: pending) <:+ g.successors i := h.pending_suffix ⟨i, j :: pending⟩ (by simp)
      exact (List.suffix_cons j pending).trans hs
    · exact h.pending_suffix f (List.mem_cons_of_mem _ hf)
  isOpen := h.isOpen
  nodup := h.nodup
  linked := h.linked

/-- The innermost node may be left. -/
theorem Steady.pop {n m : Node ι α} (h : Steady g (⟨i, pending⟩ :: path))
    (hi : g.nodes[i]? = some m) (hn : n.unvisited = m.unvisited) :
    Steady (g.stamp i n) path := by
  have hreset := Graph.reset_stamp hi hn
  obtain ⟨hnot, hnodup⟩ := List.nodup_cons.mp h.nodup
  constructor
  · intro f hf
    rw [Graph.successors_congr hreset]
    exact h.pending_suffix f (List.mem_cons_of_mem _ hf)
  · intro k hk
    have hik : i ≠ k := fun hik => hnot (hik ▸ hk)
    exact (h.isOpen k (List.mem_cons_of_mem _ hk)).stamp_of_ne hi hik
  · exact hnodup
  · rw [Graph.edge_congr hreset]
    exact h.linked.tail

/-- A new node may be entered from the innermost one, or as the first of all. -/
theorem Steady.push {n target : Node ι α} {t : Nat} (h : Steady g path)
    (hj : g.nodes[j]? = some target) (hv : target.visit = .undiscovered)
    (hn : n.unvisited = target.unvisited) (hvisit : n.visit = .discovered t)
    (hedge : ∀ f ∈ path.head?, g.Edge f.index j) :
    Steady (g.stamp j n) (⟨j, target.neighbors⟩ :: path) := by
  have hreset := Graph.reset_stamp hj hn
  have hnot : j ∉ trail path := by
    intro hm
    obtain ⟨t, ht⟩ := h.isOpen j hm
    rw [Graph.visit?_of_node hj, hv] at ht
    cases ht
  constructor
  · intro f hf
    rw [Graph.successors_congr hreset]
    rcases List.mem_cons.mp hf with rfl | hf
    · simp only [Graph.successors_of_node hj, List.suffix_refl]
    · exact h.pending_suffix f hf
  · intro k hk
    apply Graph.IsOpen.enter hj hvisit
    exact (List.mem_cons.mp hk).imp_right (h.isOpen k)
  · exact List.nodup_cons.mpr ⟨hnot, h.nodup⟩
  · rw [Graph.edge_congr hreset]
    cases path with
    | nil => exact .singleton _
    | cons f path => exact .cons_cons (hedge f rfl) h.linked

/-- Every move keeps a path a path. -/
theorem Steady.moves {o : Observer ι α σ ε} {w w' : Walk ι α σ} (hw : Steady w.graph w.path)
    (h : Moves o w w') : Steady w'.graph w'.path := by
  cases h with
  | leave hi hn => exact hw.pop hi rfl
  | pass => exact hw.advance
  | report => exact hw.advance
  | descend hi hj hv he hn => exact hw.advance.push hj hv rfl rfl hw.edge_head

/-- The innermost node is reached from every node on the path. -/
theorem Steady.reaches_head {f : Frame} (h : Steady g (f :: path)) {k : NodeIndex}
    (hk : k ∈ trail (f :: path)) : ReflTransGen g.Edge k f.index := by
  have hlinked : (f.index :: trail path).IsChain fun inner outer => g.Edge outer inner := h.linked
  have hmem : k ∈ f.index :: trail path := hk
  generalize trail path = is at hmem hlinked
  generalize f.index = i at hmem hlinked
  induction is generalizing i with
  | nil =>
    rw [List.mem_singleton] at hmem
    rw [hmem]
  | cons l is ih =>
    rw [List.isChain_cons_cons] at hlinked
    rcases List.mem_cons.mp hmem with rfl | hmem
    · exact .refl
    · exact (ih l hmem hlinked.2).tail hlinked.1

end

end Walk

/-! ### Walks from starts -/

namespace Graph

/-- A walk from a start keeps the skeleton. -/
theorem reset_walkFrom (g : Graph ι α) (o : Observer ι α σ ε) (s : σ) (start : NodeIndex) :
    (g.walkFrom o s start).graph.reset = g.reset := by
  obtain ⟨p, hp, hw⟩ := exists_starts o g s start
  rw [hw]
  cases hp with
  | lost hi => rfl
  | known hi hv => rfl
  | enter hi hv hn => exact (Walk.reset_run o _).trans (reset_stamp hi rfl)
  | refused hi hv hn => exact reset_stamp hi rfl

/-- What a walk from one start keeps, walks from several keep. -/
theorem walkEach_of_invariant {P : Graph ι α → Prop} {o : Observer ι α σ ε}
    (hP : ∀ g s start, P g → P (g.walkFrom o s start).graph) {g : Graph ι α} (hg : P g) (s : σ)
    (starts : List NodeIndex) : P (g.walkEach o s starts).graph := by
  induction starts generalizing g s with
  | nil => exact hg
  | cons start starts ih =>
    have hfirst := hP g s start hg
    rw [walkEach]
    generalize g.walkFrom o s start = r at hfirst ⊢
    obtain ⟨g', s', result⟩ := r
    cases result with
    | ok => exact ih hfirst s'
    | error e => exact hfirst

/-- Walks from several starts keep the skeleton. -/
theorem reset_walkEach (g : Graph ι α) (o : Observer ι α σ ε) (s : σ) (starts : List NodeIndex) :
    (g.walkEach o s starts).graph.reset = g.reset :=
  walkEach_of_invariant (P := fun g' => g'.reset = g.reset)
    (fun g' s start hg' => (g'.reset_walkFrom o s start).trans hg') rfl s starts

/-- A walk from a start that goes through leaves entered its start and what was entered before. -/
theorem isEntered_walkFrom {g : Graph ι α} {o : Observer ι α σ ε} {s : σ} {start k : NodeIndex}
    (hok : (g.walkFrom o s start).result = .ok ()) (hk : g.IsEntered k ∨ k = start) :
    (g.walkFrom o s start).graph.IsEntered k := by
  obtain ⟨p, hp, hw⟩ := exists_starts o g s start
  rw [hw] at hok ⊢
  cases hp with
  | lost hi => cases hok
  | @known n hi hv =>
    rcases hk with hk | rfl
    · exact hk
    · exact ⟨n.visit, visit?_of_node hi, hv⟩
  | @enter n s' hi hv hn =>
    have hentered : (Walk.mk (g.stamp start (n.enter g.clock)) s'
        [⟨start, n.neighbors⟩]).graph.IsEntered k := by
      rw [IsEntered, visit?_stamp hi]
      split
      · exact ⟨_, rfl, by simp [Node.enter]⟩
      · next hne => exact hk.resolve_right (Ne.symm hne)
    obtain ⟨w', hw', hh⟩ := Walk.run_of_invariant
      (P := fun v => v.graph.IsEntered k) (fun _ _ hP hm => hm.isEntered hP) hentered
    show (Walk.run o _).graph.IsEntered k
    rw [(hh.of_ok hok).2]
    exact hw'
  | refused hi hv hn => cases hok

/-- Walks from several starts that go through leave all starts entered. -/
theorem isEntered_walkEach {g : Graph ι α} {o : Observer ι α σ ε} {s : σ}
    {starts : List NodeIndex} {k : NodeIndex} (hok : (g.walkEach o s starts).result = .ok ())
    (hk : g.IsEntered k ∨ k ∈ starts) : (g.walkEach o s starts).graph.IsEntered k := by
  induction starts generalizing g s with
  | nil => simpa [walkEach] using hk
  | cons start starts ih =>
    have hfirst : ∀ k, (g.walkFrom o s start).result = .ok () → g.IsEntered k ∨ k = start →
        (g.walkFrom o s start).graph.IsEntered k := fun _ => isEntered_walkFrom
    rw [walkEach] at hok ⊢
    generalize g.walkFrom o s start = r at hok hfirst ⊢
    obtain ⟨g', s', result⟩ := r
    cases result with
    | error e => cases hok
    | ok =>
      apply ih hok
      rcases hk with hk | hk
      · exact .inl (hfirst k rfl (.inl hk))
      · rcases List.mem_cons.mp hk with rfl | hk
        · exact .inl (hfirst k rfl (.inr rfl))
        · exact .inr hk

/-- A walk from a node that has been entered does nothing. -/
theorem walkFrom_of_isEntered {g : Graph ι α} {o : Observer ι α σ ε} {s : σ} {i : NodeIndex}
    (h : g.IsEntered i) : g.walkFrom o s i = ⟨g, s, .ok ()⟩ := by
  obtain ⟨v, hv, hne⟩ := h
  obtain ⟨n, hn, rfl⟩ := Option.map_eq_some_iff.mp hv
  exact walkFrom_eq_of_starts (.known hn hne)

/-- Nor do several such walks. -/
theorem walkEach_of_isEntered {g : Graph ι α} {o : Observer ι α σ ε} {s : σ}
    {is : List NodeIndex} (h : ∀ i ∈ is, g.IsEntered i) : g.walkEach o s is = ⟨g, s, .ok ()⟩ := by
  induction is with
  | nil => rfl
  | cons i is ih =>
    rw [walkEach, walkFrom_of_isEntered (h i (by simp))]
    exact ih fun j hj => h j (List.mem_cons_of_mem _ hj)

/-- Walks from nodes that have been entered by then may be left out at the end. -/
theorem walkEach_append {g : Graph ι α} {o : Observer ι α σ ε} {s : σ} {is js : List NodeIndex}
    (h : (g.walkEach o s is).result = .ok () →
      ∀ j ∈ js, (g.walkEach o s is).graph.IsEntered j) :
    g.walkEach o s (is ++ js) = g.walkEach o s is := by
  induction is generalizing g s with
  | nil => exact walkEach_of_isEntered (h rfl)
  | cons i is ih =>
    rw [walkEach] at h
    rw [List.cons_append, walkEach, walkEach]
    generalize g.walkFrom o s i = r at h ⊢
    obtain ⟨g', s', result⟩ := r
    cases result with
    | error e => rfl
    | ok => exact ih h

end Graph

end Precedence
