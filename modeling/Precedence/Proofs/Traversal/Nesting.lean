import Precedence.Proofs.Graph.Forest
import Precedence.Proofs.Traversal.Steady

/-!
# Walks keep graphs nested

While a walk is under way the open nodes are those on its path, each with the next one outwards as
its parent, and the clock is ahead of all readings. Entering and leaving nodes keeps this, and with
it keeps the graph nested.
-/

namespace Precedence

open Relation (ReflTransGen)

variable {ι α : Type} [BEq ι] [Hashable ι]

namespace Graph

/-! ### Entering and leaving -/

section
variable {g : Graph ι α} {i j : NodeIndex} {n target : Node ι α}

/-- Entering a new node keeps all marks that there are. -/
theorem grows_enter {t : Nat} (hj : g.nodes[j]? = some target) (hv : target.visit = .undiscovered)
    (hn : n.unvisited = target.unvisited) (hvisit : n.visit = .discovered t) :
    g.Grows (g.stamp j n) := by
  have hreset := reset_stamp hj hn
  have hnew : ∀ k, g.IsEntered k → j ≠ k := by
    rintro k hk rfl
    exact not_isEntered_of_node hj hv hk
  refine ⟨successors_congr hreset, id?_congr hreset, find?_congr hreset, directed_congr hreset,
    ?_, ?_, ?_⟩
  · intro k hk
    rw [parent?_stamp hj, if_neg (hnew k hk)]
  · intro k u hk
    rw [entrance?_stamp hj, if_neg (hnew k ((g.isEntered_iff k).mpr ⟨u, hk⟩)), hk]
  · intro k u hk
    rw [exit?_enter hj hv hvisit, hk]

/-- Entering a node gives it its entrance. -/
theorem entrance?_enter {t : Nat} (hj : g.nodes[j]? = some target)
    (hvisit : n.visit = .discovered t) (k : NodeIndex) :
    (g.stamp j n).entrance? k = if j = k then some t else g.entrance? k := by
  rw [entrance?_stamp hj, Node.entryTime?, hvisit]
  rfl

/-- Entering a node enters no other. -/
theorem isEntered_enter {t : Nat} (hj : g.nodes[j]? = some target)
    (hvisit : n.visit = .discovered t) (k : NodeIndex) :
    (g.stamp j n).IsEntered k ↔ j = k ∨ g.IsEntered k := by
  rw [(g.stamp j n).isEntered_iff, g.isEntered_iff, entrance?_enter hj hvisit]
  by_cases hjk : j = k
  · simp [hjk]
  · simp [hjk]

/-- Leaving a node changes no entrance. -/
theorem entrance?_leave (hi : g.nodes[i]? = some n) :
    (g.stamp i (n.leave g.clock)).entrance? = g.entrance? := by
  funext k
  rw [entrance?_stamp hi]
  split
  · next hik =>
    subst hik
    rw [entrance?_of_node hi]
    cases hv : n.visit <;> simp [Node.entryTime?, Node.leave, hv, Visit.close, Visit.entryTime?]
  · rfl

/-- Leaving a node changes no parent. -/
theorem parent?_leave (hi : g.nodes[i]? = some n) :
    (g.stamp i (n.leave g.clock)).parent? = g.parent? := by
  funext k
  rw [parent?_stamp hi]
  split
  · next hik =>
    subst hik
    rw [parent?_of_node hi]
    rfl
  · rfl

/-- Leaving an open node keeps all marks that there are. -/
theorem grows_leave (hi : g.nodes[i]? = some n) (ho : g.IsOpen i) :
    g.Grows (g.stamp i (n.leave g.clock)) := by
  have hreset : (g.stamp i (n.leave g.clock)).reset = g.reset := reset_stamp hi rfl
  refine ⟨successors_congr hreset, id?_congr hreset, find?_congr hreset, directed_congr hreset,
    ?_, ?_, ?_⟩
  · intro k _
    rw [parent?_leave hi]
  · intro k u hk
    rw [entrance?_leave hi, hk]
  · intro k u hk
    exact exit?_leave_of_eq_some hi ho hk

end

end Graph

namespace Walk

/-- The nodes of a path are the open nodes of a nested graph, each the parent of the next one
inwards. -/
structure Rooted (g : Graph ι α) (path : List Frame) : Prop extends Steady g path where
  nested : g.Nested
  mem_of_isOpen : ∀ i, g.IsOpen i → i ∈ trail path
  adopted : (trail path).IsChain fun inner outer => g.parent? inner = some outer
  /-- The clock is ahead of all entrances. -/
  entrance_lt_clock : ∀ i t, g.entrance? i = some t → t < g.clock
  /-- The clock is ahead of all exits. -/
  exit_lt_clock : ∀ i t, g.exit? i = some t → t < g.clock

section
variable {g : Graph ι α} {i j : NodeIndex} {pending : List NodeIndex} {path : List Frame}

/-- A graph that no walk has marked is nested. -/
theorem rooted_of_unmarked (hv : g.Untouched) (hp : ∀ i, g.parent? i = none) : Rooted g [] := by
  have hentered : ∀ i t, g.entrance? i ≠ some t := by
    intro i t ht
    obtain ⟨v, hv', hne⟩ := (g.isEntered_iff i).mpr ⟨t, ht⟩
    exact hne (hv i v hv')
  have hexit := hv.exit?_eq_none
  refine ⟨steady_nil g, ⟨?_, ?_, ?_, ?_, ?_⟩, ?_, by simp [trail], ?_, ?_⟩
  · intro i t u ht
    exact absurd ht (hentered i t)
  · intro i j t ht
    exact absurd ht (hentered i t)
  · intro i j hij
    rw [hp j] at hij
    cases hij
  · intro i j t hij
    rw [hp j] at hij
    cases hij
  · rintro i j ⟨t, u, ht, -⟩
    exact absurd ht (hentered i t)
  · rintro i ⟨t, ht⟩
    cases hv i _ ht
  · intro i t ht
    exact absurd ht (hentered i t)
  · intro i t ht
    rw [hexit i] at ht
    cases ht

/-- An edge may be looked at and left behind. -/
theorem Rooted.advance (h : Rooted g (⟨i, j :: pending⟩ :: path)) :
    Rooted g (⟨i, pending⟩ :: path) where
  toSteady := h.toSteady.advance
  nested := h.nested
  mem_of_isOpen := h.mem_of_isOpen
  adopted := h.adopted
  entrance_lt_clock := h.entrance_lt_clock
  exit_lt_clock := h.exit_lt_clock

/-- The innermost node descends from all nodes on the path. -/
theorem Rooted.descends_of_mem {f : Frame} (h : Rooted g (f :: path)) {k : NodeIndex}
    (hk : k ∈ trail (f :: path)) : g.Descends f.index k := by
  have hchain : (f.index :: trail path).IsChain
      (ReflTransGen fun child parent => g.parent? child = some parent) :=
    h.adopted.imp fun _ _ hparent => .single hparent
  rcases List.mem_cons.mp hk with rfl | hk
  · exact .refl
  · exact List.rel_of_pairwise_cons (List.isChain_iff_pairwise.mp hchain) hk

/-- A new node has no parent. -/
theorem Rooted.parent?_of_new (h : Rooted g path) {target : Node ι α}
    (hj : g.nodes[j]? = some target) (hv : target.visit = .undiscovered) : target.parent = none := by
  cases hp : target.parent with
  | none => rfl
  | some i =>
    have hparent : g.parent? j = some i := by rw [Graph.parent?_of_node hj, hp]
    have helder := h.nested.parent_elder i j hparent
    exact absurd helder.isEntered_right (Graph.not_isEntered_of_node hj hv)

/-- A node that has been entered is on the path or finished. -/
theorem Rooted.mem_or_isFinished (h : Rooted g path) {k : NodeIndex} (hk : g.IsEntered k) :
    k ∈ trail path ∨ g.IsFinished k :=
  hk.isOpen_or_isFinished.imp_left (h.mem_of_isOpen k)

/-- An open node has not been left. -/
theorem Rooted.exit?_eq_none (h : Rooted g path) {k : NodeIndex} (hk : k ∈ trail path) :
    g.exit? k = none := by
  obtain ⟨t, ht⟩ := h.isOpen k hk
  simp [Graph.exit?, ht, Visit.exitTime?]

/-! ### Entering -/

private theorem parent_enter {n target : Node ι α} (hj : g.nodes[j]? = some target)
    (hparent : n.parent = path.head?.map Frame.index) {i k : NodeIndex}
    (hik : (g.stamp j n).parent? k = some i) :
    (j = k ∧ i ∈ trail path) ∨ g.parent? k = some i := by
  rw [Graph.parent?_stamp hj] at hik
  split at hik
  · next hjk =>
    rw [hparent] at hik
    obtain ⟨f, hf, rfl⟩ := Option.map_eq_some_iff.mp hik
    exact .inl ⟨hjk, List.mem_map_of_mem (List.mem_of_mem_head? hf)⟩
  · exact .inr hik

private theorem Rooted.elder_enter {n target : Node ι α} (h : Rooted g path)
    (hj : g.nodes[j]? = some target) (hvisit : n.visit = .discovered g.clock) {i k : NodeIndex}
    (hik : (g.stamp j n).Elder i k) : g.IsEntered i ∧ (j = k ∨ g.Elder i k) := by
  obtain ⟨t, u, hi, hk, htu⟩ := hik
  rw [Graph.entrance?_enter hj hvisit] at hi hk
  split at hi
  · cases hi
    split at hk
    · cases hk
      omega
    · have := h.entrance_lt_clock k u hk
      omega
  · refine ⟨(g.isEntered_iff i).mpr ⟨t, hi⟩, ?_⟩
    split at hk
    · next hjk => exact .inl hjk
    · exact .inr ⟨t, u, hi, hk, htu⟩

section
variable {n target : Node ι α} (h : Rooted g path) (hj : g.nodes[j]? = some target)
  (hv : target.visit = .undiscovered) (hn : n.unvisited = target.unvisited)
  (hvisit : n.visit = .discovered g.clock) (hparent : n.parent = path.head?.map Frame.index)
include h hj hv hn hvisit hparent

private theorem Rooted.descends_enter {k : NodeIndex} (hk : k ∈ trail path) :
    (g.stamp j n).Descends j k := by
  have hgrows := Graph.grows_enter hj hv hn hvisit
  cases path with
  | nil => cases hk
  | cons f path =>
    refine .head ?_ (hgrows.descends h.nested (h.descends_of_mem hk))
    rw [Graph.parent?_stamp hj, if_pos rfl, hparent]
    rfl

private theorem Rooted.nested_enter : (g.stamp j n).Nested := by
  have hgrows := Graph.grows_enter hj hv hn hvisit
  have hexit : (g.stamp j n).exit? = g.exit? := Graph.exit?_enter hj hv hvisit
  have hentrance := Graph.entrance?_enter hj hvisit
  have hself : (g.stamp j n).entrance? j = some g.clock := by rw [hentrance, if_pos rfl]
  constructor
  · intro k t u hk hu
    rw [hexit] at hu
    rw [hentrance] at hk
    split at hk
    · next hjk =>
      subst hjk
      have hfinished : g.IsFinished j := ⟨u, hu⟩
      exact absurd hfinished.isEntered (Graph.not_isEntered_of_node hj hv)
    · exact h.nested.entrance_lt_exit k t u hk hu
  · intro k l t hk hl
    rw [hentrance] at hk hl
    split at hk
    · next hjk =>
      split at hl
      · next hjl => exact hjk.symm.trans hjl
      · cases hk
        exact absurd (h.entrance_lt_clock l _ hl) (Nat.lt_irrefl _)
    · split at hl
      · cases hl
        exact absurd (h.entrance_lt_clock k _ hk) (Nat.lt_irrefl _)
      · exact h.nested.entrance_inj k l t hk hl
  · intro i k hik
    rcases parent_enter hj hparent hik with ⟨rfl, hmem⟩ | hik
    · obtain ⟨t, ht⟩ := (g.isEntered_iff i).mp (h.isOpen i hmem).isEntered
      exact ⟨t, g.clock, hgrows.entrance i t ht, hself, h.entrance_lt_clock i t ht⟩
    · exact hgrows.elder (h.nested.parent_elder i k hik)
  · intro i k t hik hi
    rw [hexit] at hi ⊢
    rcases parent_enter hj hparent hik with ⟨rfl, hmem⟩ | hik
    · rw [h.exit?_eq_none hmem] at hi
      cases hi
    · exact h.nested.parent_exit i k t hik hi
  · intro i k hik
    obtain ⟨hi, rfl | helder⟩ := h.elder_enter hj hvisit hik
    · rcases h.mem_or_isFinished hi with hmem | ⟨u, hu⟩
      · exact .inl (h.descends_enter hj hv hn hvisit hparent hmem)
      · exact .inr ⟨u, g.clock, by rw [hexit, hu], hself, h.exit_lt_clock i u hu⟩
    · exact (h.nested.descends_or_precedes i k helder).imp
        (hgrows.descends h.nested) hgrows.precedes

/-- A new node may be entered from the innermost one, or as the first of all. -/
theorem Rooted.push (hedge : ∀ f ∈ path.head?, g.Edge f.index j) :
    Rooted (g.stamp j n) (⟨j, target.neighbors⟩ :: path) := by
  have hgrows := Graph.grows_enter hj hv hn hvisit
  refine ⟨h.toSteady.push hj hv hn hvisit hedge, h.nested_enter hj hv hn hvisit hparent,
    ?_, ?_, ?_, ?_⟩
  · intro k hk
    apply List.mem_cons.mpr
    exact (hk.of_stamp hj).imp_right (h.mem_of_isOpen k)
  · have hold : (trail path).IsChain fun inner outer => (g.stamp j n).parent? inner = some outer :=
      h.adopted.imp fun _ _ hparent => hgrows.parent_eq_some h.nested hparent
    cases path with
    | nil => exact .singleton _
    | cons f path =>
      refine .cons_cons ?_ hold
      rw [Graph.parent?_stamp hj, if_pos rfl, hparent]
      rfl
  · intro k t hk
    rw [Graph.entrance?_enter hj hvisit] at hk
    split at hk
    · cases hk
      exact Nat.lt_succ_self _
    · exact Nat.lt_succ_of_lt (h.entrance_lt_clock k t hk)
  · intro k t hk
    rw [Graph.exit?_enter hj hv hvisit] at hk
    exact Nat.lt_succ_of_lt (h.exit_lt_clock k t hk)

end

/-! ### Leaving -/

section
variable {n : Node ι α} (h : Rooted g (⟨i, pending⟩ :: path)) (hi : g.nodes[i]? = some n)
include h hi

private theorem Rooted.nested_leave : (g.stamp i (n.leave g.clock)).Nested := by
  have ho : g.IsOpen i := h.isOpen i (head_mem_trail ..)
  have hgrows := Graph.grows_leave hi ho
  have hexit := Graph.exit?_leave hi ho
  have hparent := Graph.parent?_leave hi
  have hentrance := Graph.entrance?_leave hi
  have helder {k l : NodeIndex} (hkl : (g.stamp i (n.leave g.clock)).Elder k l) : g.Elder k l := by
    rwa [Graph.Elder, hentrance] at hkl
  constructor
  · intro k t u hk hu
    rw [hentrance] at hk
    rw [hexit] at hu
    split at hu
    · cases hu
      exact h.entrance_lt_clock k t hk
    · exact h.nested.entrance_lt_exit k t u hk hu
  · intro k l t hk hl
    rw [hentrance] at hk hl
    exact h.nested.entrance_inj k l t hk hl
  · intro k l hkl
    rw [hparent] at hkl
    exact hgrows.elder (h.nested.parent_elder k l hkl)
  · intro k l t hkl hk
    rw [hparent] at hkl
    rw [hexit] at hk
    have hl := h.nested.parent_elder k l hkl
    split at hk
    · next hik =>
      subst hik
      cases hk
      -- A child of the innermost node is not on the path, so it has been left.
      rcases h.mem_or_isFinished hl.isEntered_right with hmem | ⟨u, hu⟩
      · have hd := h.descends_of_mem hmem
        exact absurd hl (h.nested.elder_of_descends hd hl.ne.symm).asymm
      · exact ⟨u, Graph.exit?_leave_of_eq_some hi ho hu, h.exit_lt_clock l u hu⟩
    · obtain ⟨u, hu, hut⟩ := h.nested.parent_exit k l t hkl hk
      exact ⟨u, Graph.exit?_leave_of_eq_some hi ho hu, hut⟩
  · intro k l hkl
    exact (h.nested.descends_or_precedes k l (helder hkl)).imp (hgrows.descends h.nested)
      hgrows.precedes

/-- The innermost node may be left. -/
theorem Rooted.pop : Rooted (g.stamp i (n.leave g.clock)) path := by
  have ho : g.IsOpen i := h.isOpen i (head_mem_trail ..)
  refine ⟨h.toSteady.pop hi rfl, h.nested_leave hi, ?_, ?_, ?_, ?_⟩
  · intro k hk
    obtain ⟨hne, ho⟩ := hk.of_leave hi
    exact (List.mem_cons.mp (h.mem_of_isOpen k ho)).resolve_left hne
  · rw [Graph.parent?_leave hi]
    exact h.adopted.tail
  · intro k t hk
    rw [Graph.entrance?_leave hi] at hk
    exact Nat.lt_succ_of_lt (h.entrance_lt_clock k t hk)
  · intro k u hu
    exact Graph.exit_lt_clock_leave hi ho h.exit_lt_clock hu

end

end

end Walk

end Precedence
