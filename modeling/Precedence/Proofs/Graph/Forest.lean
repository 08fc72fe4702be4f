import Precedence.Proofs.Graph.Marks

/-!
# The forest of parents

Following parents leads from a node to its ancestors. In a nested graph parents are entered before
their children and left after them, so parents form a forest; and of two nodes the one entered
later descends from the other, or was entered only after the other was left.
-/

namespace Precedence.Graph

open Relation (ReflTransGen)

variable {ι α : Type} [BEq ι] [Hashable ι]

/-- `g.Descends j i`: following parents from `j` leads to `i`, in no step or more. -/
def Descends (g : Graph ι α) : NodeIndex → NodeIndex → Prop :=
  ReflTransGen fun child parent => g.parent? child = some parent

/-- `j` descends from `i`, with other nodes in between. -/
def Overleaps (g : Graph ι α) (i j : NodeIndex) : Prop :=
  j ≠ i ∧ g.Descends j i ∧ g.parent? j ≠ some i

/-- `i` was entered before `j`. -/
def Elder (g : Graph ι α) (i j : NodeIndex) : Prop :=
  ∃ t u, g.entrance? i = some t ∧ g.entrance? j = some u ∧ t < u

/-- `i` was left before `j` was entered. -/
def Precedes (g : Graph ι α) (i j : NodeIndex) : Prop :=
  ∃ t u, g.exit? i = some t ∧ g.entrance? j = some u ∧ t < u

/-- The marks are those of a forest: each node spends its time within that of its parent. -/
structure Nested (g : Graph ι α) : Prop where
  entrance_lt_exit : ∀ i t u, g.entrance? i = some t → g.exit? i = some u → t < u
  entrance_inj : ∀ i j t, g.entrance? i = some t → g.entrance? j = some t → i = j
  parent_elder : ∀ i j, g.parent? j = some i → g.Elder i j
  parent_exit : ∀ i j t, g.parent? j = some i → g.exit? i = some t →
    ∃ u, g.exit? j = some u ∧ u < t
  /-- Who was entered later descends from the elder, unless the elder had been left. -/
  descends_or_precedes : ∀ i j, g.Elder i j → g.Descends j i ∨ g.Precedes i j

section
variable {g : Graph ι α} {i j : NodeIndex}

theorem Elder.isEntered_right (h : g.Elder i j) : g.IsEntered j := by
  obtain ⟨_, u, _, hu, _⟩ := h
  exact (g.isEntered_iff j).mpr ⟨u, hu⟩

/-- Nobody is elder than whoever is elder. -/
theorem Elder.asymm (h : g.Elder i j) : ¬ g.Elder j i := by
  obtain ⟨t, u, ht, hu, htu⟩ := h
  rintro ⟨u', t', hu', ht', hut⟩
  rw [ht] at ht'
  rw [hu] at hu'
  cases ht'
  cases hu'
  omega

theorem Elder.trans {k : NodeIndex} (h : g.Elder i j) (h' : g.Elder j k) : g.Elder i k := by
  obtain ⟨t, u, ht, hu, htu⟩ := h
  obtain ⟨u', v, hu', hv, huv⟩ := h'
  rw [hu] at hu'
  cases hu'
  exact ⟨t, v, ht, hv, by omega⟩

theorem Elder.ne (h : g.Elder i j) : i ≠ j := by
  rintro rfl
  exact h.asymm h

/-- What descends from a node descends from one of its children. -/
theorem Descends.exists_child (h : g.Descends j i) (hne : j ≠ i) :
    ∃ k, g.parent? k = some i ∧ g.Descends j k := by
  rcases ReflTransGen.cases_tail h with heq | ⟨k, hjk, hki⟩
  · exact absurd heq.symm hne
  · exact ⟨k, hki, hjk⟩

/-- What descends from a node is reached from it along whatever leads from parents to children. -/
theorem Descends.reaches {r : NodeIndex → NodeIndex → Prop} (h : g.Descends j i)
    (hparent : ∀ i j, g.parent? j = some i → r i j) : ReflTransGen r i j := by
  induction h with
  | refl => exact .refl
  | tail _ hstep ih => exact .head (hparent _ _ hstep) ih

namespace Nested

variable (h : g.Nested)
include h

/-- Of two nodes that have been entered, one is the elder. -/
theorem elder_or_elder (hi : g.IsEntered i) (hj : g.IsEntered j) (hij : i ≠ j) :
    g.Elder i j ∨ g.Elder j i := by
  obtain ⟨t, ht⟩ := (g.isEntered_iff i).mp hi
  obtain ⟨u, hu⟩ := (g.isEntered_iff j).mp hj
  have htu : t ≠ u := by
    rintro rfl
    exact hij (h.entrance_inj i j t ht hu)
  by_cases hlt : t < u
  · exact .inl ⟨t, u, ht, hu, hlt⟩
  · exact .inr ⟨u, t, hu, ht, by omega⟩

/-- An ancestor is elder. -/
theorem elder_of_descends (hji : g.Descends j i) (hne : i ≠ j) : g.Elder i j := by
  induction hji using ReflTransGen.head_induction_on with
  | refl => exact absurd rfl hne
  | @head j k hjk _ ih =>
    have hkj := h.parent_elder k j hjk
    by_cases hik : i = k
    · rw [hik]
      exact hkj
    · exact (ih hik).trans hkj

/-- Two nodes that descend from each other are one. -/
theorem descends_antisymm (hij : g.Descends i j) (hji : g.Descends j i) : i = j := by
  by_cases hne : i = j
  · exact hne
  · exact absurd (h.elder_of_descends hij (Ne.symm hne)) (h.elder_of_descends hji hne).asymm

/-- When an ancestor is left, its descendants have been left. -/
theorem exit_of_descends (hji : g.Descends j i) {t : Nat} (hi : g.exit? i = some t) :
    ∃ u, g.exit? j = some u ∧ u ≤ t := by
  induction hji using ReflTransGen.head_induction_on with
  | refl => exact ⟨t, hi, Nat.le_refl t⟩
  | @head j k hjk _ ih =>
    obtain ⟨u, hu, hut⟩ := ih
    obtain ⟨v, hv, hvu⟩ := h.parent_exit k j u hjk hu
    exact ⟨v, hv, by omega⟩

/-- A node that was left before another was entered is no ancestor of it. -/
theorem not_descends_of_precedes (hij : g.Precedes i j) : ¬ g.Descends j i := by
  obtain ⟨t, u, ht, hu, htu⟩ := hij
  intro hji
  obtain ⟨v, hv, hvt⟩ := h.exit_of_descends hji ht
  have := h.entrance_lt_exit j u v hu hv
  omega

/-- A node that was left before another was entered is elder. -/
theorem elder_of_precedes (hij : g.Precedes i j) : g.Elder i j := by
  obtain ⟨t, u, ht, hu, htu⟩ := hij
  have hfinished : g.IsFinished i := ⟨t, ht⟩
  obtain ⟨s, hs⟩ := (g.isEntered_iff i).mp hfinished.isEntered
  have := h.entrance_lt_exit i s t hs ht
  exact ⟨s, u, hs, hu, by omega⟩

/-- Nor is it a descendant. -/
theorem not_ancestor_of_precedes (hij : g.Precedes i j) : ¬ g.Descends i j := by
  have helder := h.elder_of_precedes hij
  intro hd
  exact helder.asymm (h.elder_of_descends hd helder.ne.symm)

/-- A proper descendant is left before its ancestor. -/
theorem exit_lt_of_descends (hji : g.Descends j i) (hne : j ≠ i) {t : Nat}
    (hi : g.exit? i = some t) : ∃ u, g.exit? j = some u ∧ u < t := by
  rcases ReflTransGen.cases_head hji with rfl | ⟨k, hjk, hki⟩
  · exact absurd rfl hne
  · obtain ⟨u, hu, hut⟩ := h.exit_of_descends hki hi
    obtain ⟨v, hv, hvu⟩ := h.parent_exit k j u hjk hu
    exact ⟨v, hv, by omega⟩

/-- What was left before another node was entered was left before it. -/
theorem exit_lt_of_precedes (hij : g.Precedes i j) {t u : Nat} (hi : g.exit? i = some t)
    (hj : g.exit? j = some u) : t < u := by
  obtain ⟨t', v, ht', hv, htv⟩ := hij
  rw [hi] at ht'
  cases ht'
  have := h.entrance_lt_exit j v u hv hj
  omega

/-- What was left before a node was entered was left before its descendants were. -/
theorem precedes_of_descends {k : NodeIndex} (hik : g.Precedes i k) (hjk : g.Descends j k) :
    g.Precedes i j := by
  by_cases hne : k = j
  · rwa [← hne]
  · obtain ⟨t, u, ht, hu, htu⟩ := hik
    obtain ⟨u', v, hu', hv, huv⟩ := h.elder_of_descends hjk hne
    rw [hu] at hu'
    cases hu'
    exact ⟨t, v, ht, hv, by omega⟩

/-- A node that is left before another was left before the other was entered, or it descends from
it. -/
theorem precedes_or_descends {t u : Nat} (hi : g.exit? i = some t) (hj : g.exit? j = some u)
    (htu : t < u) : g.Precedes i j ∨ g.Descends i j := by
  have hifinished : g.IsFinished i := ⟨t, hi⟩
  have hjfinished : g.IsFinished j := ⟨u, hj⟩
  have hne : i ≠ j := by
    rintro rfl
    rw [hi] at hj
    cases hj
    exact Nat.lt_irrefl t htu
  rcases h.elder_or_elder hifinished.isEntered hjfinished.isEntered hne with helder | helder
  · refine .inl ((h.descends_or_precedes i j helder).resolve_left fun hd => ?_)
    obtain ⟨v, hv, hvt⟩ := h.exit_of_descends hd hi
    rw [hj] at hv
    cases hv
    omega
  · refine .inr ((h.descends_or_precedes j i helder).resolve_right fun hp => ?_)
    exact Nat.lt_asymm htu (h.exit_lt_of_precedes hp hj hi)

/-- Graphs with the same readings and parents are nested together. -/
theorem congr_readings {g' : Graph ι α} (hentrance : g'.entrance? = g.entrance?)
    (hexit : g'.exit? = g.exit?) (hparent : g'.parent? = g.parent?) : g'.Nested := by
  have helder : g'.Elder = g.Elder := by
    funext i j
    rw [Elder, Elder, hentrance]
  have hprecedes : g'.Precedes = g.Precedes := by
    funext i j
    rw [Precedes, Precedes, hentrance, hexit]
  have hdescends : g'.Descends = g.Descends := by rw [Descends, Descends, hparent]
  constructor
  · rw [hentrance, hexit]
    exact h.entrance_lt_exit
  · rw [hentrance]
    exact h.entrance_inj
  · rw [hparent, helder]
    exact h.parent_elder
  · rw [hparent, hexit]
    exact h.parent_exit
  · rw [helder, hdescends, hprecedes]
    exact h.descends_or_precedes

/-- Graphs with the same marks are nested together. -/
theorem congr {g' : Graph ι α} (hvisit : g'.visit? = g.visit?) (hparent : g'.parent? = g.parent?) :
    g'.Nested :=
  h.congr_readings (entrance?_congr hvisit) (exit?_congr hvisit) hparent

end Nested

end

/-! ### What marks keep -/

/-- From `g` to `g'` the skeleton stays, but for payloads, and so do the marks of all nodes that have
been entered; others may be entered or left. -/
structure Grows (g g' : Graph ι α) : Prop where
  successors_eq : g'.successors = g.successors
  id?_eq : g'.id? = g.id?
  find?_eq : g'.find? = g.find?
  directed_eq : g'.directed = g.directed
  parent : ∀ i, g.IsEntered i → g'.parent? i = g.parent? i
  entrance : ∀ i t, g.entrance? i = some t → g'.entrance? i = some t
  exit : ∀ i t, g.exit? i = some t → g'.exit? i = some t

namespace Grows

variable {g g' g'' : Graph ι α} {i j : NodeIndex}

theorem refl (g : Graph ι α) : g.Grows g :=
  ⟨rfl, rfl, rfl, rfl, fun _ _ => rfl, fun _ _ h => h, fun _ _ h => h⟩

theorem isEntered (h : g.Grows g') (hi : g.IsEntered i) : g'.IsEntered i := by
  obtain ⟨t, ht⟩ := (g.isEntered_iff i).mp hi
  exact (g'.isEntered_iff i).mpr ⟨t, h.entrance i t ht⟩

theorem trans (h : g.Grows g') (h' : g'.Grows g'') : g.Grows g'' where
  successors_eq := h'.successors_eq.trans h.successors_eq
  id?_eq := h'.id?_eq.trans h.id?_eq
  find?_eq := h'.find?_eq.trans h.find?_eq
  directed_eq := h'.directed_eq.trans h.directed_eq
  parent i hi := (h'.parent i (h.isEntered hi)).trans (h.parent i hi)
  entrance i t ht := h'.entrance i t (h.entrance i t ht)
  exit i t ht := h'.exit i t (h.exit i t ht)

theorem edge_eq (h : g.Grows g') : g'.Edge = g.Edge := by
  funext i j
  rw [Edge, Edge, h.successors_eq]

theorem elder (h : g.Grows g') (hij : g.Elder i j) : g'.Elder i j := by
  obtain ⟨t, u, ht, hu, htu⟩ := hij
  exact ⟨t, u, h.entrance i t ht, h.entrance j u hu, htu⟩

theorem precedes (h : g.Grows g') (hij : g.Precedes i j) : g'.Precedes i j := by
  obtain ⟨t, u, ht, hu, htu⟩ := hij
  exact ⟨t, u, h.exit i t ht, h.entrance j u hu, htu⟩

section
variable (h : g.Grows g') (hg : g.Nested)
include h hg

/-- Parents stay. -/
theorem parent_eq_some (hij : g.parent? j = some i) : g'.parent? j = some i := by
  rw [h.parent j (hg.parent_elder i j hij).isEntered_right, hij]

/-- Descendants stay. -/
theorem descends (hji : g.Descends j i) : g'.Descends j i := by
  induction hji with
  | refl => exact .refl
  | tail _ hparent ih => exact ih.tail (h.parent_eq_some hg hparent)

theorem overleaps (hj : g.IsEntered j) (hij : g.Overleaps i j) : g'.Overleaps i j := by
  obtain ⟨hne, hd, hp⟩ := hij
  exact ⟨hne, h.descends hg hd, by rw [h.parent j hj]; exact hp⟩

end

end Grows

end Precedence.Graph
