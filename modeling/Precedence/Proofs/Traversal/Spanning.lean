import Mathlib.Combinatorics.SimpleGraph.Acyclic
import Precedence.Proofs.Traversal.Classification
import Precedence.Proofs.Traversal.Interruption

/-!
# Walks of undirected graphs

In an undirected graph every edge is there from both of its ends and is looked at twice. A walk
reports it once: as a tree edge or as an edge back to an ancestor, and the other time it is passed
over. The tree edges span the graph, so an edge that closes a cycle is reported when there is a
cycle, and then only.
-/

namespace Precedence

variable {ι α σ ε : Type} [BEq ι] [Hashable ι]

namespace Graph

/-- Nodes are adjacent when an edge joins them; self-loops do not count. -/
def adjacency (g : Graph ι α) : SimpleGraph NodeIndex := SimpleGraph.fromRel g.Edge

/-! ### The forest of parents -/

/-- Nodes are adjacent in the forest when one is the parent of the other. -/
def family (g : Graph ι α) : SimpleGraph NodeIndex :=
  SimpleGraph.fromRel fun i j => g.parent? j = some i

section
variable {g : Graph ι α} {i j : NodeIndex}

private theorem reachable_family_of_descends (h : g.Descends j i) : g.family.Reachable j i := by
  induction h with
  | refl => exact .refl _
  | @tail k l _ hkl ih =>
    by_cases hne : k = l
    · rwa [← hne]
    · have hadj : g.family.Adj k l := (SimpleGraph.fromRel_adj _ _ _).mpr ⟨hne, .inr hkl⟩
      exact ih.trans hadj.reachable

private theorem descends_of_reachable_deleteEdges (hparent : g.parent? j = some i) {k : NodeIndex}
    (h : (g.family.deleteEdges {s(i, j)}).Reachable j k) : g.Descends k j := by
  rw [SimpleGraph.reachable_iff_reflTransGen] at h
  induction h with
  | refl => exact .refl
  | @tail k l _ hkl ih =>
    rw [SimpleGraph.deleteEdges_adj, family, SimpleGraph.fromRel_adj] at hkl
    obtain ⟨⟨-, hkl | hkl⟩, hdeleted⟩ := hkl
    · exact .head hkl ih
    · rcases Relation.ReflTransGen.cases_head ih with rfl | ⟨m, hkm, hmj⟩
      · rw [hparent] at hkl
        cases hkl
        exact absurd (Sym2.eq_swap) hdeleted
      · rw [hkl] at hkm
        cases hkm
        exact hmj

/-- The forest of parents of a nested graph has no cycles. -/
theorem Nested.isAcyclic_family (hg : g.Nested) : g.family.IsAcyclic := by
  have hbridge : ∀ i j, g.parent? j = some i → g.family.IsBridge s(i, j) := by
    intro i j hparent hreach
    have hd := descends_of_reachable_deleteEdges hparent hreach.symm
    have helder := hg.parent_elder i j hparent
    exact helder.asymm (hg.elder_of_descends hd helder.ne.symm)
  rw [SimpleGraph.isAcyclic_iff_forall_adj_isBridge]
  intro i j hij
  obtain ⟨-, hparent | hparent⟩ := (SimpleGraph.fromRel_adj _ _ _).mp hij
  · exact hbridge i j hparent
  · rw [Sym2.eq_swap]
    exact hbridge j i hparent

end

end Graph

/-! ### Both looks at an edge -/

namespace Walk.Explored

variable {g₀ g : Graph ι α} {es : List (Event ι α)} {looks : List Look} {i j : NodeIndex}
  (h : Explored g₀ es g [] looks)
include h

private theorem mem_reports_tree_iff :
    ⟨some i, some j, .tree⟩ ∈ g₀.reports es ↔ g.parent? j = some i := by
  rw [h.mem_reports_iff]
  constructor
  · intro hlook
    exact h.judged.fits _ hlook
  · intro hparent
    exact h.judged.adopted i j hparent

private theorem family_le : g.family ≤ g₀.adjacency := by
  intro i j hij
  obtain ⟨hne, hparent⟩ := (SimpleGraph.fromRel_adj _ _ _).mp hij
  exact (SimpleGraph.fromRel_adj _ _ _).mpr
    ⟨hne, hparent.imp h.edge_of_parent h.edge_of_parent⟩

variable (hd : g₀.directed = false)
include hd

private theorem not_precedes (hi : g.IsEntered i) (hij : g₀.Edge i j) : ¬ g.Precedes i j := by
  have hnested := h.rooted.nested
  intro hprecedes
  have hup := hnested.not_descends_of_precedes hprecedes
  have hdown := hnested.not_ancestor_of_precedes hprecedes
  have hdirected : g.directed ≠ true := by rw [h.grows.directed_eq, hd]; simp
  obtain ⟨kind, hlook⟩ := h.exists_look hi hij
  have hfits := h.judged.fits _ hlook
  cases kind with
  | none =>
    rcases hfits.2 with hparent | hover | hafter
    · exact hdown (.single hparent)
    · exact hup hover.2.1
    · exact (hnested.elder_of_precedes hprecedes).asymm (hnested.elder_of_precedes hafter)
  | some kind =>
    cases kind with
    | tree => exact hup (.single hfits)
    | back => exact hdown hfits.1
    | forward => exact hdirected hfits.1
    | cross => exact hdirected hfits.1

variable (hsymm : ∀ i j, g₀.Edge i j → g₀.Edge j i)
include hsymm

private theorem look_cases {kind : Option EdgeKind} (hlook : ⟨i, j, kind⟩ ∈ looks) :
    (kind = some .tree ∧ g.parent? j = some i) ∨
    (kind = some .back ∧ g.Descends i j ∧ g.parent? i ≠ some j) ∨
    (kind = none ∧ (g.parent? i = some j ∨ g.Overleaps i j)) := by
  have hdirected : g.directed ≠ true := by rw [h.grows.directed_eq, hd]; simp
  have hfits := h.judged.fits _ hlook
  cases kind with
  | none =>
    have hnot : ¬ g.Precedes j i :=
      h.not_precedes hd (h.judged.entered _ hlook).2 (hsymm i j (h.edge_of_mem hlook))
    rcases hfits.2 with hparent | hover | hafter
    · exact .inr (.inr ⟨rfl, .inl hparent⟩)
    · exact .inr (.inr ⟨rfl, .inr hover⟩)
    · exact absurd hafter hnot
  | some kind =>
    cases kind with
    | tree => exact .inl ⟨rfl, hfits⟩
    | back => exact .inr (.inl ⟨rfl, hfits.1, hfits.2.resolve_left hdirected⟩)
    | forward => exact absurd hfits.1 hdirected
    | cross => exact absurd hfits.1 hdirected

private theorem isSome_iff_of_ne {kind kind' : Option EdgeKind} (hne : i ≠ j)
    (hij : ⟨i, j, kind⟩ ∈ looks) (hji : ⟨j, i, kind'⟩ ∈ looks) :
    kind.isSome ↔ ¬ kind'.isSome := by
  have hchild : g.parent? j = some i → g.Descends j i := fun hparent => .single hparent
  have hchild' : g.parent? i = some j → g.Descends i j := fun hparent => .single hparent
  have hone : g.Descends i j → ¬ g.Descends j i :=
    fun hd hd' => hne (h.rooted.nested.descends_antisymm hd hd')
  -- Two looks that agree would make each end descend from the other.
  rcases h.look_cases hd hsymm hij with ⟨rfl, ht⟩ | ⟨rfl, hb⟩ | ⟨rfl, hn⟩
  all_goals rcases h.look_cases hd hsymm hji with ⟨rfl, ht'⟩ | ⟨rfl, hb'⟩ | ⟨rfl, hn'⟩
  all_goals grind [Graph.Overleaps]

private theorem eq_back_of_loop {kind : Option EdgeKind} (hlook : ⟨i, i, kind⟩ ∈ looks) :
    kind = some .back := by
  have hself : g.parent? i ≠ some i :=
    fun hparent => (h.rooted.nested.parent_elder i i hparent).ne rfl
  rcases h.look_cases hd hsymm hlook with ⟨-, ht⟩ | ⟨rfl, -⟩ | ⟨-, hparent | hover⟩
  · exact absurd ht hself
  · rfl
  · exact absurd hparent hself
  · exact absurd rfl hover.1

private theorem reachable_family_of_edge (hi : g.IsEntered i) (hij : g₀.Edge i j) :
    g.family.Reachable i j := by
  obtain ⟨kind, hlook⟩ := h.exists_look hi hij
  rcases h.look_cases hd hsymm hlook with ⟨-, hchild⟩ | ⟨-, hback, -⟩ | ⟨-, hparent | hover⟩
  · exact (Graph.reachable_family_of_descends (.single hchild)).symm
  · exact Graph.reachable_family_of_descends hback
  · exact Graph.reachable_family_of_descends (.single hparent)
  · exact (Graph.reachable_family_of_descends hover.2.1).symm

private theorem not_isAcyclic_of_back (hne : i ≠ j)
    (hback : ⟨some i, some j, .back⟩ ∈ g₀.reports es) : ¬ g₀.adjacency.IsAcyclic := by
  have hnested := h.rooted.nested
  have hlook := h.mem_reports_iff.mp hback
  obtain ⟨hd', hparent⟩ : g.Descends i j ∧ g.parent? i ≠ some j := by
    rcases h.look_cases hd hsymm hlook with ⟨hkind, -⟩ | ⟨-, hd', hparent⟩ | ⟨hkind, -⟩
    · cases hkind
    · exact ⟨hd', hparent⟩
    · cases hkind
  have hnot : ¬ g.family.Adj i j := by
    intro hij
    obtain ⟨-, hchild | hup⟩ := (SimpleGraph.fromRel_adj _ _ _).mp hij
    · exact (hnested.parent_elder i j hchild).asymm (hnested.elder_of_descends hd' hne.symm)
    · exact hparent hup
  have hadj : g₀.adjacency.Adj i j :=
    (SimpleGraph.fromRel_adj _ _ _).mpr ⟨hne, .inl (h.edge_of_mem hlook)⟩
  -- The forest joins the two ends without the edge.
  have hle : g.family ≤ g₀.adjacency.deleteEdges {s(i, j)} := by
    intro k l hkl
    refine SimpleGraph.deleteEdges_adj.mpr ⟨h.family_le hkl, ?_⟩
    intro heq
    have hmem : s(i, j) ∈ g.family.edgeSet := by
      rw [← Set.mem_singleton_iff.mp heq]
      exact hkl
    exact hnot hmem
  intro hacyclic
  have hbridge := SimpleGraph.isAcyclic_iff_forall_adj_isBridge.mp hacyclic hadj
  exact hbridge ((Graph.reachable_family_of_descends hd').mono hle)

variable (hall : ∀ i < g₀.size, g.IsEntered i)
include hall

/-- What hangs together in the graph hangs together in the forest. -/
theorem reachable_family_iff : g.family.Reachable i j ↔ g₀.adjacency.Reachable i j := by
  constructor
  · exact SimpleGraph.Reachable.mono h.family_le
  · intro hreach
    rw [SimpleGraph.reachable_iff_reflTransGen] at hreach
    induction hreach with
    | refl => exact .refl _
    | @tail k l _ hkl ih =>
      obtain ⟨-, hkl | hlk⟩ := (SimpleGraph.fromRel_adj _ _ _).mp hkl
      · exact ih.trans (h.reachable_family_of_edge hd hsymm (hall k hkl.source_lt) hkl)
      · exact ih.trans (h.reachable_family_of_edge hd hsymm (hall l hlk.source_lt) hlk).symm

private theorem adjacency_le_of_no_back (hback : ∀ r ∈ g₀.reports es, r.kind ≠ .back) :
    g₀.adjacency ≤ g.family := by
  have hlook {i j : NodeIndex} (hij : g₀.Edge i j) (hne : i ≠ j) : g.family.Adj i j := by
    obtain ⟨kind, hlook⟩ := h.exists_look (hall i hij.source_lt) hij
    have hji := hsymm i j hij
    obtain ⟨kind', hlook'⟩ := h.exists_look (hall j hji.source_lt) hji
    have hnot {i j : NodeIndex} (hlook : ⟨i, j, some .back⟩ ∈ looks) : False :=
      hback _ (h.mem_reports_iff.mpr hlook) rfl
    have hpassed := h.isSome_iff_of_ne hd hsymm hne hlook hlook'
    rw [Graph.family, SimpleGraph.fromRel_adj]
    refine ⟨hne, ?_⟩
    rcases h.look_cases hd hsymm hlook with ⟨-, hchild⟩ | ⟨rfl, -⟩ | ⟨rfl, -⟩
    · exact .inl hchild
    · exact (hnot hlook).elim
    · rcases h.look_cases hd hsymm hlook' with ⟨-, hchild⟩ | ⟨rfl, -⟩ | ⟨rfl, -⟩
      · exact .inr hchild
      · exact (hnot hlook').elim
      · simp at hpassed
  intro i j hij
  obtain ⟨hne, hij | hji⟩ := (SimpleGraph.fromRel_adj _ _ _).mp hij
  · exact hlook hij hne
  · exact (hlook hji hne.symm).symm

end Walk.Explored

/-! ### Spanning forests -/

namespace Graph

/-- Nodes are adjacent when a tree edge is reported between them. -/
def treeGraph (rs : List EdgeReport) : SimpleGraph NodeIndex :=
  SimpleGraph.fromRel fun i j => ⟨some i, some j, .tree⟩ ∈ rs

/-- The reports of a walk of the undirected graph `g`, which left the graph `g'`, give a spanning
forest and the edges that are not part of it. -/
structure Spans (g : Graph ι α) (es : List (Event ι α)) (g' : Graph ι α) : Prop where
  /-- Only edges are reported, as tree edges or as back edges. -/
  only : ∀ r ∈ g.reports es, ∃ i j, g.Edge i j ∧
    (r = ⟨some i, some j, .tree⟩ ∨ r = ⟨some i, some j, .back⟩)
  /-- Of the two directions of an edge one is reported, and once. -/
  once : ∀ i j, i ≠ j → g.Edge i j → g.timesReported es i j + g.timesReported es j i = 1
  /-- A self-loop is reported once. -/
  loop_once : ∀ i, g.Edge i i → g.timesReported es i i = 1
  loop : ∀ i, g.Edge i i → ⟨some i, some i, .back⟩ ∈ g.reports es
  /-- A tree edge leads to a child. -/
  tree : ∀ i j, ⟨some i, some j, .tree⟩ ∈ g.reports es → g'.parent? j = some i
  /-- A back edge leads to an ancestor. -/
  back : ∀ i j, ⟨some i, some j, .back⟩ ∈ g.reports es → g'.Descends i j
  /-- The tree edges are without cycles. -/
  acyclic : (treeGraph (g.reports es)).IsAcyclic
  /-- The tree edges are edges of the graph. -/
  subgraph : treeGraph (g.reports es) ≤ g.adjacency
  /-- The trees are the connected components of the graph. -/
  component : ∀ i j, (treeGraph (g.reports es)).Reachable i j ↔ g.adjacency.Reachable i j
  /-- A back edge is reported if there is a cycle, and then only. -/
  cyclic : (∃ r ∈ g.reports es, r.kind = .back) ↔
    (∃ i, g.Edge i i) ∨ ¬ g.adjacency.IsAcyclic

end Graph

namespace Walk.Explored

variable {g₀ g : Graph ι α} {es : List (Event ι α)} {looks : List Look} {i j : NodeIndex}
  (h : Explored g₀ es g [] looks)
include h

/-- The tree edges that are reported are the forest of parents. -/
theorem treeGraph_reports : Graph.treeGraph (g₀.reports es) = g.family := by
  have htree : ∀ i j, ⟨some i, some j, .tree⟩ ∈ g₀.reports es ↔ g.parent? j = some i :=
    fun _ _ => h.mem_reports_tree_iff
  simp only [Graph.treeGraph, Graph.family, htree]

variable (hd : g₀.directed = false) (hsymm : ∀ i j, g₀.Edge i j → g₀.Edge j i)
  (hall : ∀ i < g₀.size, g.IsEntered i)
include hd hsymm

private theorem tree_or_back_of_mem_reports {r : EdgeReport} (hr : r ∈ g₀.reports es) :
    ∃ i j, g₀.Edge i j ∧ (r = ⟨some i, some j, .tree⟩ ∨ r = ⟨some i, some j, .back⟩) := by
  obtain ⟨i, j, hrij, hij, -⟩ := h.exists_of_mem_reports hr
  refine ⟨i, j, hij, ?_⟩
  rw [hrij] at hr
  rw [hrij]
  rcases h.look_cases hd hsymm (h.mem_reports_iff.mp hr) with ⟨hkind, -⟩ | ⟨hkind, -⟩ | ⟨hkind, -⟩
  · exact .inl (by rw [Option.some.inj hkind])
  · exact .inr (by rw [Option.some.inj hkind])
  · cases hkind

include hall

private theorem timesReported_add (hg₀ : g₀.WellFormed) (hne : i ≠ j) (hij : g₀.Edge i j) :
    g₀.timesReported es i j + g₀.timesReported es j i = 1 := by
  have hji := hsymm i j hij
  obtain ⟨kind, hlook⟩ := h.exists_look (hall i hij.source_lt) hij
  obtain ⟨kind', hlook'⟩ := h.exists_look (hall j hji.source_lt) hji
  have hone := h.isSome_iff_of_ne hd hsymm hne hlook hlook'
  rw [h.timesReported_of_mem hg₀ hlook, h.timesReported_of_mem hg₀ hlook']
  by_cases hpassed : kind'.isSome
  · rw [if_neg (fun hkind => hone.mp hkind hpassed), if_pos hpassed]
  · rw [if_pos (hone.mpr hpassed), if_neg hpassed]

private theorem back_mem_of_loop (hii : g₀.Edge i i) : ⟨i, i, some .back⟩ ∈ looks := by
  obtain ⟨kind, hlook⟩ := h.exists_look (hall i hii.source_lt) hii
  rwa [h.eq_back_of_loop hd hsymm hlook] at hlook

/-- An edge that leads back is reported exactly if there is a self-loop or another cycle. -/
theorem exists_back_iff_cyclic :
    (∃ r ∈ g₀.reports es, r.kind = .back) ↔ (∃ i, g₀.Edge i i) ∨ ¬ g₀.adjacency.IsAcyclic := by
  constructor
  · rintro ⟨r, hr, hkind⟩
    obtain ⟨i, j, hrij, hij, -⟩ := h.exists_of_mem_reports hr
    rw [hrij, hkind] at hr
    by_cases hne : i = j
    · subst hne
      exact .inl ⟨i, hij⟩
    · exact .inr (h.not_isAcyclic_of_back hd hsymm hne hr)
  · rintro (⟨i, hii⟩ | hcyclic)
    · exact ⟨_, h.mem_reports_iff.mpr (h.back_mem_of_loop hd hsymm hall hii), rfl⟩
    · by_contra hnone
      have hback : ∀ r ∈ g₀.reports es, r.kind ≠ .back := fun r hr hkind => hnone ⟨r, hr, hkind⟩
      have hle := h.adjacency_le_of_no_back hd hsymm hall hback
      exact hcyclic (h.rooted.nested.isAcyclic_family.anti hle)

/-- What has been surveyed of an undirected graph from all of its nodes spans it. -/
theorem spans (hg₀ : g₀.WellFormed) : g₀.Spans es g where
  only r hr := h.tree_or_back_of_mem_reports hd hsymm hr
  once i j hne hij := h.timesReported_add hd hsymm hall hg₀ hne hij
  loop_once i hii := by
    rw [h.timesReported_of_mem hg₀ (h.back_mem_of_loop hd hsymm hall hii)]
    rfl
  loop i hii := h.mem_reports_iff.mpr (h.back_mem_of_loop hd hsymm hall hii)
  tree i j hr := h.mem_reports_tree_iff.mp hr
  back i j hr := (h.judged.fits _ (h.mem_reports_iff.mp hr)).1
  acyclic := by
    rw [h.treeGraph_reports]
    exact h.rooted.nested.isAcyclic_family
  subgraph := by
    rw [h.treeGraph_reports]
    exact h.family_le
  component i j := by
    rw [h.treeGraph_reports]
    exact h.reachable_family_iff hd hsymm hall
  cyclic := h.exists_back_iff_cyclic hd hsymm hall

end Walk.Explored

namespace Graph

/-- A walk from every node of an undirected graph goes through and spans the graph. -/
theorem spans_walk [EquivBEq ι] {g : Graph ι α} (hg : g.WellFormed) (hfresh : g.reset = g)
    (hd : g.directed = false) (hsymm : ∀ i j, g.Edge i j → g.Edge j i)
    {o : Observer ι α σ ε} (ho : o.Patient) (s : σ) :
    (g.walk o s .all).result = .ok () ∧
      g.Spans (g.events o s .all) (g.walk o s .all).graph := by
  have hclosed : g.Closed := fun i j hij => (hsymm i j hij).source_lt
  have hok : (g.walk o s .all).result = .ok () :=
    walk_eq_ok_of_patient hclosed .all g.lt_size_of_mem_starts_all ho s
  refine ⟨hok, ?_⟩
  obtain ⟨looks, h⟩ := (Tour.nil.call o s .all hok).explored hg hfresh
  apply h.spans hd hsymm _ hg
  intro i hi
  rw [walk_eq_walkEach] at hok ⊢
  exact isEntered_walkEach hok (.inr (List.mem_range.mpr hi))

/-- Add an edge between two identifiers in both directions. -/
def join (g : Graph ι α) (a b : ι) : Graph ι α := ((g.connect a b).1.connect b a).1

/-- A triangle with a node that hangs on it, and a node with a self-loop apart from them. -/
def pendant : Graph Nat Unit :=
  (((((Graph.empty.setDirected false).join 10 20).join 20 30).join 30 10).join 30 40).join 50 50

/-- The triangle is closed by a back edge, and so is the self-loop. -/
theorem spans_walk_pendant :
    let o : Observer Nat Unit Unit Unit := .silent
    let es := pendant.events o () .all
    pendant.WellFormed ∧ pendant.reset = pendant ∧ pendant.directed = false ∧
      (∀ i j, pendant.Edge i j → pendant.Edge j i) ∧ o.Patient ∧
      pendant.Spans es (pendant.walk o () .all).graph ∧
      pendant.reports es = [⟨some 0, some 1, .tree⟩, ⟨some 1, some 2, .tree⟩,
        ⟨some 2, some 0, .back⟩, ⟨some 2, some 3, .tree⟩, ⟨some 4, some 4, .back⟩] := by
  intro o es
  have hwell : pendant.WellFormed := by
    have hempty : ((Graph.empty : Graph Nat Unit).setDirected false).WellFormed :=
      WellFormed.empty.setDirected false
    have hjoin {g : Graph Nat Unit} (h : g.WellFormed) (a b : Nat) : (g.join a b).WellFormed :=
      (h.connect a b).connect b a
    exact hjoin (hjoin (hjoin (hjoin (hjoin hempty 10 20) 20 30) 30 10) 30 40) 50 50
  have hfresh : pendant.reset = pendant := by cbv
  have hd : pendant.directed = false := by cbv
  have hcheck : (List.range pendant.size).all fun i =>
      (pendant.successors i).all fun j => (pendant.successors j).contains i := by cbv
  simp only [List.all_eq_true, List.mem_range, List.contains_iff_mem] at hcheck
  have hsymm : ∀ i j, pendant.Edge i j → pendant.Edge j i :=
    fun i j hij => hcheck i hij.source_lt j hij
  have hreports : pendant.reports es = [⟨some 0, some 1, .tree⟩, ⟨some 1, some 2, .tree⟩,
      ⟨some 2, some 0, .back⟩, ⟨some 2, some 3, .tree⟩, ⟨some 4, some 4, .back⟩] := by
    simp only [es]
    cbv
  have hpatient : o.Patient := Observer.patient_silent
  have h := spans_walk hwell hfresh hd hsymm hpatient ()
  exact ⟨hwell, hfresh, hd, hsymm, hpatient, h.2, hreports⟩

end Graph

end Precedence
