import Mathlib
import Precedence.Proofs.Traversal.Acyclic
import Precedence.Proofs.Traversal.Survey

/-!
# The kinds of edges and the forest

The kind of an edge is decided on the spot, from how far the walk has got with its target and from
two readings of the clock. In a directed graph it says, once all walks are over, how the two ends
lie in the forest of parents; and an edge that closes a cycle is reported when there is a cycle.
-/

namespace Precedence

open Relation (ReflTransGen TransGen)

variable {ι α σ ε : Type} [BEq ι] [Hashable ι]

omit [BEq ι] [Hashable ι] in
/-- A change of nodes that leaves all but their payloads alone. -/
structure Node.Edits (f : Node ι α → Node ι α) : Prop where
  id : ∀ n, (f n).id = n.id
  visit : ∀ n, (f n).visit = n.visit
  neighbors : ∀ n, (f n).neighbors = n.neighbors
  parent : ∀ n, (f n).parent = n.parent

/-- Calls that all go through, from the graph `g₀` to the graph `g`, with what they tell of. Between
calls payloads may change. -/
inductive Tour (g₀ : Graph ι α) : List (Event ι α) → Graph ι α → Prop where
  | nil : Tour g₀ [] g₀
  | call {es : List (Event ι α)} {g : Graph ι α} {σ ε : Type} (h : Tour g₀ es g)
      (o : Observer ι α σ ε) (s : σ) (c : Call) (hok : (g.walk o s c).result = .ok ()) :
      Tour g₀ (es ++ g.events o s c) (g.walk o s c).graph
  | edit {es : List (Event ι α)} {g : Graph ι α} (h : Tour g₀ es g) (i : NodeIndex)
      {f : Node ι α → Node ι α} (hf : Node.Edits f) : Tour g₀ es (g.modify i f)

/-! ### Payloads -/

namespace Graph

section
variable {g : Graph ι α} {i : NodeIndex} {f : Node ι α → Node ι α}

variable (hf : Node.Edits f)
include hf

private theorem visit?_edit :
    (g.modify i f).visit? = g.visit? := funext (map_modify Node.visit hf.visit)

private theorem id?_edit : (g.modify i f).id? = g.id? := funext (map_modify Node.id hf.id)

private theorem successors_edit : (g.modify i f).successors = g.successors := by
  funext k
  rw [successors, successors]
  exact congrArg (Option.getD · []) (map_modify Node.neighbors hf.neighbors k)

private theorem parent?_edit : (g.modify i f).parent? = g.parent? := by
  funext k
  rw [parent?, parent?]
  exact congrArg Option.join (map_modify Node.parent hf.parent k)

private theorem grows_edit : g.Grows (g.modify i f) where
  successors_eq := successors_edit hf
  id?_eq := id?_edit hf
  find?_eq := rfl
  directed_eq := rfl
  parent k _ := by rw [parent?_edit hf]
  entrance k t hk := by rwa [entrance?, visit?_edit hf]
  exit k t hk := by rwa [exit?, visit?_edit hf]

end

end Graph

/-- Payloads do not matter to what has been surveyed. -/
theorem Walk.Explored.edit {g₀ g : Graph ι α} {es : List (Event ι α)} {looks : List Look}
    (h : Explored g₀ es g [] looks) (i : NodeIndex) {f : Node ι α → Node ι α}
    (hf : Node.Edits f) : Explored g₀ es (g.modify i f) [] looks := by
  have hgrows : g.Grows (g.modify i f) := Graph.grows_edit hf
  have hvisit : (g.modify i f).visit? = g.visit? := Graph.visit?_edit hf
  have hparent : (g.modify i f).parent? = g.parent? := Graph.parent?_edit hf
  refine ⟨h.grows.trans hgrows, ⟨steady_nil _, h.rooted.nested.congr hvisit hparent, ?_, ?_, ?_, ?_⟩,
    ⟨?_, ?_, ?_⟩, h.judged.grow h.rooted.nested hgrows ?_, h.reports_eq⟩
  · intro k hk
    rw [Graph.IsOpen, hvisit] at hk
    exact h.rooted.mem_of_isOpen k hk
  · simp [trail]
  · intro k t hk
    rw [Graph.entrance?, hvisit] at hk
    exact h.rooted.entrance_lt_clock k t hk
  · intro k t hk
    rw [Graph.exit?, hvisit] at hk
    exact h.rooted.exit_lt_clock k t hk
  · simp
  · intro k hk
    rw [Graph.IsFinished, Graph.exit?, hvisit] at hk
    rw [hgrows.successors_eq]
    exact h.accounted.finished k hk
  · intro k hk
    rw [Graph.IsEntered, hvisit] at hk
    exact h.accounted.untouched k hk
  · intro k l hkl
    rwa [hparent] at hkl

/-- A tour of a graph that no walk has marked leaves everything surveyed. -/
theorem Tour.explored [EquivBEq ι] {g₀ g : Graph ι α} {es : List (Event ι α)}
    (h : Tour g₀ es g) (hg₀ : g₀.WellFormed) (hfresh : g₀.reset = g₀) :
    ∃ looks, Walk.Explored g₀ es g [] looks := by
  induction h with
  | nil =>
    have huntouched : g₀.Untouched := hfresh ▸ g₀.untouched_reset
    have hparent : ∀ i, g₀.parent? i = none := by
      intro i
      rw [← hfresh]
      exact g₀.parent?_reset i
    exact ⟨[], .of_unmarked huntouched hparent⟩
  | call _ o s c hok ih =>
    refine Graph.walk_of_ensures (I := fun es g => ∃ looks, Walk.Explored g₀ es g [] looks)
      ?_ ih o s c hok
    rintro es g start ⟨looks, he⟩
    exact Graph.explores_scriptFrom hg₀ he start
  | edit _ i hf ih =>
    obtain ⟨looks, he⟩ := ih
    exact ⟨looks, he.edit i hf⟩

/-! ### Kinds and the forest -/

/-- How the ends of an edge of each kind lie in the forest of parents. -/
def EdgeKind.Describes (g : Graph ι α) (i j : NodeIndex) : EdgeKind → Prop
  | .tree => g.parent? j = some i
  | .back => g.Descends i j
  | .forward => j ≠ i ∧ g.Descends j i ∧ g.parent? j ≠ some i
  | .cross => ¬ g.Descends i j ∧ ¬ g.Descends j i

/-- In a nested graph no two kinds describe one edge. -/
theorem EdgeKind.Describes.unique {g : Graph ι α} (hg : g.Nested) {i j : NodeIndex}
    {kind kind' : EdgeKind} (h : kind.Describes g i j) (h' : kind'.Describes g i j) :
    kind = kind' := by
  have hdown : g.parent? j = some i → g.Descends j i := fun hparent => ReflTransGen.single hparent
  have hup : g.parent? j = some i → ¬ g.Descends i j := by
    intro hparent hd
    have helder := hg.parent_elder i j hparent
    exact helder.asymm (hg.elder_of_descends hd helder.ne.symm)
  have hone : g.Descends j i → g.Descends i j → j = i := hg.descends_antisymm
  cases kind <;> cases kind' <;> grind [Describes]

namespace Walk.Explored

variable {g₀ g : Graph ι α} {es : List (Event ι α)} {looks : List Look} {i j : NodeIndex}
  (h : Explored g₀ es g [] looks)
include h

private theorem describes_of_mem {kind : EdgeKind} (hlook : ⟨i, j, some kind⟩ ∈ looks) :
    kind.Describes g i j := by
  have hfits := h.judged.fits _ hlook
  cases kind with
  | tree => exact hfits
  | back => exact hfits.1
  | forward => exact hfits.2
  | cross =>
    exact ⟨h.rooted.nested.not_descends_of_precedes hfits.2,
      h.rooted.nested.not_ancestor_of_precedes hfits.2⟩

private theorem exists_kind (hd : g₀.directed = true) (hi : g.IsEntered i) (hij : g₀.Edge i j) :
    ∃ kind, ⟨i, j, some kind⟩ ∈ looks := by
  obtain ⟨kind, hlook⟩ := h.exists_look hi hij
  cases kind with
  | none =>
    obtain ⟨hundirected, -⟩ := h.judged.fits _ hlook
    rw [h.grows.directed_eq, hd] at hundirected
    cases hundirected
  | some kind => exact ⟨kind, hlook⟩

private theorem mem_reports_iff_describes (hd : g₀.directed = true) (hi : g.IsEntered i)
    (hij : g₀.Edge i j) (kind : EdgeKind) :
    ⟨some i, some j, kind⟩ ∈ g₀.reports es ↔ kind.Describes g i j := by
  rw [h.mem_reports_iff]
  constructor
  · exact h.describes_of_mem
  · intro hkind
    obtain ⟨kind', hlook⟩ := h.exists_kind hd hi hij
    rwa [hkind.unique h.rooted.nested (h.describes_of_mem hlook)]

private theorem settled_of_no_back (hd : g₀.directed = true)
    (hback : ∀ i j, ⟨some i, some j, .back⟩ ∉ g₀.reports es) : g.Settled := by
  have hnested := h.rooted.nested
  intro i j hij t ht
  rw [h.grows.edge_eq] at hij
  obtain ⟨kind, hlook⟩ := h.exists_kind hd (Graph.IsFinished.isEntered ⟨t, ht⟩) hij
  have hkind := h.judged.fits _ hlook
  cases kind with
  | tree => exact hnested.parent_exit i j t hkind ht
  | back => exact absurd (h.mem_reports_iff.mpr hlook) (hback i j)
  | forward => exact hnested.exit_lt_of_descends hkind.2.2.1 hkind.2.1 ht
  | cross =>
    obtain ⟨u, -, hu, -⟩ := hkind.2
    exact ⟨u, hu, hnested.exit_lt_of_precedes hkind.2 hu ht⟩

/-- When every node has been entered, an edge is reported to close a cycle exactly if there is a
cycle. -/
theorem exists_back_iff (hd : g₀.directed = true) (hall : ∀ i < g₀.size, g.IsEntered i) :
    (∃ r ∈ g₀.reports es, r.kind = .back) ↔ ∃ i, TransGen g₀.Edge i i := by
  constructor
  · rintro ⟨r, hr, hback⟩
    obtain ⟨i, j, hrij, hij, -⟩ := h.exists_of_mem_reports hr
    rw [hback] at hrij
    rw [hrij] at hr
    have hdescends := h.describes_of_mem (h.mem_reports_iff.mp hr)
    exact ⟨i, .head' hij (h.reaches_of_descends hdescends)⟩
  · rintro ⟨i, hcycle⟩
    by_contra hnone
    have hback : ∀ i j, ⟨some i, some j, .back⟩ ∉ g₀.reports es :=
      fun _ _ hr => hnone ⟨_, hr, rfl⟩
    have hsettled := h.settled_of_no_back hd hback
    obtain ⟨j, hij, -⟩ := TransGen.head'_iff.mp hcycle
    have hfinished := h.isFinished (hall i hij.source_lt)
    rw [← h.grows.edge_eq] at hcycle
    exact hsettled.not_transGen_self hfinished hcycle

end Walk.Explored

namespace Graph

/-- The reports of all walks so far, from the graph `g₀` to the graph `g`, sort the edges of the
nodes that have been entered by the forest that the walks have left. -/
structure Classified (g₀ : Graph ι α) (es : List (Event ι α)) (g : Graph ι α) : Prop where
  once : ∀ i j, g₀.Edge i j → g.IsEntered i → g₀.timesReported es i j = 1
  describes : ∀ i j kind, g₀.Edge i j → g.IsEntered i →
    (⟨some i, some j, kind⟩ ∈ g₀.reports es ↔ kind.Describes g i j)
  /-- The target of a cross edge was left before its source was entered. -/
  precedes : ∀ i j, ⟨some i, some j, .cross⟩ ∈ g₀.reports es →
    ∃ t u, g.exit? j = some t ∧ g.entrance? i = some u ∧ t < u
  /-- Nothing else is reported. -/
  only : ∀ r ∈ g₀.reports es,
    ∃ i j, r = ⟨some i, some j, r.kind⟩ ∧ g₀.Edge i j ∧ g.IsEntered i

/-- In a directed graph without marks, calls that all go through report each edge of the nodes that
they enter once, with the kind that describes how its ends lie in the forest; and a walk from every
node reports an edge that closes a cycle exactly if there is a cycle. -/
theorem classified_of_tour [EquivBEq ι] {g₀ g : Graph ι α} {es : List (Event ι α)}
    (hg₀ : g₀.WellFormed) (hfresh : g₀.reset = g₀) (hd : g₀.directed = true)
    (ht : Tour g₀ es g) :
    g₀.Classified es g ∧
      ∀ {σ ε : Type} (o : Observer ι α σ ε) (s : σ), (g₀.walk o s .all).result = .ok () →
        ((∃ r ∈ g₀.reports (g₀.events o s .all), r.kind = .back) ↔
          ∃ i, TransGen g₀.Edge i i) := by
  constructor
  · obtain ⟨looks, h⟩ := ht.explored hg₀ hfresh
    refine ⟨?_, fun i j kind hij hi => h.mem_reports_iff_describes hd hi hij kind, ?_,
      fun r hr => h.exists_of_mem_reports hr⟩
    · intro i j hij hi
      obtain ⟨kind, hlook⟩ := h.exists_kind hd hi hij
      rw [h.timesReported_of_mem hg₀ hlook]
      rfl
    · intro i j hr
      exact (h.judged.fits _ (h.mem_reports_iff.mp hr)).2
  · intro σ ε o s hok
    obtain ⟨looks, h⟩ := (Tour.nil.call o s .all hok).explored hg₀ hfresh
    refine h.exists_back_iff hd ?_
    intro i hi
    rw [walk_eq_walkEach] at hok ⊢
    exact isEntered_walkEach hok (.inr (List.mem_range.mpr hi))

/-- A graph with a cycle, a shortcut into it, and a node that no other node leads to. -/
def shortcut : Graph Nat Unit :=
  (((((Graph.empty.connect 10 20).1.connect 20 30).1.connect 10 30).1.connect 30 20).1.connect
    40 10).1

/-- A node is walked first, a payload is set, and then all nodes are walked. Edges of all four kinds
are reported, the last of them across the trees of the two calls, and one closes a cycle. -/
theorem classified_of_tour_shortcut :
    let o : Observer Nat Unit Unit Unit := .silent
    let g := (shortcut.walk o () (.node 0)).graph.modify 1 (·.withPayload ())
    let es := shortcut.events o () (.node 0) ++ g.events o () .all
    shortcut.WellFormed ∧ shortcut.reset = shortcut ∧ shortcut.directed = true ∧
      Tour shortcut es (g.walk o () .all).graph ∧
      shortcut.Classified es (g.walk o () .all).graph ∧
      shortcut.reports es = [⟨some 0, some 1, .tree⟩, ⟨some 1, some 2, .tree⟩,
        ⟨some 2, some 1, .back⟩, ⟨some 0, some 2, .forward⟩, ⟨some 3, some 0, .cross⟩] ∧
      ∃ i, TransGen shortcut.Edge i i := by
  intro o g es
  have hwell : shortcut.WellFormed :=
    ((((WellFormed.empty.connect 10 20).connect 20 30).connect 10 30).connect 30 20).connect 40 10
  have hfresh : shortcut.reset = shortcut := by cbv
  have hd : shortcut.directed = true := by cbv
  have hedits : Node.Edits fun n : Node Nat Unit => n.withPayload () :=
    ⟨fun _ => rfl, fun _ => rfl, fun _ => rfl, fun _ => rfl⟩
  have hfirst : (shortcut.walk o () (.node 0)).result = .ok () := by cbv
  have hlast : (g.walk o () .all).result = .ok () := by cbv
  have hall : (shortcut.walk o () .all).result = .ok () := by cbv
  have htour : Tour shortcut es (g.walk o () .all).graph :=
    ((Tour.nil.call o () (.node 0) hfirst).edit 1 hedits).call o () .all hlast
  have h := classified_of_tour hwell hfresh hd htour
  have hreports : shortcut.reports (shortcut.events o () .all) = [⟨some 0, some 1, .tree⟩,
      ⟨some 1, some 2, .tree⟩, ⟨some 2, some 1, .back⟩, ⟨some 0, some 2, .forward⟩,
      ⟨some 3, some 0, .cross⟩] := by cbv
  have hback : ∃ r ∈ shortcut.reports (shortcut.events o () .all), r.kind = .back := by
    rw [hreports]
    exact ⟨⟨some 2, some 1, .back⟩, by simp, rfl⟩
  have hes : shortcut.reports es = [⟨some 0, some 1, .tree⟩, ⟨some 1, some 2, .tree⟩,
      ⟨some 2, some 1, .back⟩, ⟨some 0, some 2, .forward⟩, ⟨some 3, some 0, .cross⟩] := by
    simp only [es, g]
    cbv
  exact ⟨hwell, hfresh, hd, htour, h.1, hes, (h.2 o () hall).mp hback⟩

end Graph

end Precedence
