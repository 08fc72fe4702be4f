import Precedence.Proofs.Graph.WellFormed
import Precedence.Proofs.Traversal.Look
import Precedence.Proofs.Traversal.Reading

/-!
# What walks have looked at

A walk looks once at every edge out of every node that it enters. Three things are kept from step to
step and from walk to walk: which edges have been looked at and which are pending, that each of them
is of its kind for a reason, and that the edges told are those looked at, but for those passed over.
-/

namespace Precedence

variable {ι α : Type} [BEq ι] [Hashable ι]

namespace Walk

/-! ### Every edge once -/

open Look (targets)

/-- Every edge out of a node that has been entered has been looked at or is still pending, and no
other edge has been looked at. -/
structure Accounted (g : Graph ι α) (path : List Frame) (looks : List Look) : Prop where
  pending : ∀ f ∈ path, targets looks f.index ++ f.pending = g.successors f.index
  finished : ∀ i, g.IsFinished i → targets looks i = g.successors i
  untouched : ∀ i, ¬ g.IsEntered i → targets looks i = []

section
variable {g : Graph ι α} {i j : NodeIndex} {pending : List NodeIndex} {path : List Frame}
  {looks : List Look} {n target : Node ι α}

/-- The next edge of the innermost node may be looked at. -/
theorem Accounted.look (h : Accounted g (⟨i, j :: pending⟩ :: path) looks)
    (hs : Steady g (⟨i, j :: pending⟩ :: path)) (kind : Option EdgeKind) :
    Accounted g (⟨i, pending⟩ :: path) (looks ++ [⟨i, j, kind⟩]) := by
  have ho : g.IsOpen i := hs.isOpen i (head_mem_trail ..)
  obtain ⟨hnot, -⟩ := List.nodup_cons.mp hs.nodup
  constructor
  · intro f hf
    rw [Look.targets_concat]
    rcases List.mem_cons.mp hf with rfl | hf
    · have hi := h.pending ⟨i, j :: pending⟩ (by simp)
      simpa using hi
    · have hmem : f.index ∈ trail path := List.mem_map_of_mem hf
      have hif : i ≠ f.index := fun hif => hnot (hif ▸ hmem)
      rw [if_neg hif]
      exact h.pending f (List.mem_cons_of_mem _ hf)
  · intro k hk
    have hik : i ≠ k := by
      rintro rfl
      exact hk.not_isOpen ho
    rw [Look.targets_concat, if_neg hik]
    exact h.finished k hk
  · intro k hk
    have hik : i ≠ k := by
      rintro rfl
      exact hk ho.isEntered
    rw [Look.targets_concat, if_neg hik]
    exact h.untouched k hk

/-- A new node may be entered. -/
theorem Accounted.enter {t : Nat} (h : Accounted g path looks) (hj : g.nodes[j]? = some target)
    (hv : target.visit = .undiscovered) (hn : n.unvisited = target.unvisited)
    (hvisit : n.visit = .discovered t) :
    Accounted (g.stamp j n) (⟨j, target.neighbors⟩ :: path) looks := by
  have hgrows := Graph.grows_enter hj hv hn hvisit
  constructor
  · intro f hf
    rw [hgrows.successors_eq]
    rcases List.mem_cons.mp hf with rfl | hf
    · rw [h.untouched j (Graph.not_isEntered_of_node hj hv), Graph.successors_of_node hj]
      rfl
    · exact h.pending f hf
  · intro k hk
    rw [hgrows.successors_eq]
    apply h.finished k
    rwa [Graph.IsFinished, Graph.exit?_enter hj hv hvisit] at hk
  · intro k hk
    exact h.untouched k fun hentered => hk (hgrows.isEntered hentered)

/-- The innermost node may be left when none of its edges is pending. -/
theorem Accounted.leave (h : Accounted g (⟨i, []⟩ :: path) looks) (hi : g.nodes[i]? = some n)
    (ho : g.IsOpen i) : Accounted (g.stamp i (n.leave g.clock)) path looks := by
  have hgrows := Graph.grows_leave hi ho
  constructor
  · intro f hf
    rw [hgrows.successors_eq]
    exact h.pending f (List.mem_cons_of_mem _ hf)
  · intro k hk
    rw [hgrows.successors_eq]
    by_cases hik : i = k
    · subst hik
      simpa using h.pending ⟨i, []⟩ (by simp)
    · obtain ⟨u, hu⟩ := hk
      rw [Graph.exit?_leave hi ho, if_neg hik] at hu
      exact h.finished k ⟨u, hu⟩
  · intro k hk
    exact h.untouched k fun hentered => hk (hgrows.isEntered hentered)

/-! ### The reasons -/

/-- Every edge that has been looked at is of its kind for a reason, and every parent is a tree
edge. -/
structure Judged (g : Graph ι α) (looks : List Look) : Prop where
  entered : ∀ look ∈ looks, g.IsEntered look.source ∧ g.IsEntered look.target
  fits : ∀ look ∈ looks, look.Fits g
  adopted : ∀ i j, g.parent? j = some i → ⟨i, j, some .tree⟩ ∈ looks

private theorem Judged.extend {g' : Graph ι α} {more : List Look} (h : Judged g looks)
    (hg : g.Nested)
    (hgrows : g.Grows g')
    (hmore : ∀ look ∈ more, (g'.IsEntered look.source ∧ g'.IsEntered look.target) ∧ look.Fits g')
    (hparent : ∀ i j, g'.parent? j = some i →
      g.parent? j = some i ∨ ⟨i, j, some .tree⟩ ∈ more) : Judged g' (looks ++ more) := by
  constructor
  · intro look hlook
    rcases List.mem_append.mp hlook with hlook | hlook
    · exact (h.entered look hlook).imp hgrows.isEntered hgrows.isEntered
    · exact (hmore look hlook).1
  · intro look hlook
    rcases List.mem_append.mp hlook with hlook | hlook
    · obtain ⟨hsource, htarget⟩ := h.entered look hlook
      exact (h.fits look hlook).grow hg hgrows hsource htarget
    · exact (hmore look hlook).2
  · intro k l hkl
    apply List.mem_append.mpr
    exact (hparent k l hkl).imp_left (h.adopted k l)

private theorem Judged.look {kind : Option EdgeKind} (h : Judged g looks) (hg : g.Nested)
    (hi : g.IsEntered i) (hj : g.IsEntered j) (hfits : Look.Fits g ⟨i, j, kind⟩) :
    Judged g (looks ++ [⟨i, j, kind⟩]) := by
  apply h.extend hg (.refl g)
  · intro look hlook
    rw [List.mem_singleton.mp hlook]
    exact ⟨⟨hi, hj⟩, hfits⟩
  · intro k l hkl
    exact .inl hkl

/-- Reasons hold while marks grow, as long as no node gets a parent. -/
theorem Judged.grow {g' : Graph ι α} (h : Judged g looks) (hg : g.Nested) (hgrows : g.Grows g')
    (hparent : ∀ i j, g'.parent? j = some i → g.parent? j = some i) : Judged g' looks := by
  rw [← List.append_nil looks]
  apply h.extend hg hgrows
  · simp
  · intro k l hkl
    exact .inl (hparent k l hkl)

private theorem Judged.descend {t : Nat} (h : Judged g looks) (hg : g.Nested) (hi : g.IsEntered i)
    (hj : g.nodes[j]? = some target) (hv : target.visit = .undiscovered)
    (hn : n.unvisited = target.unvisited) (hvisit : n.visit = .discovered t)
    (hparent : n.parent = some i) :
    Judged (g.stamp j n) (looks ++ [⟨i, j, some .tree⟩]) := by
  have hgrows := Graph.grows_enter hj hv hn hvisit
  have hself : (g.stamp j n).parent? j = some i := by
    rw [Graph.parent?_stamp hj, if_pos rfl, hparent]
  have hopen : (g.stamp j n).IsOpen j := .enter hj hvisit (.inl rfl)
  apply h.extend hg hgrows
  · intro look hlook
    rw [List.mem_singleton.mp hlook]
    exact ⟨⟨hgrows.isEntered hi, hopen.isEntered⟩, hself⟩
  · intro k l hkl
    by_cases hjl : j = l
    · subst hjl
      rw [hself] at hkl
      cases hkl
      exact .inr List.mem_cons_self
    · rw [Graph.parent?_stamp hj, if_neg hjl] at hkl
      exact .inl hkl

end

/-! ### The whole survey -/

/-- What has come of walks that began with the graph `g₀` and told some events: the graph `g`, a
path, and the edges that have been looked at. -/
structure Explored (g₀ : Graph ι α) (es : List (Event ι α)) (g : Graph ι α) (path : List Frame)
    (looks : List Look) : Prop where
  grows : g₀.Grows g
  rooted : Rooted g path
  accounted : Accounted g path looks
  judged : Judged g looks
  /-- The edges told are those looked at, but for those passed over. -/
  reports_eq : g₀.reports es = looks.filterMap Look.report?

omit [BEq ι] [Hashable ι] in
private theorem filterMap_concat {β γ : Type} (f : β → Option γ) (xs : List β) (x : β) :
    (xs ++ [x]).filterMap f = xs.filterMap f ++ (f x).toList := by
  cases h : f x <;> simp [h]

namespace Explored

variable {g₀ g : Graph ι α} {es : List (Event ι α)} {i j : NodeIndex}
  {pending : List NodeIndex} {path : List Frame} {looks : List Look} {source target n : Node ι α}

/-- A graph that no walk has marked is surveyed before the first walk. -/
theorem of_unmarked (hv : g.Untouched) (hp : ∀ i, g.parent? i = none) :
    Explored g [] g [] [] where
  grows := .refl g
  rooted := rooted_of_unmarked hv hp
  accounted := ⟨by simp, fun i ⟨t, ht⟩ => by simp [hv.exit?_eq_none] at ht, fun _ _ => rfl⟩
  judged := ⟨by simp, by simp, fun i j hij => by simp [hp] at hij⟩
  reports_eq := rfl

private theorem find?_eq [EquivBEq ι] (h : Explored g₀ es g path looks) (hg₀ : g₀.WellFormed)
    (hi : g.nodes[i]? = some n) : g₀.find? n.id = some i := by
  apply hg₀.indexed.find?_of_id?
  rw [← h.grows.id?_eq, Graph.id?_of_node hi]

private theorem parent?_ne (h : Explored g₀ es g (⟨i, j :: pending⟩ :: path) looks)
    (hg₀ : g₀.WellFormed) : g.parent? j ≠ some i := by
  intro hij
  have hmem : j ∈ targets looks i := Look.mem_targets_iff.mpr ⟨_, h.judged.adopted i j hij⟩
  have hall : targets looks i ++ j :: pending = g.successors i :=
    h.accounted.pending ⟨i, j :: pending⟩ (by simp)
  have hnodup := hg₀.nodup i
  rw [← h.grows.successors_eq, ← hall] at hnodup
  exact (List.nodup_append.mp hnodup).2.2 j hmem j (by simp) rfl

/-- The next edge may be looked at when its target is known. -/
theorem look (h : Explored g₀ es g (⟨i, j :: pending⟩ :: path) looks) (hg₀ : g₀.WellFormed)
    (hi : g.nodes[i]? = some source) (hj : g.nodes[j]? = some target)
    (hv : target.visit ≠ .undiscovered) {kind : Option EdgeKind}
    (hk : EdgeKind.between g.directed source j target = kind) {es' : List (Event ι α)}
    (hes : g₀.reports es' = g₀.reports es ++ (Look.report? ⟨i, j, kind⟩).toList) :
    Explored g₀ es' g (⟨i, pending⟩ :: path) (looks ++ [⟨i, j, kind⟩]) := by
  have hrooted := h.rooted.advance
  have hfits := hrooted.fits hi hj hv (h.parent?_ne hg₀)
  rw [hk] at hfits
  have hientered : g.IsEntered i := (h.rooted.isOpen i (head_mem_trail ..)).isEntered
  have hjentered : g.IsEntered j := ⟨target.visit, Graph.visit?_of_node hj, hv⟩
  refine ⟨h.grows, hrooted, h.accounted.look h.rooted.toSteady kind,
    h.judged.look h.rooted.nested hientered hjentered hfits, ?_⟩
  rw [hes, h.reports_eq, filterMap_concat]

/-- A new node may be entered as the first of all. -/
theorem start (h : Explored g₀ es g [] looks) (hj : g.nodes[j]? = some n)
    (hv : n.visit = .undiscovered) :
    Explored g₀ (es ++ [.enter j (n.enter g.clock)]) (g.stamp j (n.enter g.clock))
      [⟨j, n.neighbors⟩] looks := by
  have hgrows := Graph.grows_enter (n := n.enter g.clock) hj hv rfl rfl
  have hparent : n.parent = none := h.rooted.parent?_of_new hj hv
  refine ⟨h.grows.trans hgrows, h.rooted.push hj hv rfl rfl hparent (by simp),
    h.accounted.enter hj hv rfl rfl, h.judged.grow h.rooted.nested hgrows ?_, ?_⟩
  · intro k l hkl
    by_cases hjl : j = l
    · subst hjl
      rw [Graph.parent?_stamp hj, if_pos rfl] at hkl
      rw [Graph.parent?_of_node hj]
      exact hkl
    · rwa [Graph.parent?_stamp hj, if_neg hjl] at hkl
  · rw [Graph.reports, filterMap_concat, ← Graph.reports, h.reports_eq]
    simp [Graph.report?]

/-- A new node may be entered by a tree edge. -/
theorem descend [EquivBEq ι] (h : Explored g₀ es g (⟨i, j :: pending⟩ :: path) looks)
    (hg₀ : g₀.WellFormed) (hi : g.nodes[i]? = some source) (hj : g.nodes[j]? = some target)
    (hv : target.visit = .undiscovered) :
    Explored g₀ (es ++ [.edge source { target with parent := some i } .tree] ++
        [.enter j ({ target with parent := some i }.enter g.clock)])
      (g.stamp j ({ target with parent := some i }.enter g.clock))
      (⟨j, target.neighbors⟩ :: ⟨i, pending⟩ :: path) (looks ++ [⟨i, j, some .tree⟩]) := by
  have hgrows := Graph.grows_enter (n := { target with parent := some i }.enter g.clock)
    hj hv rfl rfl
  have hientered : g.IsEntered i := (h.rooted.isOpen i (head_mem_trail ..)).isEntered
  refine ⟨h.grows.trans hgrows, h.rooted.advance.push hj hv rfl rfl rfl h.rooted.edge_head,
    (h.accounted.look h.rooted.toSteady _).enter hj hv rfl rfl,
    h.judged.descend h.rooted.nested hientered hj hv rfl rfl rfl, ?_⟩
  have hsource := h.find?_eq hg₀ hi
  have htarget := h.find?_eq hg₀ hj
  rw [Graph.reports, filterMap_concat, filterMap_concat, ← Graph.reports, h.reports_eq,
    filterMap_concat]
  simp [Graph.report?, Look.report?, hsource, htarget]

/-- The innermost node may be left when none of its edges is pending. -/
theorem leave (h : Explored g₀ es g (⟨i, []⟩ :: path) looks) (hi : g.nodes[i]? = some n) :
    Explored g₀ (es ++ [.leave i (n.leave g.clock)]) (g.stamp i (n.leave g.clock)) path looks := by
  have ho : g.IsOpen i := h.rooted.isOpen i (head_mem_trail ..)
  have hgrows := Graph.grows_leave hi ho
  refine ⟨h.grows.trans hgrows, h.rooted.pop hi, h.accounted.leave hi ho,
    h.judged.grow h.rooted.nested hgrows ?_, ?_⟩
  · intro k l hkl
    rwa [Graph.parent?_leave hi] at hkl
  · rw [Graph.reports, filterMap_concat, ← Graph.reports, h.reports_eq]
    simp [Graph.report?]

/-! ### What has been told in the end -/

section
variable (h : Explored g₀ es g [] looks)
include h

/-- Where no walk is under way, who has been entered has been left. -/
theorem isFinished (hi : g.IsEntered i) : g.IsFinished i :=
  (h.rooted.mem_or_isFinished hi).resolve_left (by simp [trail])

/-- Every edge out of a node that has been entered has been looked at. -/
theorem exists_look (hi : g.IsEntered i) (hij : g₀.Edge i j) : ∃ kind, ⟨i, j, kind⟩ ∈ looks := by
  rw [← Look.mem_targets_iff, h.accounted.finished i (h.isFinished hi), h.grows.successors_eq]
  exact hij

/-- Only edges have been looked at. -/
theorem edge_of_mem {kind : Option EdgeKind} (hlook : ⟨i, j, kind⟩ ∈ looks) : g₀.Edge i j := by
  have hi := (h.judged.entered _ hlook).1
  have hj := Look.mem_targets_iff.mpr ⟨kind, hlook⟩
  rw [h.accounted.finished i (h.isFinished hi), h.grows.successors_eq] at hj
  exact hj

/-- A parent has an edge to its child. -/
theorem edge_of_parent (hij : g.parent? j = some i) : g₀.Edge i j :=
  h.edge_of_mem (h.judged.adopted i j hij)

/-- A node is reached along edges from all nodes it descends from. -/
theorem reaches_of_descends (hji : g.Descends j i) : Relation.ReflTransGen g₀.Edge i j :=
  hji.reaches fun _ _ hparent => h.edge_of_parent hparent

/-- The edges that are reported are those that have been looked at and not passed over. -/
theorem mem_reports_iff {kind : EdgeKind} :
    ⟨some i, some j, kind⟩ ∈ g₀.reports es ↔ ⟨i, j, some kind⟩ ∈ looks := by
  rw [h.reports_eq, List.mem_filterMap]
  constructor
  · rintro ⟨⟨k, l, kind'⟩, hlook, hreport⟩
    obtain ⟨kind'', rfl, hreport⟩ := Option.map_eq_some_iff.mp hreport
    cases hreport
    exact hlook
  · intro hlook
    exact ⟨_, hlook, rfl⟩

/-- Every report is of an edge. -/
theorem exists_of_mem_reports {r : EdgeReport} (hr : r ∈ g₀.reports es) :
    ∃ i j, r = ⟨some i, some j, r.kind⟩ ∧ g₀.Edge i j ∧ g.IsEntered i := by
  rw [h.reports_eq, List.mem_filterMap] at hr
  obtain ⟨⟨i, j, kind⟩, hlook, hreport⟩ := hr
  obtain ⟨kind', rfl, rfl⟩ := Option.map_eq_some_iff.mp hreport
  exact ⟨i, j, rfl, h.edge_of_mem hlook, (h.judged.entered _ hlook).1⟩

end

/-- An edge is reported once if it was not passed over when it was looked at, and else never. -/
theorem timesReported_of_mem (h : Explored g₀ es g [] looks) (hg₀ : g₀.WellFormed)
    {kind : Option EdgeKind} (hlook : ⟨i, j, kind⟩ ∈ looks) :
    g₀.timesReported es i j = if kind.isSome then 1 else 0 := by
  have hi := (h.judged.entered _ hlook).1
  have hnodup : (targets looks i).Nodup := by
    rw [h.accounted.finished i (h.isFinished hi), h.grows.successors_eq]
    exact hg₀.nodup i
  rw [Graph.timesReported, h.reports_eq]
  exact Look.countP_reports hnodup hlook

end Explored

/-- A walk that goes through leaves everything surveyed. -/
theorem Ahead.explores [EquivBEq ι] {g₀ g : Graph ι α} {es : List (Event ι α)}
    {path : List Frame} {looks : List Look} {script : Script ι α} (h : Ahead g path script)
    (hg₀ : g₀.WellFormed) (he : Explored g₀ es g path looks) :
    script.Ensures (fun _ _ _ => True)
      (fun es g fault => fault = none → ∃ looks, Explored g₀ es g [] looks) es := by
  induction h generalizing es looks with
  | ended => exact fun _ => ⟨looks, he⟩
  | lost hi =>
    intro hfault
    cases hfault
  | dangling hi hj =>
    intro hfault
    cases hfault
  | leave hi _ ih => exact ⟨trivial, ih (he.leave hi)⟩
  | pass hi hj hk _ ih =>
    have hv := mt (EdgeKind.between_eq_tree_iff ..).mpr (by rw [hk]; simp)
    exact ih (he.look hg₀ hi hj hv hk (by simp [Look.report?]))
  | @report g i j pending path source target kind rest hi hj hk ht _ ih =>
    have hv := mt (EdgeKind.between_eq_tree_iff ..).mpr (by rw [hk]; simpa using ht)
    refine ⟨trivial, ih (he.look hg₀ hi hj hv hk ?_)⟩
    have hsource := he.find?_eq hg₀ hi
    have htarget := he.find?_eq hg₀ hj
    rw [Graph.reports, filterMap_concat, ← Graph.reports]
    simp [Graph.report?, Look.report?, hsource, htarget]
  | descend hi hj hv _ ih => exact ⟨trivial, trivial, ih (he.descend hg₀ hi hj hv)⟩

end Walk

namespace Graph

/-- A walk from a start that goes through leaves everything surveyed. -/
theorem explores_scriptFrom [EquivBEq ι] {g₀ g : Graph ι α} {es : List (Event ι α)}
    {looks : List Look} (hg₀ : g₀.WellFormed) (he : Walk.Explored g₀ es g [] looks)
    (start : NodeIndex) :
    (g.scriptFrom start).Ensures (fun _ _ _ => True)
      (fun es g fault => fault = none → ∃ looks, Walk.Explored g₀ es g [] looks) es := by
  have hb := g.begins_scriptFrom start
  generalize g.scriptFrom start = script at hb
  cases hb with
  | lost hi =>
    intro hfault
    cases hfault
  | known hi hv => exact fun _ => ⟨looks, he⟩
  | new hi hv h => exact ⟨trivial, h.explores hg₀ (he.start hi hv)⟩

end Graph

end Precedence
