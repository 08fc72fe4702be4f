import Precedence.Proofs.Traversal.Nesting
import Precedence.Traversal.Call

/-!
# Looks at edges

When a walk looks at an edge, it finds a tree edge, a back edge, a forward edge, a cross edge or an
edge to be passed over. It tells these apart by the visits of the two ends; the reasons are given by
the forest of parents, and since the forest only grows they hold for good.
-/

namespace Precedence

variable {ι α : Type} [BEq ι] [Hashable ι]

/-- An edge that has been looked at, with its kind unless it was passed over. -/
structure Look where
  source : NodeIndex
  target : NodeIndex
  kind : Option EdgeKind

namespace Look

/-- The report of an edge that was not passed over. -/
def report? (look : Look) : Option EdgeReport :=
  look.kind.map fun kind => ⟨some look.source, some look.target, kind⟩

/-- The forest gives the reason for the kind of an edge. -/
def Fits (g : Graph ι α) (look : Look) : Prop :=
  match look.kind with
  | some .tree => g.parent? look.target = some look.source
  | some .back =>
    g.Descends look.source look.target ∧
      (g.directed = true ∨ g.parent? look.source ≠ some look.target)
  | some .forward => g.directed = true ∧ g.Overleaps look.source look.target
  | some .cross => g.directed = true ∧ g.Precedes look.target look.source
  | none =>
    g.directed = false ∧ (g.parent? look.source = some look.target ∨
      g.Overleaps look.source look.target ∨ g.Precedes look.target look.source)

/-- The targets of the edges out of a node that have been looked at, in order. -/
def targets (looks : List Look) (i : NodeIndex) : List NodeIndex :=
  (looks.filter (·.source == i)).map Look.target

theorem targets_concat (looks : List Look) (look : Look) (i : NodeIndex) :
    targets (looks ++ [look]) i =
      if look.source = i then targets looks i ++ [look.target] else targets looks i := by
  by_cases h : look.source = i <;> simp [targets, List.filter_append, h]

theorem mem_targets_iff {looks : List Look} {i j : NodeIndex} :
    j ∈ targets looks i ↔ ∃ kind, ⟨i, j, kind⟩ ∈ looks := by
  simp only [targets, List.mem_map, List.mem_filter, beq_iff_eq]
  constructor
  · rintro ⟨⟨_, _, kind⟩, ⟨hlook, rfl⟩, rfl⟩
    exact ⟨kind, hlook⟩
  · rintro ⟨kind, hlook⟩
    exact ⟨_, ⟨hlook, rfl⟩, rfl⟩

/-- How often an edge has been looked at can be told from the targets of its source. -/
theorem countP_eq_count (looks : List Look) (i j : NodeIndex) :
    looks.countP (fun look => look.source == i && look.target == j) =
      (targets looks i).count j := by
  rw [targets, List.count, List.countP_map, List.countP_filter]
  apply List.countP_congr
  intro look _
  simp [and_comm]

private theorem countP_reports_of_not_mem {looks : List Look} {i j : NodeIndex}
    (h : j ∉ targets looks i) : (looks.filterMap report?).countP (·.joins i j) = 0 := by
  rw [List.countP_eq_zero]
  intro r hr hjoins
  obtain ⟨⟨k, l, kind⟩, hlook, hreport⟩ := List.mem_filterMap.mp hr
  obtain ⟨kind', rfl, rfl⟩ := Option.map_eq_some_iff.mp hreport
  simp only [EdgeReport.joins, Bool.and_eq_true, beq_iff_eq, Option.some.injEq] at hjoins
  obtain ⟨rfl, rfl⟩ := hjoins
  exact h (mem_targets_iff.mpr ⟨_, hlook⟩)

/-- An edge that has been looked at once is reported once, unless it was passed over. -/
theorem countP_reports {looks : List Look} {i j : NodeIndex} {kind : Option EdgeKind}
    (hnodup : (targets looks i).Nodup) (hlook : ⟨i, j, kind⟩ ∈ looks) :
    (looks.filterMap report?).countP (·.joins i j) = if kind.isSome then 1 else 0 := by
  obtain ⟨before, after, rfl⟩ := List.append_of_mem hlook
  have htargets : targets (before ++ ⟨i, j, kind⟩ :: after) i =
      targets before i ++ j :: targets after i := by simp [targets]
  rw [htargets] at hnodup
  obtain ⟨-, hafter, hdisjoint⟩ := List.nodup_append.mp hnodup
  have hbefore : j ∉ targets before i := fun hmem => hdisjoint j hmem j (by simp) rfl
  have hrest := countP_reports_of_not_mem (List.nodup_cons.mp hafter).1
  rw [List.filterMap_append, List.countP_append, countP_reports_of_not_mem hbefore]
  cases kind with
  | none =>
    rw [List.filterMap_cons_none rfl, hrest]
    rfl
  | some kind =>
    have hreport : report? ⟨i, j, some kind⟩ = some ⟨some i, some j, kind⟩ := rfl
    rw [List.filterMap_cons_some hreport, List.countP_cons_of_pos (by simp [EdgeReport.joins]),
      hrest]
    rfl

/-- The reason for the kind of an edge holds for good. -/
theorem Fits.grow {g g' : Graph ι α} {look : Look} (h : look.Fits g) (hg : g.Nested)
    (hgrows : g.Grows g') (hsource : g.IsEntered look.source) (htarget : g.IsEntered look.target) :
    look.Fits g' := by
  obtain ⟨i, j, kind⟩ := look
  cases kind with
  | none =>
    obtain ⟨hd, h⟩ := h
    refine ⟨hgrows.directed_eq.trans hd, ?_⟩
    rcases h with h | h | h
    · exact .inl (hgrows.parent_eq_some hg h)
    · exact .inr (.inl (hgrows.overleaps hg htarget h))
    · exact .inr (.inr (hgrows.precedes h))
  | some kind =>
    cases kind with
    | tree => exact hgrows.parent_eq_some hg h
    | back =>
      obtain ⟨hd, h⟩ := h
      refine ⟨hgrows.descends hg hd, ?_⟩
      rw [hgrows.directed_eq, hgrows.parent i hsource]
      exact h
    | forward => exact ⟨hgrows.directed_eq.trans h.1, hgrows.overleaps hg htarget h.2⟩
    | cross => exact ⟨hgrows.directed_eq.trans h.1, hgrows.precedes h.2⟩

end Look

namespace Walk

/-! ### The kind of an edge -/

section
variable {g : Graph ι α} {f : Frame} {j : NodeIndex} {path : List Frame}
  (h : Rooted g (f :: path))
include h

private theorem Rooted.overleaps_of_elder (hnew : g.parent? j ≠ some f.index)
    (he : g.Elder f.index j) :
    g.Overleaps f.index j := by
  refine ⟨he.ne.symm, ?_, hnew⟩
  rcases h.nested.descends_or_precedes f.index j he with hd | ⟨t, u, ht, -, -⟩
  · exact hd
  · rw [h.exit?_eq_none (head_mem_trail ..)] at ht
    cases ht

private theorem Rooted.precedes_of_not_elder (hj : g.IsFinished j) (he : ¬ g.Elder f.index j) :
    g.Precedes j f.index := by
  have hf : g.exit? f.index = none := h.exit?_eq_none (head_mem_trail ..)
  obtain ⟨u, hu⟩ := hj
  have hne : j ≠ f.index := by
    rintro rfl
    rw [hf] at hu
    cases hu
  have hentered : g.IsEntered f.index := (h.isOpen _ (head_mem_trail ..)).isEntered
  have helder : g.Elder j f.index :=
    (h.nested.elder_or_elder (Graph.IsFinished.isEntered ⟨u, hu⟩) hentered hne).resolve_right he
  refine (h.nested.descends_or_precedes j f.index helder).resolve_left fun hd => ?_
  obtain ⟨v, hv, -⟩ := h.nested.exit_of_descends hd hu
  rw [hf] at hv
  cases hv

end

/-- The kind that the visits of its ends give to an edge has its reason in the forest. -/
theorem Rooted.fits {g : Graph ι α} {i j : NodeIndex} {pending : List NodeIndex}
    {path : List Frame} {source target : Node ι α} (h : Rooted g (⟨i, pending⟩ :: path))
    (hi : g.nodes[i]? = some source) (hj : g.nodes[j]? = some target)
    (hv : target.visit ≠ .undiscovered) (hnew : g.parent? j ≠ some i) :
    Look.Fits g ⟨i, j, EdgeKind.between g.directed source j target⟩ := by
  cases hvisit : target.visit with
  | undiscovered => exact absurd hvisit hv
  | discovered t =>
    have hopen : g.IsOpen j := ⟨t, by rw [Graph.visit?_of_node hj, hvisit]⟩
    have hd : g.Descends i j := h.descends_of_mem (h.mem_of_isOpen j hopen)
    have hparent : g.parent? i = source.parent := Graph.parent?_of_node hi
    simp only [EdgeKind.between, hvisit]
    split
    · next hback =>
      simp only [Bool.and_eq_true, Bool.not_eq_true', beq_iff_eq] at hback
      exact ⟨hback.1, .inl (hparent.trans hback.2)⟩
    · next hback =>
      refine ⟨hd, ?_⟩
      rw [hparent]
      cases hdirected : g.directed with
      | true => exact .inl rfl
      | false =>
        rw [hdirected] at hback
        exact .inr (by simpa using hback)
  | finished t u =>
    have hfinished : g.IsFinished j :=
      ⟨u, by simp [Graph.exit?_of_node hj, Node.exitTime?, hvisit, Visit.exitTime?]⟩
    have hentrance : g.entrance? j = some t := by
      simp [Graph.entrance?_of_node hj, Node.entryTime?, hvisit, Visit.entryTime?]
    obtain ⟨v, hsource⟩ :=
      (g.isEntered_iff i).mp (h.isOpen i (head_mem_trail ..)).isEntered
    have hentry : source.entryTime? = some v := by rw [← Graph.entrance?_of_node hi, hsource]
    have helder : g.Elder i j ↔ v < t := by simp [Graph.Elder, hsource, hentrance]
    have hover := h.overleaps_of_elder hnew
    have hbefore := h.precedes_of_not_elder hfinished
    simp only [EdgeKind.between, hvisit, hentry, Option.all_some, decide_eq_true_eq]
    cases hdirected : g.directed with
    | true =>
      by_cases hvt : v < t
      · simp only [Bool.not_true, Bool.false_eq_true, if_false, if_pos hvt]
        exact ⟨hdirected, hover (helder.mpr hvt)⟩
      · simp only [Bool.not_true, Bool.false_eq_true, if_false, if_neg hvt]
        exact ⟨hdirected, hbefore (hvt ∘ helder.mp)⟩
    | false =>
      simp only [Bool.not_false, if_true]
      refine ⟨hdirected, .inr ?_⟩
      by_cases hvt : v < t
      · exact .inl (hover (helder.mpr hvt))
      · exact .inr (hbefore (hvt ∘ helder.mp))

end Walk

end Precedence
