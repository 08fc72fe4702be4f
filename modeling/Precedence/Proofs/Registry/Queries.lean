import Mathlib
import Precedence.Proofs.Registry.Representation
import Precedence.Text.CaseFolded

/-!
# What a registry answers

Every query of a registry is answered by the plain reading of its history: `Answers` has one field
for each query. Lookups go by equality and results by the spelling of the first mention, whatever
spelling was asked for.
-/

namespace Precedence

variable {ι α : Type} [BEq ι] [Hashable ι]

omit [Hashable ι] in
/-- Equal identifiers have the same dependencies. -/
theorem targetsOf_congr [EquivBEq ι] {ds : List (ι × ι)} {a b : ι} (h : a == b) :
    targetsOf ds a = targetsOf ds b := by
  have hcongr : ∀ c : ι, (c == a) = (c == b) := fun c => BEq.congr_right h
  simp only [targetsOf, hcongr]

omit [Hashable ι] in
/-- Equal identifiers have the same payload. -/
theorem latest_congr [EquivBEq ι] {ps : List (ι × α)} {a b : ι} (h : a == b) :
    latest ps a = latest ps b := by
  have hcongr : ∀ c : ι, (c == a) = (c == b) := fun c => BEq.congr_right h
  simp only [latest, hcongr]

namespace Graph

section
variable [EquivBEq ι] {g : Graph ι α} {h : History ι α}
  (hg : g.Records h.mentions h.declares h.registers)
include hg

private theorem Records.id_of_find? {a : ι} {i : NodeIndex} (ha : g.find? a = some i) :
    ∃ n, g.nodes[i]? = some n ∧ n.id == a ∧ n.id = h.spelling a := by
  obtain ⟨n, hn, hna⟩ := (hg.indexed a i).mp ha
  have hfirst := hg.find?_mentions (id?_of_node hn)
  have hcongr : ∀ b : ι, (b == n.id) = (b == a) := fun b => BEq.congr_right hna
  simp only [hcongr] at hfirst
  exact ⟨n, hn, hna, by rw [History.spelling, hfirst, Option.getD_some]⟩

/-- Located nodes are spelled as their identifiers were first. -/
theorem Records.map_id?_of_locates {as : List ι} {is : List NodeIndex} (h' : g.Locates as is) :
    is.map g.id? = as.map (some <| h.spelling ·) := by
  induction as generalizing is with
  | nil =>
    cases is with
    | nil => rfl
    | cons i is => cases h'
  | cons a as ih =>
    cases is with
    | nil => cases h'
    | cons i is =>
      rw [Locates, List.map_cons, List.map_cons, List.cons.injEq] at h'
      obtain ⟨n, hn, _, hna⟩ := hg.id_of_find? h'.1
      rw [List.map_cons, List.map_cons, ih h'.2, id?_of_node hn, hna]

/-- The edges of a node lead to the nodes of what its identifier depends on. -/
theorem Records.locates_targets {a : ι} {i : NodeIndex} (ha : g.find? a = some i) :
    g.Locates (targetsOf h.declares a) (g.successors i) := by
  obtain ⟨n, hn, hna, -⟩ := hg.id_of_find? ha
  rw [successors_of_node hn, ← targetsOf_congr hna]
  exact hg.edges i n hn

end

end Graph

namespace Registry

/-- A registry answers all queries as the plain reading of a history does. -/
structure Answers (r : Registry ι α) (h : History ι α) : Prop where
  /-- The identifiers are those mentioned, in order and spelling of the first mention. -/
  names : r.graph.nodes.toList.map (·.id) = h.identifiers
  size : r.size = h.identifiers.length
  isEmpty : r.isEmpty = h.identifiers.isEmpty
  contains : ∀ a, r.contains a = h.mentions.contains a
  dependenciesOf : ∀ a, r.dependenciesOf a = .ok (h.dependencies a)
  /-- Each identifier has the payload that it was given last. -/
  payloads : r.graph.nodes.toList.map (·.payload) = h.identifiers.map (latest h.registers)
  /-- To register an identifier once more returns the payload that it had. -/
  replaced : ∀ a payload, (r.addNode a payload).2 = latest h.registers a
  unresolved : r.unresolved = h.missing
  /-- The roots are the registered identifiers, in order of first registration. -/
  roots : r.roots.toList.map r.graph.id? = h.roots.map (some <| h.spelling ·)

section
variable [EquivBEq ι] {r : Registry ι α} {h : History ι α}
  (hr : r.Represents h.mentions h.declares h.registers)
include hr

omit [EquivBEq ι] in
private theorem size_of_represents : r.size = h.identifiers.length := by
  rw [History.identifiers, ← hr.records.names, List.length_map, Array.length_toList]
  rfl

private theorem dependenciesOf_of_represents [LawfulHashable ι] (a : ι) :
    r.dependenciesOf a = .ok (h.dependencies a) := by
  have hmentioned := hr.records.exists_find?_iff a
  cases hfind : r.graph.find? a with
  | none =>
    have hnot : ¬ h.mentions.contains a := by
      rw [← hmentioned, hfind]
      simp
    simp only [dependenciesOf, hfind, History.dependencies, if_neg hnot]
  | some i =>
    obtain ⟨n, hn, -⟩ := hr.records.id_of_find? hfind
    have hlocates := hr.records.locates_targets hfind
    rw [Graph.successors_of_node hn] at hlocates
    have hlt : ∀ j ∈ n.neighbors, j < r.graph.size := by
      intro j hj
      apply hr.records.closed i j
      rw [Graph.Edge, Graph.successors_of_node hn]
      exact hj
    obtain ⟨ns, hns, hmap⟩ := r.graph.exists_mapM_node hlt
    have hids : n.neighbors.map r.graph.id? = (ns.map (·.id)).map some := by
      rw [List.map_map]
      calc n.neighbors.map r.graph.id?
          = (n.neighbors.map (r.graph.nodes[·]?)).map (Option.map (·.id)) := by
            rw [List.map_map]
            rfl
        _ = ns.map (some ∘ (·.id)) := by
            rw [hmap, List.map_map]
            rfl
    rw [hr.records.map_id?_of_locates hlocates, ← Function.comp_def, ← List.map_map] at hids
    have hspelled := (List.map_inj_right fun _ _ => Option.some.inj).mp hids
    have hmem : h.mentions.contains a := hmentioned.mp ⟨i, hfind⟩
    simp only [dependenciesOf, hfind, (r.graph.node_eq_ok_iff i n).mpr hn,
      History.dependencies, if_pos hmem, hspelled]
    change (n.neighbors.mapM r.graph.node >>= fun ts => .ok (some (ts.map (·.id)))) = _
    rw [hns]
    rfl

private theorem replaced_of_represents [LawfulHashable ι] (a : ι) (payload : α) :
    (r.addNode a payload).2 = latest h.registers a := by
  have hrecords := hr.records.intern a
  obtain ⟨n, hn, hna⟩ := (hrecords.indexed a _).mp (r.graph.find?_intern_self a)
  calc (r.addNode a payload).2
      = (r.graph.intern a).1.nodes[(r.graph.intern a).2]?.bind (·.payload) := rfl
    _ = latest h.registers n.id := by rw [hn, Option.bind_some, hrecords.payload _ n hn]
    _ = latest h.registers a := latest_congr hna

omit [EquivBEq ι] in
private theorem payloads_of_represents :
    r.graph.nodes.toList.map (·.payload) = h.identifiers.map (latest h.registers) := by
  rw [History.identifiers, ← hr.records.names, List.map_map]
  apply List.map_congr_left
  intro n hn
  obtain ⟨i, hi⟩ := Array.getElem?_of_mem (Array.mem_toList_iff.mp hn)
  exact hr.records.payload i n hi

end

/-- A registry stands for the history of its calls: whatever the calls, their order and the
spellings they use, its queries answer as the history does, read as plain lists. -/
theorem answers_ofHistory [EquivBEq ι] [LawfulHashable ι] (options : Options)
    (h : History ι α) : (ofHistory options h).Answers h := by
  have hr := represents_ofHistory options h
  have hsize := size_of_represents hr
  refine ⟨hr.records.names, hsize, ?_, ?_, dependenciesOf_of_represents hr,
    payloads_of_represents hr, replaced_of_represents hr, unresolved_ofHistory options h,
    hr.records.map_id?_of_locates hr.roots⟩
  · have hempty : (ofHistory options h).isEmpty = decide ((ofHistory options h).size = 0) := rfl
    rw [hempty, hsize]
    cases h.identifiers <;> rfl
  · intro a
    have hfound : (ofHistory options h).contains a ↔ h.mentions.contains a := by
      rw [← hr.records.exists_find?_iff a]
      exact Option.isSome_iff_exists
    exact Bool.eq_iff_iff.mpr hfound

/-- Dependencies are told in their first spelling, whatever spelling is asked for, and the payload
that is replaced was given under another spelling. -/
theorem answers_ofHistory_respelled :
    (ofHistory .lenient ([.dependencies ⟨"App"⟩ [⟨"Lib"⟩, ⟨"app"⟩, ⟨"LIB"⟩], .node ⟨"lib"⟩ 1] :
        History Text.CaseFolded Nat)).Answers
          [.dependencies ⟨"App"⟩ [⟨"Lib"⟩, ⟨"app"⟩, ⟨"LIB"⟩], .node ⟨"lib"⟩ 1] ∧
      History.dependencies ([.dependencies ⟨"App"⟩ [⟨"Lib"⟩, ⟨"app"⟩, ⟨"LIB"⟩], .node ⟨"lib"⟩ 1] :
        History Text.CaseFolded Nat) ⟨"APP"⟩ = some [⟨"Lib"⟩, ⟨"App"⟩] ∧
      latest (History.registers ([.dependencies ⟨"App"⟩ [⟨"Lib"⟩, ⟨"app"⟩, ⟨"LIB"⟩],
        .node ⟨"lib"⟩ 1] : History Text.CaseFolded Nat)) ⟨"LIB"⟩ = some 1 := by
  have h := answers_ofHistory .lenient
    ([.dependencies ⟨"App"⟩ [⟨"Lib"⟩, ⟨"app"⟩, ⟨"LIB"⟩], .node ⟨"lib"⟩ 1] :
      History Text.CaseFolded Nat)
  have hdependencies : (ofHistory .lenient ([.dependencies ⟨"App"⟩ [⟨"Lib"⟩, ⟨"app"⟩, ⟨"LIB"⟩],
      .node ⟨"lib"⟩ 1] : History Text.CaseFolded Nat)).dependenciesOf ⟨"APP"⟩ =
        .ok (some [⟨"Lib"⟩, ⟨"App"⟩]) := by cbv
  have hreplaced : ((ofHistory .lenient ([.dependencies ⟨"App"⟩ [⟨"Lib"⟩, ⟨"app"⟩, ⟨"LIB"⟩],
      .node ⟨"lib"⟩ 1] : History Text.CaseFolded Nat)).addNode ⟨"LIB"⟩ 2).2 = some 1 := by cbv
  exact ⟨h, Except.ok.inj ((h.dependenciesOf _).symm.trans hdependencies),
    (h.replaced _ _).symm.trans hreplaced⟩

end Registry

end Precedence
