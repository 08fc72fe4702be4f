import Mathlib
import Precedence.Proofs.Resolution.Extension
import Precedence.Proofs.Resolution.Views

/-!
# Dependencies that say nothing new

An entity may be told to depend on what it depends on already, by way of others. The edge that
this adds comes last among its edges, and by the time it is looked at its target has been left, so
the order is the same as without it.
-/

namespace Precedence

open Relation (TransGen)

variable {ι α : Type} [BEq ι] [Hashable ι]

namespace Graph

variable {g : Graph ι α} {i j : NodeIndex}

private theorem exists_successors_addNeighbor (g : Graph ι α) (i j k : NodeIndex) :
    ∃ more, (g.modify i (·.addNeighbor j)).successors k = g.successors k ++ more ∧
      ∀ l ∈ more, k = i ∧ l = j := by
  by_cases hik : i = k
  · subst hik
    cases hi : g.nodes[i]? with
    | none => exact ⟨[], by simp [successors, modify, Array.getElem?_modify, hi], by simp⟩
    | some n =>
      have hnew : (g.modify i (·.addNeighbor j)).successors i = (n.addNeighbor j).neighbors := by
        simp [successors, modify, Array.getElem?_modify, hi]
      rw [hnew, successors_of_node hi, Node.addNeighbor]
      split
      · exact ⟨[], by simp, by simp⟩
      · exact ⟨[j], rfl, by simp⟩
  · exact ⟨[], by simp [successors, modify, Array.getElem?_modify, hik], by simp⟩

private theorem transGen_of_addNeighbor (hij : TransGen g.Edge i j) {k l : NodeIndex}
    (hkl : TransGen (g.modify i (·.addNeighbor j)).Edge k l) : TransGen g.Edge k l := by
  refine TransGen.closed ?_ k l hkl
  intro k l hedge
  obtain ⟨more, hmore, hlast⟩ := g.exists_successors_addNeighbor i j k
  rw [Edge, hmore, List.mem_append] at hedge
  rcases hedge with hedge | hedge
  · exact .single hedge
  · obtain ⟨rfl, rfl⟩ := hlast l hedge
    exact hij

private theorem id?_addNeighbor (g : Graph ι α) (i j : NodeIndex) :
    (g.modify i (·.addNeighbor j)).id? = g.id? := by
  refine funext (map_modify (·.id) ?_)
  intro n
  unfold Node.addNeighbor
  split <;> rfl

end Graph

omit [Hashable ι] in
private theorem History.missing_append [EquivBEq ι] {h k : History ι α}
    (hmentions : ∀ a ∈ k.mentions, h.mentions.contains a) (hregisters : k.registers = []) :
    (h ++ k).missing = h.missing := by
  rw [missing, missing, identifiers, identifiers, mentions_append, registers_append, hregisters,
    List.append_nil, eraseDups_append_of_contains hmentions]

namespace Registry

private theorem addDependencies_of_find? {r : Registry ι α} {a c : ι} {i j : NodeIndex}
    (ha : r.graph.find? a = some i) (hc : r.graph.find? c = some j) :
    r.addDependencies a [c] = ⟨r.graph.modify i (·.addNeighbor j), r.roots, r.options⟩ := by
  simp only [addDependencies, Graph.intern_of_some ha, link, Graph.intern_of_some hc]

section
variable [EquivBEq ι] [LawfulHashable ι] {options : Options} {h k : History ι α}
  {i j : NodeIndex} (hij : TransGen (ofHistory options h).graph.Edge i j)
  (hgraph : (ofHistory options k).graph =
    (ofHistory options h).graph.modify i (·.addNeighbor j))
include hij hgraph

/-- An edge where there was a path closes no cycle. -/
theorem not_cyclic_of_addNeighbor (hnot : ¬ h.Cyclic) : ¬ k.Cyclic := by
  rw [(represents_ofHistory options h).records.cyclic_iff] at hnot
  rw [(represents_ofHistory options k).records.cyclic_iff, hgraph]
  rintro ⟨l, hl⟩
  exact hnot ⟨l, Graph.transGen_of_addNeighbor hij hl⟩

/-- An edge where there was a path leaves the collected order as it is. -/
theorem order_of_addNeighbor (hroots : (ofHistory options k).roots = (ofHistory options h).roots)
    {res res' : Resolution ι α} (hres : (ofHistory options h).resolve = .ok res)
    (hres' : (ofHistory options k).resolve = .ok res') : res'.order.toList = res.order.toList := by
  have hstarts : (ofHistory options k).starts = (ofHistory options h).starts := by
    rw [starts, starts, hroots, size, hgraph, Graph.size_modify]
    rfl
  have hpostorder := (postorder_of_resolve options h hres).2
  have hpostorder' := (postorder_of_resolve options k hres').2
  rw [hstarts, hgraph] at hpostorder'
  refine hpostorder'.unique (hpostorder.append_reached (by simp [Postorder.Complete]) ?_)
  intro l
  obtain ⟨more, hmore, hlast⟩ :=
    (ofHistory options h).graph.exists_successors_addNeighbor i j l
  refine ⟨more, hmore, ?_⟩
  intro m hm
  obtain ⟨rfl, rfl⟩ := hlast m hm
  exact hij

/-- An edge where there was a path leaves the ordered identifiers as they are. -/
theorem ids_of_addNeighbor (hroots : (ofHistory options k).roots = (ofHistory options h).roots)
    {res res' : Resolution ι α} (hres : (ofHistory options h).resolve = .ok res)
    (hres' : (ofHistory options k).resolve = .ok res') :
    ∃ ids, res.ids = .ok ids ∧ res'.ids = .ok ids := by
  obtain ⟨ids, hids, hmap⟩ := (postorder_of_resolve options h hres).1.exists_map_id?
  obtain ⟨ids', hids', hmap'⟩ := (postorder_of_resolve options k hres').1.exists_map_id?
  rw [order_of_addNeighbor hij hgraph hroots hres hres', hgraph, Graph.id?_addNeighbor, hmap]
    at hmap'
  have hsame : ids = ids' := (List.map_inj_right fun _ _ => Option.some.inj).mp hmap'
  exact ⟨ids, hids, hsame ▸ hids'⟩

end

variable [EquivBEq ι] [LawfulHashable ι] (options : Options) {h : History ι α} {a c : ι}

/-- To depend directly on what is depended on already, by way of others, leaves the order of
identifiers and payloads as it is. -/
theorem unchanged_of_resolve {res : Resolution ι α}
    (hres : (ofHistory options h).resolve = .ok res) (hac : TransGen h.DependsOn a c) :
    ∃ res' ids ps, ((ofHistory options h).addDependencies a [c]).resolve = .ok res' ∧
      res.ids = .ok ids ∧ res'.ids = .ok ids ∧ res.payloads = .ok ps ∧ res'.payloads = .ok ps := by
  have hr := (represents_ofHistory options h).records
  obtain ⟨i, j, ha, hc, hij⟩ := (hr.transGen_iff a c).mp hac
  have hlater : ofHistory options (h ++ [.dependencies a [c]]) =
      (ofHistory options h).addDependencies a [c] := ofHistory_append options h _
  have hadded := hlater.trans (addDependencies_of_find? ha hc)
  have hgraph := congrArg (·.graph) hadded
  have hregisters : (h ++ [.dependencies a [c]] : History ι α).registers = h.registers := by
    rw [History.registers_append]
    exact List.append_nil _
  have hmissing : (h ++ [.dependencies a [c]] : History ι α).missing = h.missing := by
    refine History.missing_append ?_ rfl
    intro b hb
    rcases List.mem_cons.mp hb with rfl | hb
    · exact (hr.exists_find?_iff b).mp ⟨i, ha⟩
    · rw [List.mem_singleton.mp hb]
      exact (hr.exists_find?_iff c).mp ⟨j, hc⟩
  obtain ⟨htolerant, hacyclic⟩ := tolerant_of_resolve options h hres
  rw [tolerant_iff, ← hmissing, ← tolerant_iff] at htolerant
  obtain ⟨res', hres'⟩ := (resolve_iff_of_tolerant options _ htolerant).2.mpr
    (not_cyclic_of_addNeighbor hij hgraph hacyclic)
  obtain ⟨ids, hids, hids'⟩ :=
    ids_of_addNeighbor hij hgraph (congrArg (·.roots) hadded) hres hres'
  have hpayloads' := payloads_of_ids options _ hres' hids'
  rw [hregisters] at hpayloads'
  rw [hlater] at hres'
  exact ⟨res', ids, _, hres', hids, hids', payloads_of_ids options h hres hids, hpayloads'⟩

/-- An entity depends on another by way of a third, which has a dependency of its own before. -/
def detour : History Nat String :=
  [.declaration ⟨1, "app", [2]⟩, .dependencies 2 [4, 3], .declaration ⟨3, "core", [5]⟩]

/-- The shortcut from `1` to `3` is a new edge, and does not pull `3` in front of `4`. -/
theorem unchanged_of_resolve_detour :
    TransGen detour.DependsOn 1 3 ∧ ¬ detour.DependsOn 1 3 ∧
      ∃ res res' ps, (ofHistory .lenient detour).resolve = .ok res ∧
        ((ofHistory .lenient detour).addDependencies 1 [3]).resolve = .ok res' ∧
        res'.ids = .ok [4, 5, 3, 2, 1] ∧ res.payloads = .ok ps ∧ res'.payloads = .ok ps := by
  have hfirst : detour.DependsOn 1 2 := ⟨(1, 2), by decide, rfl, rfl⟩
  have hsecond : detour.DependsOn 2 3 := ⟨(2, 3), by decide, rfl, rfl⟩
  have hreached : TransGen detour.DependsOn 1 3 := .tail (.single hfirst) hsecond
  have hnew : ¬ detour.DependsOn 1 3 := by
    unfold History.DependsOn
    decide
  have hread : (ofHistory .lenient detour).resolve.toOption.map (·.ids) =
      some (.ok [4, 5, 3, 2, 1]) := by cbv
  obtain ⟨res, hres, hids⟩ := exists_ok_of_map_toOption hread
  obtain ⟨res', ids, ps, hres', hids', hsame, hpayloads, hpayloads'⟩ :=
    unchanged_of_resolve .lenient hres hreached
  rw [hids] at hids'
  exact ⟨hreached, hnew, res, res', ps, hres, hres', hsame.trans hids'.symm, hpayloads,
    hpayloads'⟩

end Registry

end Precedence
