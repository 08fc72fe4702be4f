import Mathlib
import Precedence.Proofs.Registry.Integrity
import Precedence.Proofs.Resolution.Views

/-!
# Nothing is looked up past the end of the arena

A query of a registry, a walk over it and a view of what it is resolved to follow edges, roots and
collected indices without asking whether these are nodes. In a well-formed registry they are, so
that none of them ever fails, and every history makes a well-formed registry.
-/

namespace Precedence

variable {ι α : Type} [BEq ι] [Hashable ι]

/-- All that is ordered is in the arena, so that every view can be had. -/
structure Resolution.InBounds (res : Resolution ι α) : Prop where
  order : ∀ i ∈ res.order, i < res.graph.size
  nodes : ∃ ns, res.nodes = .ok ns
  ids : ∃ ids, res.ids = .ok ids
  payloads : ∃ ps, res.payloads = .ok ps
  intoPayloads : ∃ ps, res.intoPayloads = .ok ps
  position : ∀ a p, res.position? a = some p → p < res.size

/-- Every query of a registry is answered, and resolving it never leaves the arena. -/
structure Registry.InBounds (r : Registry ι α) : Prop where
  dependenciesOf : ∀ a, ∃ ids, r.dependenciesOf a = .ok ids
  /-- The nodes without a payload may be looked up by their indices. -/
  unresolved : ∃ ns, (List.range r.size).mapM r.graph.node = .ok ns ∧
    r.unresolved = (ns.filter (!·.hasPayload)).map (·.id)
  resolve : ∀ fault, r.resolve ≠ .error (.outOfRange fault)
  resolution : ∀ res, r.resolve = .ok res → res.InBounds

private theorem Collecting.inBounds {g₀ g : Graph ι α} {starts : List NodeIndex}
    {order : Array NodeIndex} (h : Collecting g₀ starts g order) :
    (Resolution.mk g order).InBounds := by
  obtain ⟨ns, hns, hmap, -⟩ := h.collected.exists_nodes
  refine ⟨fun i hi => ((h.collected.mem_iff i).mp hi).lt_size, ⟨ns, hns⟩,
    ⟨ns.map (·.id), by rw [Resolution.ids, hns]; rfl⟩,
    ⟨ns.map (·.payload), by rw [Resolution.payloads, hns]; rfl⟩,
    ⟨_, Resolution.drain_eq_ok h.collected.nodup hmap⟩, ?_⟩
  intro a p hp
  obtain ⟨i, -, hi⟩ := Option.bind_eq_some_iff.mp hp
  rw [idxOf?_eq_some_iff_of_nodup h.collected.nodup] at hi
  exact (Array.getElem?_eq_some_iff.mp hi).1

namespace Registry

section
variable {r : Registry ι α} (h : r.WellFormed)
include h

/-- Edges of a well-formed registry stay in the arena. -/
theorem WellFormed.closed : r.graph.Closed := by
  intro i j hij
  obtain ⟨n, hn⟩ := (r.graph.exists_node_iff i).mpr hij.source_lt
  rw [Graph.Edge, Graph.successors_of_node hn] at hij
  exact (h.neighbors n (Array.mem_of_getElem? hn)).2 j hij

private theorem WellFormed.untouched : r.graph.Untouched := by
  intro i v hv
  obtain ⟨n, hn, rfl⟩ := Option.map_eq_some_iff.mp hv
  exact (h.unvisited n (Array.mem_of_getElem? hn)).1

/-- A well-formed registry is resolved by the rules. -/
theorem WellFormed.resolves : r.Resolves r.resolve := by
  refine resolves_resolve h.directed h.closed h.untouched ?_
  intro s hs
  rcases List.mem_append.mp hs with hs | hs
  · exact h.roots.2 s (Array.mem_toList_iff.mp hs)
  · exact List.mem_range.mp hs

private theorem WellFormed.exists_dependenciesOf (a : ι) : ∃ ids, r.dependenciesOf a = .ok ids := by
  cases hfind : r.graph.find? a with
  | none => exact ⟨none, by simp only [dependenciesOf, hfind]⟩
  | some i =>
    obtain ⟨n, hn, -⟩ := (h.indexed a i).mp hfind
    obtain ⟨ns, hns, -⟩ :=
      r.graph.exists_mapM_node (h.neighbors n (Array.mem_of_getElem? hn)).2
    refine ⟨some (ns.map (·.id)), ?_⟩
    simp only [dependenciesOf, hfind, (r.graph.node_eq_ok_iff i n).mpr hn]
    show (n.neighbors.mapM r.graph.node >>= fun ts => .ok (some (ts.map (·.id)))) = _
    rw [hns]
    rfl

/-- The parts of a well-formed registry fit together so well that nothing is looked up past the
end of the arena. -/
theorem WellFormed.inBounds : r.InBounds := by
  have hresolves := h.resolves
  refine ⟨h.exists_dependenciesOf, ?_, ?_, ?_⟩
  · have hrange : ∀ i ∈ List.range r.size, i < r.graph.size := fun i hi => List.mem_range.mp hi
    obtain ⟨ns, hns, hmap⟩ := r.graph.exists_mapM_node hrange
    have hall := hmap.symm.trans r.graph.map_node_range
    rw [(List.map_inj_right fun _ _ => Option.some.inj).mp hall] at hns
    exact ⟨_, hns, rfl⟩
  · intro fault hfault
    rw [hfault] at hresolves
    cases hresolves
  · intro res hres
    rw [hres] at hresolves
    cases hresolves with
    | ok _ hg => exact hg.inBounds

end

variable [EquivBEq ι] [LawfulHashable ι]

/-- Whatever the calls, nodes, lookup, edges, roots and payloads of a registry fit together, and
therefore no query, no walk and no view of a resolution leaves the arena. -/
theorem wellFormed_inBounds_ofHistory (options : Options) (h : History ι α) :
    (ofHistory options h).WellFormed ∧ (ofHistory options h).InBounds :=
  have hwellFormed := (represents_ofHistory options h).wellFormed
  ⟨hwellFormed, hwellFormed.inBounds⟩

/-- An entity is depended on before it is registered, under two spellings, and another is never
registered. -/
def belated : History Text.CaseFolded Nat :=
  [.dependencies ⟨"App"⟩ [⟨"Lib"⟩, ⟨"LIB"⟩, ⟨"core"⟩], .declaration ⟨⟨"lib"⟩, 1, [⟨"Core"⟩]⟩,
    .node ⟨"app"⟩ 2]

/-- There are three nodes with an entry each, and the two roots were registered in the other
order. -/
theorem wellFormed_inBounds_ofHistory_belated :
    (ofHistory .lenient belated).WellFormed ∧ (ofHistory .lenient belated).InBounds ∧
      (ofHistory .lenient belated).graph.lookup.size = 3 ∧
      (ofHistory .lenient belated).roots = #[1, 0] ∧
      (ofHistory .lenient belated).graph.nodes.toList.map (·.neighbors) = [[1, 2], [2], []] := by
  have hsize : (ofHistory .lenient belated).graph.size = 3 := by cbv
  have hroots : (ofHistory .lenient belated).roots = #[1, 0] := by cbv
  have hneighbors : (ofHistory .lenient belated).graph.nodes.toList.map (·.neighbors) =
      [[1, 2], [2], []] := by cbv
  obtain ⟨hwellFormed, hinBounds⟩ := wellFormed_inBounds_ofHistory .lenient belated
  exact ⟨hwellFormed, hinBounds, hwellFormed.entries.trans hsize, hroots, hneighbors⟩

end Registry

end Precedence
