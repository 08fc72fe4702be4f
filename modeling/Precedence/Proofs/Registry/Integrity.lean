import Precedence.Proofs.Registry.Representation

/-!
# The parts of a registry fit together

Nodes, lookup, edges, payloads and roots of a registry are written by different calls. Whatever
the calls, they agree: the lookup finds each node by its identifier and has no other entry, edges
and roots are nodes of the arena, each listed once, and exactly the roots have a payload. All of
this follows from what the registry stands for.
-/

namespace Precedence

variable {ι α : Type} [BEq ι] [Hashable ι]

/-- A lookup that is exact has one entry for each node. -/
theorem Graph.Indexed.size_lookup [EquivBEq ι] [LawfulHashable ι] {g : Graph ι α}
    (hg : g.Indexed) : g.lookup.size = g.size := by
  have hentries : g.Locates (g.lookup.toList.map (·.1)) (g.lookup.toList.map (·.2)) := by
    rw [Locates, List.map_map, List.map_map]
    apply List.map_congr_left
    rintro ⟨a, i⟩ hai
    exact (Std.HashMap.mem_toList_iff_getKey?_eq_some_and_getElem?_eq_some.mp hai).2
  have hkeys : g.lookup.toList.map (·.1) = g.lookup.keys := Std.HashMap.map_fst_toList_eq_keys
  have hnodup : (g.lookup.toList.map (·.2)).Nodup := by
    apply hentries.nodup hg
    rw [hkeys]
    exact Std.HashMap.distinct_keys
  have hperm : (g.lookup.toList.map (·.2)).Perm (List.range g.size) := by
    rw [List.perm_ext_iff_of_nodup hnodup List.nodup_range]
    intro i
    rw [hentries.mem_iff, List.mem_range]
    constructor
    · rintro ⟨a, _, ha⟩
      exact hg.lt_size ha
    · intro hi
      obtain ⟨n, hn⟩ := (g.exists_node_iff i).mpr hi
      have hfind := hg.find?_of_node hn
      -- The entry may have another spelling than the node.
      have hkey : g.lookup.keys.contains n.id := by
        rw [Std.HashMap.contains_keys, Std.HashMap.contains_eq_isSome_getElem?]
        exact Option.isSome_iff_exists.mpr ⟨i, hfind⟩
      obtain ⟨a, ha, hna⟩ := List.contains_iff_exists_mem_beq.mp hkey
      rw [hkeys]
      exact ⟨a, ha, by rw [← find?_eq_of_beq hna, hfind]⟩
  simpa using hperm.length_eq

namespace Registry

/-- The parts of a registry fit together, and no walk has begun. -/
structure WellFormed (r : Registry ι α) : Prop where
  /-- An identifier is found exactly where an equal one stands. -/
  indexed : ∀ a i, r.graph.find? a = some i ↔ ∃ n, r.graph.nodes[i]? = some n ∧ n.id == a
  /-- No two nodes have equal identifiers. -/
  distinct : r.graph.nodes.toList.Pairwise fun m n => (m.id == n.id) = false
  /-- The lookup has one entry for each node. -/
  entries : r.graph.lookup.size = r.graph.size
  /-- Edges lead to nodes, and none is there twice. -/
  neighbors : ∀ n ∈ r.graph.nodes, n.neighbors.Nodup ∧ ∀ j ∈ n.neighbors, j < r.graph.size
  /-- Roots are nodes, and none is there twice. -/
  roots : r.roots.toList.Nodup ∧ ∀ i ∈ r.roots, i < r.graph.size
  /-- Exactly the roots have a payload. -/
  payload : ∀ (i : NodeIndex) (n : Node ι α), r.graph.nodes[i]? = some n →
    (n.hasPayload ↔ i ∈ r.roots)
  /-- No node has been visited. -/
  unvisited : ∀ n ∈ r.graph.nodes, n.visit = .undiscovered ∧ n.parent = none
  directed : r.graph.directed = true
  clock : r.graph.clock = 0

section
variable {r : Registry ι α} {ms : List ι} {ds : List (ι × ι)} {ps : List (ι × α)}

private theorem Represents.hasPayload_iff [EquivBEq ι] (h : r.Represents ms ds ps) {i : NodeIndex}
    {n : Node ι α} (hn : r.graph.nodes[i]? = some n) : n.hasPayload ↔ i ∈ r.roots := by
  have hfind (a : ι) : r.graph.find? a = some i ↔ n.id == a := by
    rw [h.records.indexed a i, hn]
    simp
  calc n.hasPayload
      ↔ (ps.map (·.1)).eraseDups.contains n.id := by
        rw [Node.hasPayload, h.records.payload i n hn, isSome_latest, contains_eraseDups,
          List.contains_eq_any_beq, List.any_map]
        simp only [Function.comp_def, BEq.comm]
    _ ↔ ∃ a ∈ (ps.map (·.1)).eraseDups, r.graph.find? a = some i := by
        simp only [List.contains_iff_exists_mem_beq, hfind]
    _ ↔ i ∈ r.roots := by rw [← h.roots.mem_iff, Array.mem_toList_iff]

/-- A registry that stands for a history is well-formed. -/
theorem Represents.wellFormed [EquivBEq ι] [LawfulHashable ι] (h : r.Represents ms ds ps) :
    r.WellFormed where
  indexed := h.records.indexed
  distinct := by
    have hnames := pairwise_eraseDups ms
    rw [← h.records.names] at hnames
    exact List.pairwise_map.mp hnames
  entries := h.records.indexed.size_lookup
  neighbors n hn := by
    obtain ⟨i, hi⟩ := Array.getElem?_of_mem hn
    have hlocates := h.records.edges i n hi
    refine ⟨hlocates.nodup h.records.indexed (pairwise_eraseDups _), ?_⟩
    intro j hj
    obtain ⟨a, _, ha⟩ := (hlocates.mem_iff j).mp hj
    exact h.records.indexed.lt_size ha
  roots := by
    refine ⟨h.roots.nodup h.records.indexed (pairwise_eraseDups _), ?_⟩
    intro i hi
    obtain ⟨a, _, ha⟩ := (h.roots.mem_iff i).mp (Array.mem_toList_iff.mpr hi)
    exact h.records.indexed.lt_size ha
  payload _ _ hn := h.hasPayload_iff hn
  unvisited n hn := by
    obtain ⟨i, hi⟩ := Array.getElem?_of_mem hn
    rw [← h.records.unvisited i n hi]
    exact ⟨rfl, rfl⟩
  directed := h.records.directed
  clock := h.records.clock

end

end Registry

end Precedence
