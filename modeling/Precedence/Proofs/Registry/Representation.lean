import Precedence.Proofs.Registry.Records
import Precedence.Resolution.Basic

/-!
# A registry stands for its history

Whatever the calls and their order, the graph of a registry records what its history says, and
its roots are the registered identifiers in order of first registration. Dependencies between
identifiers are therefore edges between their nodes, and what is reached along the one is reached
along the other.
-/

namespace Precedence

open Relation (ReflTransGen TransGen)

variable {ι α : Type} [BEq ι] [Hashable ι]

namespace Registry

/-- A registry holds exactly what is mentioned, declared and given. -/
structure Represents (r : Registry ι α) (ms : List ι) (ds : List (ι × ι)) (ps : List (ι × α)) :
    Prop where
  records : r.graph.Records ms ds ps
  roots : r.graph.Locates (ps.map (·.1)).eraseDups r.roots.toList

/-- An empty registry holds nothing. -/
theorem represents_empty (options : Options) :
    (empty options : Registry ι α).Represents [] [] [] :=
  ⟨Graph.records_empty, rfl⟩

section
variable [EquivBEq ι] [LawfulHashable ι] {r : Registry ι α} {ms : List ι} {ds : List (ι × ι)}
  {ps : List (ι × α)}

/-- Registering an entity mentions it and gives its payload. -/
theorem Represents.addNode (h : r.Represents ms ds ps) (a : ι) (payload : α) :
    (r.addNode a payload).1.Represents (ms ++ [a]) ds (ps ++ [(a, payload)]) := by
  have hrecords := h.records.intern a
  have hfind := r.graph.find?_intern_self a
  constructor
  · exact hrecords.withPayload hfind payload
  · have hroots := (h.roots.keep (r.graph.keeps_intern a)).concat hrecords.indexed hfind
    have hlist : (r.addNode a payload).1.roots.toList =
        if (r.graph.intern a).2 ∈ r.roots.toList then r.roots.toList
        else r.roots.toList ++ [(r.graph.intern a).2] := by
      simp only [Registry.addNode, Array.contains_iff_mem, Array.mem_toList_iff]
      split <;> simp
    rw [hlist, List.map_append]
    exact hroots

private theorem find?_addNode (r : Registry ι α) (a : ι) (payload : α) :
    ∃ i, (r.addNode a payload).1.graph.find? a = some i :=
  ⟨_, r.graph.find?_intern_self a⟩

private theorem records_link {g : Graph ι α} (h : g.Records ms ds ps) {a : ι} {i : NodeIndex}
    (ha : g.find? a = some i) (ids : List ι) :
    (link g i ids).Records (ms ++ ids) (ds ++ ids.map (a, ·)) ps ∧ g.Keeps (link g i ids) := by
  induction ids generalizing g ms ds with
  | nil =>
    rw [List.map_nil, List.append_nil, List.append_nil]
    exact ⟨h, fun _ _ hi => hi⟩
  | cons b ids ih =>
    have hkeeps := g.keeps_intern b
    have hstep := (h.intern b).addNeighbor (hkeeps a i ha) (g.find?_intern_self b)
    obtain ⟨hrecords, hkeeps'⟩ := ih hstep (hkeeps a i ha)
    rw [List.append_assoc, List.append_assoc] at hrecords
    exact ⟨hrecords, hkeeps.trans hkeeps'⟩

private theorem Represents.addDependencies_of_find? (h : r.Represents ms ds ps) {a : ι}
    {i : NodeIndex}
    (ha : r.graph.find? a = some i) (ids : List ι) :
    (r.addDependencies a ids).Represents (ms ++ ids) (ds ++ ids.map (a, ·)) ps := by
  obtain ⟨hrecords, hkeeps⟩ := records_link h.records ha ids
  simp only [addDependencies, Graph.intern_of_some ha]
  exact ⟨hrecords, h.roots.keep hkeeps⟩

/-- Dependencies mention their dependent first. -/
theorem Represents.addDependencies (h : r.Represents ms ds ps) (a : ι) (ids : List ι) :
    (r.addDependencies a ids).Represents (ms ++ a :: ids) (ds ++ ids.map (a, ·)) ps := by
  obtain ⟨hrecords, hkeeps⟩ :=
    records_link (h.records.intern a) (r.graph.find?_intern_self a) ids
  rw [List.append_assoc, List.singleton_append] at hrecords
  exact ⟨hrecords, h.roots.keep ((r.graph.keeps_intern a).trans hkeeps)⟩

/-- A declaration registers its entity and declares its dependencies. -/
theorem Represents.addDeclaration (h : r.Represents ms ds ps) (d : Declaration ι α) :
    (r.addDeclaration d).Represents (ms ++ d.id :: d.dependsOn)
      (ds ++ d.dependsOn.map (d.id, ·)) (ps ++ [(d.id, d.payload)]) := by
  obtain ⟨i, hi⟩ := r.find?_addNode d.id d.payload
  have hd := (h.addNode d.id d.payload).addDependencies_of_find? hi d.dependsOn
  rw [List.append_assoc, List.singleton_append] at hd
  exact hd

/-- Several declarations are added one after the other. -/
theorem Represents.extend (h : r.Represents ms ds ps) (decls : List (Declaration ι α)) :
    (r.extend decls).Represents (ms ++ decls.flatMap fun d => d.id :: d.dependsOn)
      (ds ++ decls.flatMap fun d => d.dependsOn.map (d.id, ·))
      (ps ++ decls.map fun d => (d.id, d.payload)) := by
  induction decls generalizing r ms ds ps with
  | nil => simpa [Registry.extend] using h
  | cons d decls ih =>
    have hrest := ih (h.addDeclaration d)
    simp only [List.append_assoc, List.singleton_append] at hrest
    simpa only [Registry.extend, List.foldl_cons, List.flatMap_cons, List.map_cons] using hrest

/-- A call adds what it says. -/
theorem Represents.apply (h : r.Represents ms ds ps) (c : Registration ι α) :
    (r.apply c).Represents (ms ++ c.mentions) (ds ++ c.declares) (ps ++ c.registers) := by
  cases c with
  | node a payload =>
    rw [Registration.declares, List.append_nil]
    exact h.addNode a payload
  | dependencies a ids =>
    rw [Registration.registers, List.append_nil]
    exact h.addDependencies a ids
  | declaration d => exact h.addDeclaration d
  | declarations decls => exact h.extend decls

/-- Calls add what they say, one after the other. -/
theorem Represents.foldl_apply (h : r.Represents ms ds ps) (calls : History ι α) :
    (calls.foldl Registry.apply r).Represents (ms ++ calls.mentions) (ds ++ calls.declares)
      (ps ++ calls.registers) := by
  induction calls generalizing r ms ds ps with
  | nil => simpa [History.mentions, History.declares, History.registers] using h
  | cons c calls ih =>
    have hrest := ih (h.apply c)
    simp only [List.append_assoc] at hrest
    exact hrest

/-- A registry holds exactly what its history says. -/
theorem represents_ofHistory (options : Options) (h : History ι α) :
    (ofHistory options h).Represents h.mentions h.declares h.registers := by
  have hrest := (represents_empty options).foldl_apply h
  rw [List.nil_append, List.nil_append, List.nil_append] at hrest
  exact hrest

end

/-! ### Options -/

private theorem options_extend (r : Registry ι α) (decls : List (Declaration ι α)) :
    (r.extend decls).options = r.options := by
  induction decls generalizing r with
  | nil => rfl
  | cons d decls ih => exact ih (r.addDeclaration d)

private theorem options_apply (r : Registry ι α) (c : Registration ι α) :
    (r.apply c).options = r.options := by
  cases c with
  | node => rfl
  | dependencies => rfl
  | declaration => rfl
  | declarations decls => exact options_extend r decls

private theorem options_foldl_apply (r : Registry ι α) (calls : History ι α) :
    (calls.foldl apply r).options = r.options := by
  induction calls generalizing r with
  | nil => rfl
  | cons c calls ih => exact (ih (r.apply c)).trans (options_apply r c)

/-- No call changes the options. -/
theorem options_ofHistory (options : Options) (h : History ι α) :
    (ofHistory options h).options = options :=
  options_foldl_apply _ h

end Registry

/-! ### Dependencies as edges -/

namespace Graph

section
variable [EquivBEq ι] [LawfulHashable ι] {g : Graph ι α} {h : History ι α}
  (hg : g.Records h.mentions h.declares h.registers)
include hg

omit [LawfulHashable ι] in
private theorem Records.locates_identifiers : g.Locates h.identifiers (List.range g.size) := by
  rw [Locates, History.identifiers, ← hg.names]
  apply List.ext_getElem?
  intro i
  simp only [List.getElem?_map, Array.getElem?_toList]
  cases hi : g.nodes[i]? with
  | none =>
    have hle : g.size ≤ i := Array.getElem?_eq_none_iff.mp hi
    simp [hle]
  | some n =>
    have hlt : i < g.size := (g.exists_node_iff i).mp ⟨n, hi⟩
    simp [hlt, hg.indexed.find?_of_node hi]

omit [EquivBEq ι] [LawfulHashable ι] in
/-- The distinct identifiers are those of the nodes. -/
theorem Records.mem_identifiers_iff (a : ι) : a ∈ h.identifiers ↔ ∃ i, g.id? i = some a := by
  rw [History.identifiers, ← hg.names, List.mem_map]
  constructor
  · rintro ⟨n, hn, rfl⟩
    obtain ⟨i, hi⟩ := Array.getElem?_of_mem (Array.mem_toList_iff.mp hn)
    exact ⟨i, id?_of_node hi⟩
  · rintro ⟨i, hi⟩
    obtain ⟨n, hn, rfl⟩ := Option.map_eq_some_iff.mp hi
    exact ⟨n, Array.mem_toList_iff.mpr (Array.mem_of_getElem? hn), rfl⟩

/-- Exactly the identifiers that are mentioned are found. -/
theorem Records.exists_find?_iff (a : ι) :
    (∃ i, g.find? a = some i) ↔ h.mentions.contains a := by
  rw [← contains_eraseDups, List.contains_iff_exists_mem_beq]
  constructor
  · rintro ⟨i, hi⟩
    obtain ⟨n, hn, hna⟩ := (hg.indexed a i).mp hi
    exact ⟨n.id, (hg.mem_identifiers_iff n.id).mpr ⟨i, id?_of_node hn⟩, PartialEquivBEq.symm hna⟩
  · rintro ⟨b, hb, hab⟩
    obtain ⟨i, hi⟩ := (hg.mem_identifiers_iff b).mp hb
    obtain ⟨n, hn, rfl⟩ := Option.map_eq_some_iff.mp hi
    exact ⟨i, by rw [find?_eq_of_beq hab, hg.indexed.find?_of_node hn]⟩

omit [LawfulHashable ι] in
/-- A node is spelled as its identifier was first. -/
theorem Records.find?_mentions {i : NodeIndex} {a : ι} (hi : g.id? i = some a) :
    h.mentions.find? (· == a) = some a :=
  find?_of_mem_eraseDups ((hg.mem_identifiers_iff a).mpr ⟨i, hi⟩)

omit [LawfulHashable ι] in
/-- A node is found by its own spelling. -/
theorem Records.find?_of_id? {i : NodeIndex} {a : ι} (hi : g.id? i = some a) :
    g.find? a = some i := by
  obtain ⟨n, hn, rfl⟩ := Option.map_eq_some_iff.mp hi
  exact hg.indexed.find?_of_node hn

omit [LawfulHashable ι] in
/-- Nodes are told apart by their identifiers. -/
theorem Records.id?_inj {i j : NodeIndex} {a : ι} (hi : g.id? i = some a)
    (hj : g.id? j = some a) : i = j := by
  have hfind := hg.find?_of_id? hi
  rw [hg.find?_of_id? hj] at hfind
  exact (Option.some.inj hfind).symm

/-- A declared dependency is an edge between the nodes of its ends, and there are no others. -/
theorem Records.dependsOn_iff (a b : ι) :
    h.DependsOn a b ↔ ∃ i j, g.find? a = some i ∧ g.find? b = some j ∧ g.Edge i j := by
  constructor
  · rintro ⟨d, hd, hda, hdb⟩
    obtain ⟨i, hi⟩ := hg.declared d hd
    rw [find?_eq_of_beq hda] at hi
    obtain ⟨n, hn, hna⟩ := (hg.indexed a i).mp hi
    have hlocates := hg.edges i n hn
    have htarget : (targetsOf h.declares n.id).contains b := by
      rw [targetsOf, contains_eraseDups, List.contains_iff_exists_mem_beq]
      refine ⟨d.2, List.mem_map_of_mem (List.mem_filter.mpr ⟨hd, ?_⟩), PartialEquivBEq.symm hdb⟩
      exact PartialEquivBEq.trans hda (PartialEquivBEq.symm hna)
    obtain ⟨c, hc, hbc⟩ := List.contains_iff_exists_mem_beq.mp htarget
    obtain ⟨j, hj, hcj⟩ := hlocates.exists_find? hc
    refine ⟨i, j, hi, by rw [find?_eq_of_beq hbc, hcj], ?_⟩
    rw [Edge, successors_of_node hn]
    exact hj
  · rintro ⟨i, j, hi, hj, hedge⟩
    obtain ⟨n, hn, hna⟩ := (hg.indexed a i).mp hi
    rw [Edge, successors_of_node hn, (hg.edges i n hn).mem_iff] at hedge
    obtain ⟨c, hc, hcj⟩ := hedge
    obtain ⟨d, hd, rfl⟩ := List.mem_map.mp (List.mem_of_find?_eq_some (find?_of_mem_eraseDups hc))
    obtain ⟨hd, hdn⟩ := List.mem_filter.mp hd
    exact ⟨d, hd, PartialEquivBEq.trans hdn hna, hg.indexed.beq hcj hj⟩

omit [EquivBEq ι] [LawfulHashable ι] in
/-- No walk has begun. -/
theorem Records.untouched : g.Untouched := by
  intro i v hv
  obtain ⟨n, hn, rfl⟩ := Option.map_eq_some_iff.mp hv
  rw [← hg.unvisited i n hn]
  rfl

omit [EquivBEq ι] [LawfulHashable ι] in
/-- All edges lead to nodes. -/
theorem Records.closed : g.Closed := by
  intro i j hij
  obtain ⟨n, hn⟩ := (g.exists_node_iff i).mpr hij.source_lt
  rw [Edge, successors_of_node hn, (hg.edges i n hn).mem_iff] at hij
  obtain ⟨b, _, hb⟩ := hij
  exact hg.indexed.lt_size hb

omit [LawfulHashable ι] in
/-- Each node is found. -/
theorem Records.exists_find? {i : NodeIndex} (hi : i < g.size) : ∃ a, g.find? a = some i := by
  obtain ⟨n, hn⟩ := (g.exists_node_iff i).mpr hi
  exact ⟨n.id, hg.indexed.find?_of_node hn⟩

/-- Chains of dependencies are chains of edges. -/
theorem Records.transGen_iff (a b : ι) :
    TransGen h.DependsOn a b ↔
      ∃ i j, g.find? a = some i ∧ g.find? b = some j ∧ TransGen g.Edge i j := by
  constructor
  · intro hab
    induction hab with
    | single hab =>
      obtain ⟨i, j, hi, hj, hij⟩ := (hg.dependsOn_iff _ _).mp hab
      exact ⟨i, j, hi, hj, .single hij⟩
    | tail _ hbc ih =>
      obtain ⟨i, j, hi, hj, hij⟩ := ih
      obtain ⟨j', k, hj', hk, hjk⟩ := (hg.dependsOn_iff _ _).mp hbc
      rw [hj] at hj'
      cases hj'
      exact ⟨i, k, hi, hk, hij.tail hjk⟩
  · rintro ⟨i, j, hi, hj, hij⟩
    induction hij generalizing b with
    | single hij => exact .single ((hg.dependsOn_iff a b).mpr ⟨i, _, hi, hj, hij⟩)
    | tail _ hkj ih =>
      obtain ⟨c, hc⟩ := hg.exists_find? hkj.source_lt
      exact (ih c hc).tail ((hg.dependsOn_iff c b).mpr ⟨_, _, hc, hj, hkj⟩)

/-- Dependencies reach what edges reach. -/
theorem Records.reaches_iff {a b : ι} {i j : NodeIndex} (ha : g.find? a = some i)
    (hb : g.find? b = some j) : h.Reaches a b ↔ ReflTransGen g.Edge i j := by
  rw [History.Reaches, hg.transGen_iff, Relation.reflTransGen_iff_eq_or_transGen]
  constructor
  · rintro (hab | ⟨i', j', hi, hj, hij⟩)
    · rw [find?_eq_of_beq hab, hb] at ha
      exact .inl (Option.some.inj ha)
    · rw [ha] at hi
      rw [hb] at hj
      cases hi
      cases hj
      exact .inr hij
  · rintro (rfl | hij)
    · exact .inl (hg.indexed.beq ha hb)
    · exact .inr ⟨i, j, ha, hb, hij⟩

/-- What is reached from an identifier that is found is found. -/
theorem Records.exists_find?_of_reaches {a b : ι} {i : NodeIndex} (ha : g.find? a = some i)
    (hab : h.Reaches a b) : ∃ j, g.find? b = some j := by
  rcases hab with hab | hab
  · exact ⟨i, by rw [← find?_eq_of_beq hab, ha]⟩
  · obtain ⟨_, j, _, hj, _⟩ := (hg.transGen_iff a b).mp hab
    exact ⟨j, hj⟩

/-- Dependencies are cyclic exactly where edges are. -/
theorem Records.cyclic_iff : h.Cyclic ↔ ∃ i, TransGen g.Edge i i := by
  constructor
  · rintro ⟨a, ha⟩
    obtain ⟨i, j, hi, hj, hij⟩ := (hg.transGen_iff a a).mp ha
    rw [hi] at hj
    cases hj
    exact ⟨i, hij⟩
  · rintro ⟨i, hii⟩
    obtain ⟨j, hij, _⟩ := Relation.TransGen.head'_iff.mp hii
    obtain ⟨a, ha⟩ := hg.exists_find? hij.source_lt
    exact ⟨a, (hg.transGen_iff a a).mpr ⟨i, i, ha, ha, hii⟩⟩

end

end Graph

namespace Registry

variable [EquivBEq ι] [LawfulHashable ι]

/-- A registry is walked from the nodes of the starts of its history. -/
theorem locates_starts (options : Options) (h : History ι α) :
    (ofHistory options h).graph.Locates h.starts (ofHistory options h).starts := by
  have hr := represents_ofHistory options h
  have hids := hr.records.locates_identifiers
  rw [Graph.Locates, History.starts, starts, List.map_append, List.map_append, hr.roots, hids]
  rfl

omit [Hashable ι] [EquivBEq ι] [LawfulHashable ι] in
/-- Exactly the identifiers that are registered have a payload. -/
theorem isSome_latest (ps : List (ι × α)) (a : ι) :
    (latest ps a).isSome = ps.any (·.1 == a) := by
  rw [latest, Option.isSome_map, List.isSome_find?, List.any_reverse]

/-- The unresolved entities are those that the history never registers. -/
theorem unresolved_ofHistory (options : Options) (h : History ι α) :
    (ofHistory options h).unresolved = h.missing := by
  have hr := (represents_ofHistory options h).records
  rw [unresolved, History.missing, History.identifiers, ← hr.names, List.filter_map]
  congr 1
  apply List.filter_congr
  intro n hn
  obtain ⟨i, hi⟩ := Array.getElem?_of_mem (Array.mem_toList_iff.mp hn)
  rw [Node.hasPayload, hr.payload i n hi, isSome_latest]
  rfl

end Registry

end Precedence
