import Precedence.Proofs.Graph.Skeleton
import Precedence.Proofs.Registry.Distinct
import Precedence.Registry.History

/-!
# What the graph of a registry records

A node for each identifier in order of first mention, the distinct dependencies of each in order
of first declaration, and the payload given last. `Graph.Records` says that this is all there is,
for any lists of mentions, declarations and payloads, and each operation on the graph adds one
entry to one of these lists.
-/

namespace Precedence

variable {ι α : Type} [BEq ι] [Hashable ι]

namespace Graph

/-! ### Finding nodes -/

/-- The lookup finds each node by all spellings of its identifier, and nothing else. -/
def Indexed (g : Graph ι α) : Prop :=
  ∀ a i, g.find? a = some i ↔ ∃ n, g.nodes[i]? = some n ∧ n.id == a

/-- What was found is found in the same place. -/
def Keeps (g g' : Graph ι α) : Prop := ∀ a i, g.find? a = some i → g'.find? a = some i

/-- The nodes of a list of identifiers. -/
def Locates (g : Graph ι α) (as : List ι) (is : List NodeIndex) : Prop :=
  as.map g.find? = is.map some

theorem Keeps.trans {g g' g'' : Graph ι α} (h : g.Keeps g') (h' : g'.Keeps g'') : g.Keeps g'' :=
  fun a i ha => h' a i (h a i ha)

/-- The identifiers determine their nodes. -/
theorem Locates.unique {g : Graph ι α} {as : List ι} {is js : List NodeIndex}
    (h : g.Locates as is) (h' : g.Locates as js) : is = js :=
  (List.map_inj_right fun _ _ => Option.some.inj).mp (h.symm.trans h')

/-- Exactly the nodes that are located belong to one of the identifiers. -/
theorem Locates.mem_iff {g : Graph ι α} {as : List ι} {is : List NodeIndex}
    (h : g.Locates as is) (i : NodeIndex) : i ∈ is ↔ ∃ a ∈ as, g.find? a = some i := by
  have hmem : some i ∈ is.map some ↔ i ∈ is := by simp
  rw [← hmem, ← h, List.mem_map]

/-- Each of the identifiers has its node among those that are located. -/
theorem Locates.exists_find? {g : Graph ι α} {as : List ι} {is : List NodeIndex}
    (h : g.Locates as is) {a : ι} (ha : a ∈ as) : ∃ i ∈ is, g.find? a = some i := by
  have hm : g.find? a ∈ is.map some := by
    rw [← h]
    exact List.mem_map_of_mem ha
  obtain ⟨i, hi, hia⟩ := List.mem_map.mp hm
  exact ⟨i, hi, hia.symm⟩

/-- Nodes are located where they are found in the same place. -/
theorem Locates.keep {g g' : Graph ι α} {as : List ι} {is : List NodeIndex}
    (h : g.Locates as is) (hk : g.Keeps g') : g'.Locates as is := by
  have hfind : ∀ a ∈ as, g'.find? a = g.find? a := by
    intro a ha
    obtain ⟨i, _, hi⟩ := h.exists_find? ha
    rw [hi, hk a i hi]
  rw [Locates, List.map_congr_left hfind]
  exact h

/-- Where the identifiers are cut, the nodes may be cut. -/
theorem Locates.of_append {g : Graph ι α} {as bs : List ι} {is : List NodeIndex}
    (h : g.Locates (as ++ bs) is) :
    ∃ js ks, is = js ++ ks ∧ g.Locates as js ∧ g.Locates bs ks := by
  rw [Locates, List.map_append] at h
  obtain ⟨js, ks, his, hjs, hks⟩ := List.map_eq_append_iff.mp h.symm
  exact ⟨js, ks, his, hjs.symm, hks.symm⟩

/-- Where the nodes are cut, the identifiers may be cut. -/
theorem Locates.split {g : Graph ι α} {as : List ι} {is js : List NodeIndex} {i : NodeIndex}
    (h : g.Locates as (is ++ i :: js)) :
    ∃ before a after, as = before ++ a :: after ∧ g.Locates before is ∧ g.find? a = some i := by
  rw [Locates, List.map_append, List.map_cons] at h
  obtain ⟨before, rest, has, hbefore, hrest⟩ := List.map_eq_append_iff.mp h
  obtain ⟨a, after, hcons, ha, _⟩ := List.map_eq_cons_iff.mp hrest
  exact ⟨before, a, after, by rw [has, hcons], hbefore, ha⟩

section
variable [EquivBEq ι] [LawfulHashable ι] {g : Graph ι α}

/-- All spellings of an identifier find the same node. -/
theorem find?_eq_of_beq {a b : ι} (h : a == b) : g.find? a = g.find? b :=
  Std.HashMap.getElem?_congr h

omit [LawfulHashable ι] in
theorem Indexed.find?_of_node (h : g.Indexed) {i : NodeIndex} {n : Node ι α}
    (hi : g.nodes[i]? = some n) : g.find? n.id = some i :=
  (h n.id i).mpr ⟨n, hi, BEq.refl n.id⟩

omit [EquivBEq ι] [LawfulHashable ι] in
/-- What is found is in the arena. -/
theorem Indexed.lt_size (h : g.Indexed) {a : ι} {i : NodeIndex} (ha : g.find? a = some i) :
    i < g.size := by
  obtain ⟨n, hn, -⟩ := (h a i).mp ha
  exact (g.exists_node_iff i).mp ⟨n, hn⟩

omit [LawfulHashable ι] in
/-- Identifiers that find the same node are equal. -/
theorem Indexed.beq (h : g.Indexed) {a b : ι} {i : NodeIndex} (ha : g.find? a = some i)
    (hb : g.find? b = some i) : a == b := by
  obtain ⟨n, hn, hna⟩ := (h a i).mp ha
  obtain ⟨m, hm, hmb⟩ := (h b i).mp hb
  rw [hn] at hm
  cases hm
  exact PartialEquivBEq.trans (PartialEquivBEq.symm hna) hmb

omit [LawfulHashable ι] in
/-- Identifiers that are not equal have different nodes. -/
theorem Locates.nodup (hg : g.Indexed) {as : List ι} {is : List NodeIndex} (h : g.Locates as is)
    (hdistinct : as.Pairwise fun a b => (a == b) = false) : is.Nodup := by
  have hfind : (as.map g.find?).Nodup := by
    refine List.pairwise_map.mpr (hdistinct.imp_of_mem ?_)
    intro a b ha _ hab heq
    obtain ⟨i, _, hi⟩ := h.exists_find? ha
    have hbeq : a == b := hg.beq hi (heq ▸ hi)
    rw [hab] at hbeq
    cases hbeq
  rw [h] at hfind
  exact (List.pairwise_map.mp hfind).imp fun hij heq => hij (congrArg some heq)

/-- The node of an identifier is located exactly if an equal one is among the identifiers. -/
theorem Locates.mem_iff_contains (hg : g.Indexed) {as : List ι} {is : List NodeIndex}
    (h : g.Locates as is) {a : ι} {i : NodeIndex} (ha : g.find? a = some i) :
    i ∈ is ↔ as.contains a := by
  rw [List.contains_iff_exists_mem_beq, h.mem_iff]
  constructor
  · rintro ⟨b, hb, hbi⟩
    exact ⟨b, hb, hg.beq ha hbi⟩
  · rintro ⟨b, hb, hab⟩
    exact ⟨b, hb, by rw [← find?_eq_of_beq hab, ha]⟩

/-- One more identifier adds its node unless it is there. -/
theorem Locates.concat (hg : g.Indexed) {as : List ι} {is : List NodeIndex}
    (h : g.Locates as.eraseDups is) {a : ι} {i : NodeIndex} (ha : g.find? a = some i) :
    g.Locates (as ++ [a]).eraseDups (if i ∈ is then is else is ++ [i]) := by
  have hiff := h.mem_iff_contains hg ha
  rw [eraseDups_concat]
  by_cases hi : i ∈ is
  · rw [if_pos hi, if_pos (hiff.mp hi)]
    exact h
  · rw [if_neg hi, if_neg (fun hc => hi (hiff.mpr hc)), Locates, List.map_append, List.map_append, h]
    simp [ha]

end

/-! ### Interning -/

omit [BEq ι] [Hashable ι] in
private theorem getElem?_push_eq_some {ns : Array (Node ι α)} {m n : Node ι α} {i : NodeIndex} :
    (ns.push m)[i]? = some n ↔ ns[i]? = some n ∨ i = ns.size ∧ n = m := by
  rw [Array.getElem?_push]
  split
  · next hi =>
    subst hi
    simp [eq_comm]
  · next hi => simp [hi]

theorem intern_of_some {g : Graph ι α} {a : ι} {i : NodeIndex} (h : g.find? a = some i) :
    g.intern a = (g, i) := by
  rw [find?] at h
  simp [intern, h]

theorem intern_of_none {g : Graph ι α} {a : ι} (h : g.find? a = none) :
    g.intern a =
      ({ g with nodes := g.nodes.push { id := a }, lookup := g.lookup.insert a g.size },
        g.size) := by
  rw [find?] at h
  simp [intern, h, size]

section
variable [EquivBEq ι] [LawfulHashable ι]

private theorem find?_insert (g : Graph ι α) (ns : Array (Node ι α)) (a b : ι) :
    ({ g with nodes := ns, lookup := g.lookup.insert a g.size } : Graph ι α).find? b =
      if a == b then some g.size else g.find? b :=
  Std.HashMap.getElem?_insert

/-- An identifier is found where it has been interned. -/
theorem find?_intern_self (g : Graph ι α) (a : ι) :
    (g.intern a).1.find? a = some (g.intern a).2 := by
  cases h : g.find? a with
  | some i =>
    rw [intern_of_some h]
    exact h
  | none => rw [intern_of_none h, find?_insert, if_pos (BEq.refl a)]

/-- Interning keeps all nodes in their places. -/
theorem keeps_intern (g : Graph ι α) (a : ι) : g.Keeps (g.intern a).1 := by
  intro b i hb
  cases h : g.find? a with
  | some j =>
    rw [intern_of_some h]
    exact hb
  | none =>
    rw [intern_of_none h, find?_insert, if_neg, hb]
    intro hab
    rw [find?_eq_of_beq hab, hb] at h
    cases h

/-- Interning keeps the lookup exact. -/
theorem Indexed.intern {g : Graph ι α} (hg : g.Indexed) (a : ι) : (g.intern a).1.Indexed := by
  cases h : g.find? a with
  | some i =>
    rw [intern_of_some h]
    exact hg
  | none =>
    intro b i
    rw [intern_of_none h, find?_insert]
    simp only [getElem?_push_eq_some]
    split
    · next hab =>
      constructor
      · intro hi
        cases hi
        exact ⟨_, .inr ⟨rfl, rfl⟩, hab⟩
      · rintro ⟨n, hn | ⟨rfl, rfl⟩, hnb⟩
        · have ha := (hg a i).mpr ⟨n, hn, PartialEquivBEq.trans hnb (PartialEquivBEq.symm hab)⟩
          rw [h] at ha
          cases ha
        · rfl
    · next hab =>
      rw [hg b i]
      constructor
      · rintro ⟨n, hn, hnb⟩
        exact ⟨n, .inl hn, hnb⟩
      · rintro ⟨n, hn | ⟨rfl, rfl⟩, hnb⟩
        · exact ⟨n, hn, hnb⟩
        · exact absurd hnb hab

end

/-! ### What a graph records -/

/-- A graph holds exactly what is mentioned, declared and given. -/
structure Records (g : Graph ι α) (ms : List ι) (ds : List (ι × ι)) (ps : List (ι × α)) :
    Prop where
  indexed : g.Indexed
  names : g.nodes.toList.map (·.id) = ms.eraseDups
  edges : ∀ (i : NodeIndex) (n : Node ι α), g.nodes[i]? = some n →
    g.Locates (targetsOf ds n.id) n.neighbors
  payload : ∀ (i : NodeIndex) (n : Node ι α), g.nodes[i]? = some n → n.payload = latest ps n.id
  unvisited : ∀ (i : NodeIndex) (n : Node ι α), g.nodes[i]? = some n → n.unvisited = n
  declared : ∀ d ∈ ds, ∃ i, g.find? d.1 = some i
  registered : ∀ p ∈ ps, ∃ i, g.find? p.1 = some i
  directed : g.directed = true
  clock : g.clock = 0

/-- An empty graph records nothing. -/
theorem records_empty : (empty : Graph ι α).Records [] [] [] where
  indexed := by
    intro a i
    simp [empty, find?]
  names := rfl
  edges := by simp [empty]
  payload := by simp [empty]
  unvisited := by simp [empty]
  declared := by simp
  registered := by simp
  directed := rfl
  clock := rfl

omit [Hashable ι] in
/-- Who declares nothing has no dependencies. -/
theorem targetsOf_eq_nil {ds : List (ι × ι)} {a : ι} (h : ∀ d ∈ ds, ¬ d.1 == a) :
    targetsOf ds a = [] := by
  have hf : ds.filter (·.1 == a) = [] := List.filter_eq_nil_iff.mpr h
  simp [targetsOf, hf]

omit [Hashable ι] in
private theorem targetsOf_concat (ds : List (ι × ι)) (a b c : ι) :
    targetsOf (ds ++ [(a, b)]) c =
      if a == c then (((ds.filter (·.1 == c)).map (·.2)) ++ [b]).eraseDups
      else targetsOf ds c := by
  cases hac : a == c <;> simp [targetsOf, hac]

omit [Hashable ι] in
/-- Who is given nothing has no payload. -/
theorem latest_eq_none {ps : List (ι × α)} {a : ι} (h : ∀ p ∈ ps, ¬ p.1 == a) :
    latest ps a = none := by
  have hf : ps.reverse.find? (·.1 == a) = none := by
    rw [List.find?_eq_none]
    intro p hp
    exact h p (List.mem_reverse.mp hp)
  rw [latest, hf, Option.map_none]

omit [Hashable ι] in
private theorem latest_concat (ps : List (ι × α)) (a c : ι) (payload : α) :
    latest (ps ++ [(a, payload)]) c = if a == c then some payload else latest ps c := by
  cases hac : a == c <;> simp [latest, hac]

omit [BEq ι] [Hashable ι] in
private theorem neighbors_addNeighbor (n : Node ι α) (j : NodeIndex) :
    (n.addNeighbor j).neighbors =
      if j ∈ n.neighbors then n.neighbors else n.neighbors ++ [j] := by
  unfold Node.addNeighbor
  split <;> rfl

omit [BEq ι] [Hashable ι] in
private theorem id_addNeighbor (n : Node ι α) (j : NodeIndex) : (n.addNeighbor j).id = n.id := by
  unfold Node.addNeighbor
  split <;> rfl

omit [BEq ι] [Hashable ι] in
private theorem payload_addNeighbor (n : Node ι α) (j : NodeIndex) :
    (n.addNeighbor j).payload = n.payload := by
  unfold Node.addNeighbor
  split <;> rfl

omit [BEq ι] [Hashable ι] in
private theorem unvisited_addNeighbor {n : Node ι α} (h : n.unvisited = n) (j : NodeIndex) :
    (n.addNeighbor j).unvisited = n.addNeighbor j := by
  unfold Node.addNeighbor
  split
  · exact h
  · rw [Node.mk.injEq] at h
    simp [Node.unvisited, ← h.2.2.1, ← h.2.2.2.2]

omit [BEq ι] [Hashable ι] in
private theorem id_withPayload (n : Node ι α) (payload : α) : (n.withPayload payload).id = n.id :=
  rfl

omit [BEq ι] [Hashable ι] in
private theorem unvisited_withPayload {n : Node ι α} (h : n.unvisited = n) (payload : α) :
    (n.withPayload payload).unvisited = n.withPayload payload := by
  rw [Node.mk.injEq] at h
  simp [Node.unvisited, Node.withPayload, ← h.2.2.1, ← h.2.2.2.2]

private theorem forall_node_modify {P : Node ι α → Prop} {g : Graph ι α} {i : NodeIndex}
    {f : Node ι α → Node ι α} (hself : ∀ m, g.nodes[i]? = some m → P (f m))
    (hother : ∀ k m, k ≠ i → g.nodes[k]? = some m → P m) (k : NodeIndex) (n : Node ι α)
    (hn : (g.modify i f).nodes[k]? = some n) : P n := by
  simp only [modify, Array.getElem?_modify] at hn
  split at hn
  · next hik =>
    obtain ⟨m, hm, rfl⟩ := Option.map_eq_some_iff.mp hn
    subst hik
    exact hself m hm
  · next hik => exact hother k n (Ne.symm hik) hn

private theorem names_modify (g : Graph ι α) (i : NodeIndex) {f : Node ι α → Node ι α}
    (hf : ∀ n, (f n).id = n.id) :
    (g.modify i f).nodes.toList.map (·.id) = g.nodes.toList.map (·.id) := by
  apply List.ext_getElem?
  intro k
  simp only [modify, Array.toList_modify, List.getElem?_map, List.getElem?_modify]
  cases g.nodes.toList[k]? with
  | none => rfl
  | some n =>
    split
    · exact congrArg some (hf n)
    · rfl

/-- Changing a node but not its identifier keeps the lookup exact. -/
theorem Indexed.modify {g : Graph ι α} (h : g.Indexed) {f : Node ι α → Node ι α}
    (hf : ∀ n, (f n).id = n.id) (i : NodeIndex) : (g.modify i f).Indexed := by
  intro a k
  rw [show (g.modify i f).find? a = g.find? a from rfl, h a k]
  simp only [Graph.modify, Array.getElem?_modify]
  split
  · constructor
    · rintro ⟨n, hn, hna⟩
      exact ⟨f n, by rw [hn, Option.map_some], by rw [hf]; exact hna⟩
    · rintro ⟨n, hn, hna⟩
      obtain ⟨m, hm, rfl⟩ := Option.map_eq_some_iff.mp hn
      exact ⟨m, hm, by rw [← hf]; exact hna⟩
  · rfl

section
variable [EquivBEq ι] [LawfulHashable ι] {g : Graph ι α} {ms : List ι} {ds : List (ι × ι)}
  {ps : List (ι × α)}

/-- Interning records a mention. -/
theorem Records.intern (h : g.Records ms ds ps) (a : ι) :
    (g.intern a).1.Records (ms ++ [a]) ds ps := by
  have hindexed := h.indexed.intern a
  have hkeeps := g.keeps_intern a
  have hkept : ∀ b, (∃ i, g.find? b = some i) → ∃ i, (g.intern a).1.find? b = some i :=
    fun b ⟨i, hi⟩ => ⟨i, hkeeps b i hi⟩
  cases hfind : g.find? a with
  | some i =>
    have hcontains : ms.eraseDups.contains a := by
      obtain ⟨n, hn, hna⟩ := (h.indexed a i).mp hfind
      rw [List.contains_iff_exists_mem_beq, ← h.names]
      exact ⟨n.id, List.mem_map_of_mem (Array.mem_toList_iff.mpr (Array.mem_of_getElem? hn)),
        PartialEquivBEq.symm hna⟩
    rw [intern_of_some hfind]
    exact { h with names := by rw [eraseDups_concat, if_pos hcontains]; exact h.names }
  | none =>
    -- Nothing is declared for a new identifier, nor given to it: what is has been found.
    have hnew : ∀ b, (∃ i, g.find? b = some i) → ¬ b == a := by
      rintro b ⟨i, hi⟩ hba
      rw [find?_eq_of_beq hba, hfind] at hi
      cases hi
    have hcontains : ¬ ms.eraseDups.contains a := by
      rw [List.contains_iff_exists_mem_beq, ← h.names]
      rintro ⟨b, hb, hab⟩
      obtain ⟨n, hn, rfl⟩ := List.mem_map.mp hb
      obtain ⟨i, hi⟩ := Array.getElem?_of_mem (Array.mem_toList_iff.mp hn)
      exact hnew n.id ⟨i, h.indexed.find?_of_node hi⟩ (PartialEquivBEq.symm hab)
    have hold : ∀ {i : NodeIndex} {n : Node ι α}, (g.intern a).1.nodes[i]? = some n →
        g.nodes[i]? = some n ∨ n = { id := a } := by
      intro i n hn
      rw [intern_of_none hfind] at hn
      exact (getElem?_push_eq_some.mp hn).imp_right (·.2)
    refine ⟨hindexed, ?_, ?_, ?_, ?_, fun d hd => hkept _ (h.declared d hd),
      fun p hp => hkept _ (h.registered p hp), ?_, ?_⟩
    · rw [intern_of_none hfind, eraseDups_concat, if_neg hcontains, ← h.names]
      simp
    · intro i n hn
      rcases hold hn with hn | rfl
      · exact (h.edges i n hn).keep hkeeps
      · rw [targetsOf_eq_nil fun d hd => hnew _ (h.declared d hd)]
        rfl
    · intro i n hn
      rcases hold hn with hn | rfl
      · exact h.payload i n hn
      · rw [latest_eq_none fun p hp => hnew _ (h.registered p hp)]
    · intro i n hn
      rcases hold hn with hn | rfl
      · exact h.unvisited i n hn
      · rfl
    · rw [intern_of_none hfind]
      exact h.directed
    · rw [intern_of_none hfind]
      exact h.clock

private theorem Records.beq_iff (h : g.Records ms ds ps) {a : ι} {i k : NodeIndex} {n : Node ι α}
    (ha : g.find? a = some i) (hn : g.nodes[k]? = some n) : a == n.id ↔ i = k := by
  have hk := h.indexed.find?_of_node hn
  constructor
  · intro han
    rw [find?_eq_of_beq han, hk] at ha
    exact (Option.some.inj ha).symm
  · rintro rfl
    exact h.indexed.beq ha hk

/-- Adding an edge records a dependency. -/
theorem Records.addNeighbor (h : g.Records ms ds ps) {a b : ι} {i j : NodeIndex}
    (ha : g.find? a = some i) (hb : g.find? b = some j) :
    (g.modify i (·.addNeighbor j)).Records ms (ds ++ [(a, b)]) ps := by
  refine ⟨h.indexed.modify (id_addNeighbor · j) i, ?_, ?_, ?_, ?_, ?_, h.registered, h.directed,
    h.clock⟩
  · rw [names_modify g i (id_addNeighbor · j), h.names]
  · refine forall_node_modify ?_ ?_
    · intro m hm
      have ham := (h.beq_iff ha hm).mpr rfl
      rw [id_addNeighbor, targetsOf_concat, if_pos ham, neighbors_addNeighbor]
      exact Locates.concat h.indexed (h.edges i m hm) hb
    · intro k m hki hm
      have ham : ¬ a == m.id := fun ham => hki ((h.beq_iff ha hm).mp ham).symm
      rw [targetsOf_concat, if_neg ham]
      exact h.edges k m hm
  · refine forall_node_modify ?_ fun k m _ hm => h.payload k m hm
    intro m hm
    rw [payload_addNeighbor, id_addNeighbor]
    exact h.payload i m hm
  · refine forall_node_modify ?_ fun k m _ hm => h.unvisited k m hm
    intro m hm
    exact unvisited_addNeighbor (h.unvisited i m hm) j
  · intro d hd
    rcases List.mem_append.mp hd with hd | hd
    · exact h.declared d hd
    · rw [List.mem_singleton] at hd
      rw [hd]
      exact ⟨i, ha⟩

/-- Giving a payload records it. -/
theorem Records.withPayload (h : g.Records ms ds ps) {a : ι} {i : NodeIndex}
    (ha : g.find? a = some i) (payload : α) :
    (g.modify i (·.withPayload payload)).Records ms ds (ps ++ [(a, payload)]) := by
  refine ⟨h.indexed.modify (id_withPayload · payload) i, ?_, ?_, ?_, ?_, h.declared, ?_,
    h.directed, h.clock⟩
  · rw [names_modify g i (id_withPayload · payload), h.names]
  · exact forall_node_modify (fun m hm => h.edges i m hm) fun k m _ hm => h.edges k m hm
  · refine forall_node_modify ?_ ?_
    · intro m hm
      have ham := (h.beq_iff ha hm).mpr rfl
      rw [id_withPayload, latest_concat, if_pos ham]
      rfl
    · intro k m hki hm
      have ham : ¬ a == m.id := fun ham => hki ((h.beq_iff ha hm).mp ham).symm
      rw [latest_concat, if_neg ham]
      exact h.payload k m hm
  · refine forall_node_modify ?_ fun k m _ hm => h.unvisited k m hm
    intro m hm
    exact unvisited_withPayload (h.unvisited i m hm) payload
  · intro p hp
    rcases List.mem_append.mp hp with hp | hp
    · exact h.registered p hp
    · rw [List.mem_singleton] at hp
      rw [hp]
      exact ⟨i, ha⟩

end

end Graph

end Precedence
