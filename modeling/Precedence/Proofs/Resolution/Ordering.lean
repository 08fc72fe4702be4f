import Precedence.Proofs.Resolution.Resolving

/-!
# What an order is worth

An order holds each identifier of its history once, each after everything it depends on, and all
nodes have been left in this order. The views of a resolution are read off the collected indices,
which are exactly those of the graph.
-/

namespace Precedence

variable {ι α : Type} [BEq ι] [Hashable ι]

/-! ### The collected indices -/

namespace Collecting

variable {g₀ g : Graph ι α} {starts : List NodeIndex} {order : Array NodeIndex}

/-- If every node is a start, every node is collected. -/
theorem mem_order_iff (h : Collecting g₀ starts g order) (hall : ∀ i < g₀.size, i ∈ starts)
    (i : NodeIndex) : i ∈ order ↔ i < g₀.size := by
  rw [h.collected.mem_iff]
  constructor
  · intro hi
    rw [← Graph.size_congr h.reset_eq]
    exact hi.lt_size
  · intro hi
    exact h.isFinished i (hall i hi)

/-- The collected indices are those of the graph in another order. -/
theorem perm_range (h : Collecting g₀ starts g order) (hall : ∀ i < g₀.size, i ∈ starts) :
    order.toList.Perm (List.range g₀.size) := by
  rw [List.perm_ext_iff_of_nodup h.collected.nodup List.nodup_range]
  intro i
  rw [Array.mem_toList_iff, h.mem_order_iff hall, List.mem_range]

end Collecting

/-- A collected node has a position. -/
theorem exists_idxOf? {order : Array NodeIndex} {i : NodeIndex} (hi : i ∈ order) :
    ∃ p, order.idxOf? i = some p ∧ order[p]? = some i := by
  obtain ⟨p, hp⟩ := Option.isSome_iff_exists.mp (Array.isSome_idxOf?.mpr hi)
  refine ⟨p, hp, ?_⟩
  cases order with
  | mk is =>
    rw [List.idxOf?_toArray] at hp
    obtain ⟨hlt, heq, _⟩ := List.idxOf?_eq_some_iff.mp hp
    rw [List.getElem?_toArray, List.getElem?_eq_getElem hlt, heq]

/-- Of two collected nodes the one that stands earlier was left earlier. -/
theorem Collected.exit_lt {g : Graph ι α} {order : Array NodeIndex} (h : Collected g order)
    {i j p q : Nat} (hp : order[p]? = some i) (hq : order[q]? = some j) (hpq : p < q) :
    ∃ t u, g.exit? i = some t ∧ g.exit? j = some u ∧ t < u := by
  rw [← Array.getElem?_toList] at hp hq
  obtain ⟨hplt, rfl⟩ := List.getElem?_eq_some_iff.mp hp
  obtain ⟨hqlt, rfl⟩ := List.getElem?_eq_some_iff.mp hq
  exact List.pairwise_iff_getElem.mp h.increasing p q hplt hqlt hpq

private theorem Collected.lt_of_exit_lt {g : Graph ι α} {order : Array NodeIndex}
    (h : Collected g order)
    {i j p q t u : Nat} (hp : order[p]? = some j) (hq : order[q]? = some i)
    (hj : g.exit? j = some u) (hi : g.exit? i = some t) (hut : u < t) : p < q := by
  rcases Nat.lt_trichotomy p q with hpq | rfl | hqp
  · exact hpq
  · rw [hp, Option.some.injEq] at hq
    rw [hq, hi, Option.some.injEq] at hj
    omega
  · obtain ⟨t', u', ht', hu', htu⟩ := h.exit_lt hq hp hqp
    rw [hi] at ht'
    rw [hj] at hu'
    cases ht'
    cases hu'
    omega

/-- The target of an edge has a place before its source. -/
theorem Collecting.position_lt {g₀ g : Graph ι α} {starts : List NodeIndex}
    {order : Array NodeIndex} (h : Collecting g₀ starts g order)
    (hall : ∀ i < g₀.size, i ∈ starts) {i j : NodeIndex} (hij : g₀.Edge i j) :
    ∃ p q, order.idxOf? j = some p ∧ order.idxOf? i = some q ∧ p < q := by
  obtain ⟨t, ht⟩ := h.isFinished i (hall i hij.source_lt)
  rw [← Graph.edge_congr h.reset_eq] at hij
  obtain ⟨u, hu, hut⟩ := h.clean.settled i j hij t ht
  obtain ⟨p, hp, hpj⟩ := exists_idxOf? ((h.collected.mem_iff j).mpr ⟨u, hu⟩)
  obtain ⟨q, hq, hqi⟩ := exists_idxOf? ((h.collected.mem_iff i).mpr ⟨t, ht⟩)
  exact ⟨p, q, hp, hq, h.collected.lt_of_exit_lt hpj hqi hu ht hut⟩

/-! ### The views -/

/-- A result of which something is read is a success. -/
theorem exists_ok_of_map_toOption {ε β γ : Type} {e : Except ε β} {f : β → γ} {c : γ}
    (h : e.toOption.map f = some c) : ∃ b, e = .ok b ∧ f b = c := by
  cases e with
  | error e => cases h
  | ok b => exact ⟨b, rfl, Option.some.inj h⟩

namespace Resolution

/-- A resolution is an order of what a history mentions. -/
structure Orders (res : Resolution ι α) (h : History ι α) : Prop where
  /-- Each identifier that is mentioned is there once, and no other. -/
  complete : ∃ ids, res.ids = .ok ids ∧
    ∀ a, ids.countP (· == a) = if h.mentions.contains a then 1 else 0
  /-- Dependencies come first. -/
  dependencies_first : ∀ a b, h.DependsOn a b →
    ∃ p q, res.position? b = some p ∧ res.position? a = some q ∧ p < q
  /-- Every node has been left. -/
  finished : ∀ n ∈ res.graph.nodes, n.isFinished
  /-- The nodes stand as they were left. -/
  stamped : ∃ ns : List (Node ι α), res.nodes = .ok ns ∧ ns.Pairwise fun m n =>
    ∃ t u, m.exitTime? = some t ∧ n.exitTime? = some u ∧ t < u

end Resolution

section
variable {g₀ g : Graph ι α} {starts : List NodeIndex} {order : Array NodeIndex}

/-- The nodes of an order stand as they were left. -/
theorem Collected.exists_nodes (h : Collected g order) :
    ∃ ns : List (Node ι α), (Resolution.mk g order).nodes = .ok ns ∧
      order.toList.map (g.nodes[·]?) = ns.map some ∧
      ns.Pairwise fun m n => ∃ t u, m.exitTime? = some t ∧ n.exitTime? = some u ∧ t < u := by
  have hlt : ∀ i ∈ order.toList, i < g.size :=
    fun i hi => ((h.mem_iff i).mp (Array.mem_toList_iff.mp hi)).lt_size
  obtain ⟨ns, hns, hmap⟩ := g.exists_mapM_node hlt
  refine ⟨ns, hns, hmap, ?_⟩
  have hincreasing := h.increasing
  -- The readings are those of the looked-up nodes, so the map of indices to nodes carries over.
  let earlier (x y : Option (Node ι α)) : Prop :=
    ∃ t u, (x.map (·.visit)).bind (·.exitTime?) = some t ∧
      (y.map (·.visit)).bind (·.exitTime?) = some u ∧ t < u
  have hlooked : (order.toList.map (g.nodes[·]?)).Pairwise earlier :=
    List.pairwise_map.mpr hincreasing
  rw [hmap, List.pairwise_map] at hlooked
  exact hlooked

/-- The identifiers of an order are those of the collected indices. -/
theorem Collecting.exists_map_id? (h : Collecting g₀ starts g order) :
    ∃ ids, (Resolution.mk g order).ids = .ok ids ∧ order.toList.map g₀.id? = ids.map some := by
  obtain ⟨ns, hns, hmap, _⟩ := h.collected.exists_nodes
  refine ⟨ns.map (·.id), by rw [Resolution.ids, hns]; rfl, ?_⟩
  calc order.toList.map g₀.id?
      = (order.toList.map (g.nodes[·]?)).map (Option.map (·.id)) := by
        rw [← Graph.id?_congr h.reset_eq, List.map_map]
        rfl
    _ = (ns.map (·.id)).map some := by
        rw [hmap, List.map_map, List.map_map]
        rfl

private theorem Collecting.exists_ids (h : Collecting g₀ starts g order)
    (hall : ∀ i < g₀.size, i ∈ starts) :
    ∃ ids, (Resolution.mk g order).ids = .ok ids ∧ ids.Perm (g₀.nodes.toList.map (·.id)) := by
  obtain ⟨ids, hids, hmap⟩ := h.exists_map_id?
  refine ⟨ids, hids, ?_⟩
  rw [← List.map_perm_map_iff fun _ _ => Option.some.inj, ← hmap, ← g₀.map_id?_range]
  exact (h.perm_range hall).map g₀.id?

end

namespace Registry

variable [EquivBEq ι] [LawfulHashable ι]

/-- Whatever a history is resolved to is an order of what it mentions. -/
theorem orders_of_resolve (options : Options) (h : History ι α) {res : Resolution ι α}
    (hres : (ofHistory options h).resolve = .ok res) : res.Orders h := by
  have hr := resolves_ofHistory options h
  rw [hres] at hr
  cases hr with
  | @ok g order ht hg =>
    have hrecords := (represents_ofHistory options h).records
    have hall : ∀ i < (ofHistory options h).graph.size, i ∈ (ofHistory options h).starts :=
      fun i hi => List.mem_append_right _ (List.mem_range.mpr hi)
    obtain ⟨ids, hids, hperm⟩ := hg.exists_ids hall
    obtain ⟨ns, hns, _, hstamped⟩ := hg.collected.exists_nodes
    refine ⟨⟨ids, hids, ?_⟩, ?_, ?_, ⟨ns, hns, hstamped⟩⟩
    · intro a
      rw [hperm.countP_eq, hrecords.names, countP_eraseDups]
    · intro a b hab
      obtain ⟨i, j, hi, hj, hij⟩ := (hrecords.dependsOn_iff a b).mp hab
      rw [← Graph.find?_congr hg.reset_eq] at hi hj
      obtain ⟨p, q, hp, hq, hpq⟩ := hg.position_lt hall hij
      exact ⟨p, q, by simp [Resolution.position?, hj, hp], by simp [Resolution.position?, hi, hq],
        hpq⟩
    · intro n hn
      obtain ⟨i, hi⟩ := Array.getElem?_of_mem hn
      have hlt : i < g.size := (g.exists_node_iff i).mp ⟨n, hi⟩
      rw [Graph.size_congr hg.reset_eq] at hlt
      obtain ⟨t, ht⟩ := hg.isFinished i (hall i hlt)
      rw [Graph.exit?_of_node hi] at ht
      have hstate := n.visit.exitTime?_isSome_iff.mp (Option.isSome_iff_exists.mpr ⟨t, ht⟩)
      simp [Node.isFinished, Node.state, hstate]

/-- A dependency that two entities share, and that nobody registers, comes before both. -/
theorem orders_of_resolve_shared :
    ∃ res, (ofHistory .lenient ([.node 1 (), .dependencies 1 [2, 3], .declaration ⟨2, (), [4]⟩,
        .dependencies 3 [4]] : History Nat Unit)).resolve = .ok res ∧
      res.order = #[3, 1, 2, 0] ∧
      res.Orders [.node 1 (), .dependencies 1 [2, 3], .declaration ⟨2, (), [4]⟩,
        .dependencies 3 [4]] := by
  have horder : (ofHistory .lenient ([.node 1 (), .dependencies 1 [2, 3],
      .declaration ⟨2, (), [4]⟩, .dependencies 3 [4]] : History Nat Unit)).resolve.toOption.map
        (·.order) = some #[3, 1, 2, 0] := by cbv
  obtain ⟨res, hres, hread⟩ := exists_ok_of_map_toOption horder
  exact ⟨res, hres, hread, orders_of_resolve .lenient _ hres⟩

end Registry

end Precedence
