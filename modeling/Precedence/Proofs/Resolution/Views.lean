import Mathlib
import Precedence.Proofs.Resolution.Ordering

/-!
# The views of a resolution

Nodes, identifiers and payloads of a resolution are read off one list of nodes, whichever view is
asked for. Taking the payloads out of the graph one by one tells the same as looking at them,
because no node is ordered twice. The position of an identifier is where an equal one stands, and
what an identifier carries is what its history gave it last.
-/

namespace Precedence

variable {ι α : Type} [BEq ι] [Hashable ι]

/-- In an order without repeats, a node has the place at which it stands. -/
theorem idxOf?_eq_some_iff_of_nodup {order : Array NodeIndex} (hnodup : order.toList.Nodup)
    (i : NodeIndex) (p : Nat) : order.idxOf? i = some p ↔ order[p]? = some i := by
  cases order with
  | mk is =>
    rw [List.idxOf?_toArray, List.getElem?_toArray, List.idxOf?_eq_some_iff,
      List.getElem?_eq_some_iff]
    constructor
    · rintro ⟨hlt, heq, _⟩
      exact ⟨hlt, heq⟩
    · rintro ⟨hlt, heq⟩
      refine ⟨hlt, heq, ?_⟩
      intro q hqp hq
      exact Nat.ne_of_lt hqp ((hnodup.getElem_inj_iff).mp (hq.trans heq.symm))

namespace Resolution

/-- Taking the payloads out one by one finds each as it was, if no node comes twice. -/
theorem drain_eq_ok {g : Graph ι α} {is : List NodeIndex} {ns : List (Node ι α)}
    (hnodup : is.Nodup) (hns : is.map (g.nodes[·]?) = ns.map some) :
    drain g is = .ok (ns.map (·.payload)) := by
  induction is generalizing g ns with
  | nil =>
    rw [List.map_nil, eq_comm, List.map_eq_nil_iff] at hns
    rw [hns]
    rfl
  | cons i is ih =>
    obtain ⟨hi, hnodup⟩ := List.nodup_cons.mp hnodup
    obtain ⟨n, ns, rfl, hn, hrest⟩ := List.map_eq_cons_iff.mp hns.symm
    have htake : g.takePayload i = .ok (g.modify i (·.withoutPayload), n.payload) := by
      simp only [Graph.takePayload, Graph.exchange, ← hn]
    -- The nodes still to come are other nodes, so they keep their payloads.
    have hkept : is.map ((g.modify i (·.withoutPayload)).nodes[·]?) = is.map (g.nodes[·]?) := by
      apply List.map_congr_left
      intro j hj
      have hij : i ≠ j := fun hij => hi (hij ▸ hj)
      simp only [Graph.modify, Array.getElem?_modify, if_neg hij]
    have hdrain := ih hnodup (hkept.trans hrest.symm)
    rw [drain, htake]
    show (drain _ is >>= fun ps => .ok (n.payload :: ps)) = _
    rw [hdrain]
    rfl

/-- What a resolution shows of its nodes, and what it has to do with a history. -/
structure Views (res : Resolution ι α) (h : History ι α) (ns : List (Node ι α)) : Prop where
  nodes : res.nodes = .ok ns
  size : ns.length = res.size
  ids : res.ids = .ok (ns.map (·.id))
  payloads : res.payloads = .ok (ns.map (·.payload))
  /-- Taking the payloads out tells the same as looking at them. -/
  intoPayloads : res.intoPayloads = .ok (ns.map (·.payload))
  /-- A node has the payload that its identifier was given last. -/
  payload : ∀ n ∈ ns, n.payload = latest h.registers n.id
  /-- A node has no payload exactly if its identifier was never given one. -/
  missing : ∀ n ∈ ns, n.payload = none ↔ ∀ p ∈ h.registers, ¬ p.1 == n.id
  /-- An identifier has the position of the node with an equal one. -/
  position : ∀ a p, res.position? a = some p ↔ ∃ n, ns[p]? = some n ∧ n.id == a
  /-- An identifier has no position exactly if it was never mentioned. -/
  unknown : ∀ a, res.position? a = none ↔ ¬ h.mentions.contains a

end Resolution

omit [Hashable ι] in
private theorem latest_eq_none_iff (ps : List (ι × α)) (a : ι) :
    latest ps a = none ↔ ∀ p ∈ ps, ¬ p.1 == a := by
  rw [← Option.isNone_iff_eq_none, ← Option.not_isSome, Registry.isSome_latest,
    Bool.not_eq_true', List.any_eq_false]

section
variable {g₀ g : Graph ι α} {starts : List NodeIndex} {order : Array NodeIndex} {ms : List ι}
  {ds : List (ι × ι)} {ps : List (ι × α)}
  (hr : g₀.Records ms ds ps) (hg : Collecting g₀ starts g order)
include hr hg

private theorem Collecting.payload_eq {i : NodeIndex} {n : Node ι α} (hn : g.nodes[i]? = some n) :
    n.payload = latest ps n.id := by
  obtain ⟨m, hm, hmarks⟩ := Graph.exists_node_of_reset_eq hg.reset_eq hn
  have hid : m.id = n.id := congrArg (·.id) hmarks
  have hpayload : m.payload = n.payload := congrArg (·.payload) hmarks
  rw [← hpayload, ← hid]
  exact hr.payload i m hm

private theorem Collecting.find?_iff (a : ι) (i : NodeIndex) :
    g.find? a = some i ↔ ∃ n, g.nodes[i]? = some n ∧ n.id == a := by
  have hid (i : NodeIndex) : g.id? i = g₀.id? i := congrFun (Graph.id?_congr hg.reset_eq) i
  have hnode (g : Graph ι α) :
      (∃ n, g.nodes[i]? = some n ∧ n.id == a) ↔ ∃ b, g.id? i = some b ∧ b == a := by
    simp only [Graph.id?, Option.map_eq_some_iff, exists_exists_and_eq_and]
  rw [Graph.find?_congr hg.reset_eq, hr.indexed a i, hnode, hnode, hid]

end

section
variable [EquivBEq ι] [LawfulHashable ι] {g₀ g : Graph ι α} {starts : List NodeIndex}
  {order : Array NodeIndex} {h : History ι α}
  (hr : g₀.Records h.mentions h.declares h.registers) (hg : Collecting g₀ starts g order)
include hr hg

omit [EquivBEq ι] [LawfulHashable ι] in
private theorem Collecting.position?_eq_some_iff {ns : List (Node ι α)}
    (hns : order.toList.map (g.nodes[·]?) = ns.map some) (a : ι) (p : Nat) :
    (Resolution.mk g order).position? a = some p ↔ ∃ n, ns[p]? = some n ∧ n.id == a := by
  have hplace : order[p]?.map (g.nodes[·]?) = ns[p]?.map some := by
    rw [← Array.getElem?_toList, ← List.getElem?_map, ← List.getElem?_map, hns]
  simp only [Resolution.position?, Option.bind_eq_some_iff, hg.find?_iff hr,
    idxOf?_eq_some_iff_of_nodup hg.collected.nodup]
  constructor
  · rintro ⟨i, ⟨n, hn, hna⟩, hi⟩
    rw [hi, Option.map_some, hn, eq_comm, Option.map_eq_some_iff] at hplace
    obtain ⟨m, hm, hmn⟩ := hplace
    cases hmn
    exact ⟨n, hm, hna⟩
  · rintro ⟨n, hn, hna⟩
    rw [hn, Option.map_some, Option.map_eq_some_iff] at hplace
    obtain ⟨i, hi, hin⟩ := hplace
    exact ⟨i, ⟨n, hin, hna⟩, hi⟩

private theorem Collecting.position?_eq_none_iff (hall : ∀ i < g₀.size, i ∈ starts) (a : ι) :
    (Resolution.mk g order).position? a = none ↔ ¬ h.mentions.contains a := by
  rw [← hr.exists_find?_iff, Resolution.position?, Graph.find?_congr hg.reset_eq,
    Option.bind_eq_none_iff]
  constructor
  · rintro hnone ⟨i, hi⟩
    have hmem : i ∈ order := (hg.mem_order_iff hall i).mpr (hr.indexed.lt_size hi)
    exact Array.idxOf?_eq_none_iff.mp (hnone i hi) hmem
  · intro hnot i hi
    exact absurd ⟨i, hi⟩ hnot

/-- Dependencies have smaller positions than what depends on them. -/
theorem Collecting.exists_positions (hall : ∀ i < g₀.size, i ∈ starts) {a b : ι}
    (hab : h.DependsOn a b) :
    ∃ p q, (Resolution.mk g order).position? b = some p ∧
      (Resolution.mk g order).position? a = some q ∧ p < q := by
  obtain ⟨i, j, hi, hj, hij⟩ := (hr.dependsOn_iff a b).mp hab
  obtain ⟨p, q, hp, hq, hpq⟩ := hg.position_lt hall hij
  rw [← Graph.find?_congr hg.reset_eq] at hi hj
  refine ⟨p, q, ?_, ?_, hpq⟩
  · rw [Resolution.position?, hj, Option.bind_some, hp]
  · rw [Resolution.position?, hi, Option.bind_some, hq]

/-- The views of a collected order are those of the nodes that it lists. -/
theorem Collecting.exists_views (hall : ∀ i < g₀.size, i ∈ starts) :
    ∃ ns, (Resolution.mk g order).Views h ns := by
  obtain ⟨ns, hns, hmap, -⟩ := hg.collected.exists_nodes
  have hlength : ns.length = order.size := by simpa using (congrArg List.length hmap).symm
  have hpayload : ∀ n ∈ ns, n.payload = latest h.registers n.id := by
    intro n hn
    have hlisted : some n ∈ order.toList.map (g.nodes[·]?) := by
      rw [hmap]
      exact List.mem_map_of_mem hn
    obtain ⟨i, -, hi⟩ := List.mem_map.mp hlisted
    exact hg.payload_eq hr hi
  refine ⟨ns, hns, hlength, ?_, ?_, Resolution.drain_eq_ok hg.collected.nodup hmap, hpayload, ?_,
    hg.position?_eq_some_iff hr hmap, hg.position?_eq_none_iff hr hall⟩
  · rw [Resolution.ids, hns]
    rfl
  · rw [Resolution.payloads, hns]
    rfl
  · intro n hn
    rw [hpayload n hn, latest_eq_none_iff]

end

namespace Registry

variable [EquivBEq ι] [LawfulHashable ι]

/-- The payloads of an order are those that its identifiers were given last. -/
theorem payloads_of_ids (options : Options) (h : History ι α) {res : Resolution ι α}
    {ids : List ι} (hres : (ofHistory options h).resolve = .ok res) (hids : res.ids = .ok ids) :
    res.payloads = .ok (ids.map (latest h.registers)) := by
  obtain ⟨ns, hviews⟩ := (postorder_of_resolve options h hres).1.exists_views
    (represents_ofHistory options h).records fun _ => mem_starts_of_lt options h
  rw [hviews.ids, Except.ok.injEq] at hids
  rw [hviews.payloads, ← hids, List.map_map, List.map_congr_left hviews.payload]
  rfl

/-- The views of whatever a history is resolved to show one list of nodes, with the payloads that
the history gave last, and positions lead to the places where identifiers stand. -/
theorem views_of_resolve (options : Options) (h : History ι α) {res : Resolution ι α}
    (hres : (ofHistory options h).resolve = .ok res) : ∃ ns, res.Views h ns :=
  (postorder_of_resolve options h hres).1.exists_views (represents_ofHistory options h).records
    fun _ => mem_starts_of_lt options h

/-- A payload is given again under another spelling, and a dependency is never given one. -/
theorem views_of_resolve_respelled :
    ∃ res ns, (ofHistory .lenient ([.declaration ⟨⟨"App"⟩, 1, [⟨"lib"⟩]⟩, .node ⟨"APP"⟩ 2] :
        History Text.CaseFolded Nat)).resolve = .ok res ∧
      res.Views [.declaration ⟨⟨"App"⟩, 1, [⟨"lib"⟩]⟩, .node ⟨"APP"⟩ 2] ns ∧
      ns.map (·.id) = [⟨"lib"⟩, ⟨"App"⟩] ∧ ns.map (·.payload) = [none, some 2] ∧
      res.position? ⟨"app"⟩ = some 1 := by
  have hread : (ofHistory .lenient ([.declaration ⟨⟨"App"⟩, 1, [⟨"lib"⟩]⟩, .node ⟨"APP"⟩ 2] :
      History Text.CaseFolded Nat)).resolve.toOption.map
        (fun res => (res.ids, res.intoPayloads, res.position? ⟨"app"⟩)) =
          some (.ok [⟨"lib"⟩, ⟨"App"⟩], .ok [none, some 2], some 1) := by cbv
  obtain ⟨res, hres, hshown⟩ := exists_ok_of_map_toOption hread
  rw [Prod.mk.injEq, Prod.mk.injEq] at hshown
  obtain ⟨hids, hpayloads, hposition⟩ := hshown
  obtain ⟨ns, hviews⟩ := views_of_resolve .lenient _ hres
  exact ⟨res, ns, hres, hviews, Except.ok.inj (hviews.ids.symm.trans hids),
    Except.ok.inj (hviews.intoPayloads.symm.trans hpayloads), hposition⟩

end Registry

end Precedence
