import Precedence.Proofs.Resolution.Sorted
import Precedence.Proofs.Traversal.Chronicle
import Precedence.Proofs.Traversal.Intervals

/-!
# The order of dependencies of one entity

A walk enters the dependencies of an entity in the order in which they were declared, as far as it
has not entered them before. When one of them is entered, all that were declared earlier have been
left. Of two dependencies the later one therefore comes second, unless an earlier one pulls it
forward, or it was ordered before the walk came to the entity at all.
-/

namespace Precedence

open Relation (ReflTransGen)

variable {ι α : Type} [BEq ι] [Hashable ι]

/-! ### Children in turn -/

namespace Graph

/-- The edge from `i` to `x` was added before the one from `i` to `y`. -/
def AddedBefore (g : Graph ι α) (i x y : NodeIndex) : Prop :=
  ∃ k l : Nat, k < l ∧ (g.successors i)[k]? = some x ∧ (g.successors i)[l]? = some y

/-- When a child is entered, all nodes have been left that its parent has an earlier edge to. -/
def InTurn (g : Graph ι α) : Prop :=
  ∀ i x y, g.AddedBefore i x y → g.parent? y = some i → g.Precedes x y

section
variable {g g' : Graph ι α}

private theorem inTurn_of_unadopted (h : ∀ i, g.parent? i = none) : g.InTurn := by
  intro i x y _ hparent
  rw [h y] at hparent
  cases hparent

private theorem InTurn.grow (h : g.InTurn) (hgrows : g.Grows g')
    (hnew : ∀ i x y, g'.parent? y = some i → g.AddedBefore i x y →
      g.parent? y = some i ∨ g'.Precedes x y) : g'.InTurn := by
  intro i x y hxy hparent
  rw [AddedBefore, hgrows.successors_eq] at hxy
  rcases hnew i x y hparent hxy with hold | hturn
  · exact hgrows.precedes (h i x y hxy hold)
  · exact hturn

/-- If children are entered in turn, the target `y` of an edge that is left before the target `x` of
another was left before their source was entered, or it is reached from `x` or from the target of an
edge that was added before. -/
theorem InTurn.precedes_or_reaches (h : g.InTurn) (hn : g.Nested) (hs : g.Settled)
    (hparent : ∀ i j, g.parent? j = some i → g.Edge i j) {i k x y t u : Nat}
    (hx : (g.successors i)[k]? = some x) (hy : g.Edge i y) (hi : g.IsFinished i)
    (hxt : g.exit? x = some t) (hyu : g.exit? y = some u) (hut : u < t) :
    g.Precedes y i ∨ ∃ m ≤ k, ∃ c, (g.successors i)[m]? = some c ∧ ReflTransGen g.Edge c y := by
  obtain ⟨s, hs'⟩ := hi
  obtain ⟨u', hyu', hus⟩ := hs i y hy s hs'
  rw [hyu] at hyu'
  cases hyu'
  have hne : y ≠ i := by
    rintro rfl
    rw [hyu] at hs'
    cases hs'
    exact Nat.lt_irrefl u hus
  refine (hn.precedes_or_descends hyu hs' hus).imp_right fun hd => ?_
  -- The target was entered within the time of the source, through one of its children.
  obtain ⟨c, hci, hyc⟩ := hd.exists_child hne
  obtain ⟨m, hm⟩ := List.getElem?_of_mem (hparent i c hci)
  refine ⟨m, ?_, c, hm, hyc.reaches hparent⟩
  by_contra hmk
  -- A child that comes after `x` is entered after `x` was left, and `y` is not left before.
  have hxc : g.Precedes x c := h i x c ⟨k, m, by omega, hx, hm⟩ hci
  exact Nat.lt_asymm hut (hn.exit_lt_of_precedes (hn.precedes_of_descends hxc hyc) hxt hyu)

end

end Graph

/-! ### Walks with the collector -/

namespace Walk

variable {g : Graph ι α} {i j : NodeIndex} {pending : List NodeIndex} {path : List Frame}

private theorem Clean.isFinished_of_addedBefore (h : Clean g (⟨i, j :: pending⟩ :: path))
    (hnodup : (g.successors i).Nodup) {x : NodeIndex} (hx : g.AddedBefore i x j) :
    g.IsFinished x := by
  obtain ⟨k, l, hkl, hk, hl⟩ := hx
  obtain ⟨looked, hlooked⟩ := h.pending_suffix ⟨i, j :: pending⟩ (by simp)
  rcases h.covered.1 x (List.mem_of_getElem? hk) with hpending | hx | hnone
  · -- The edge to `j` is the first that is left, so the one to `x` has been looked at.
    rw [← hlooked] at hk hl hnodup
    have hj : (looked ++ j :: pending)[looked.length]? = some j := by simp
    have hlt : l < (looked ++ j :: pending).length := (List.getElem?_eq_some_iff.mp hl).1
    have heq : l = looked.length := (List.getElem?_inj hlt hnodup).mp (hl.trans hj.symm)
    rw [List.getElem?_append_left (by omega)] at hk
    exact absurd rfl (List.nodup_append.mp hnodup |>.2.2 x (List.mem_of_getElem? hk) x hpending)
  · exact hx
  · cases hnone

/-- As long as no cycle has been closed, children are entered in turn. -/
theorem Clean.inTurn {σ ε : Type} {o : Observer ι α σ ε} {w w' : Walk ι α σ}
    (h : Clean w.graph w.path) (hnodup : ∀ i, (w.graph.successors i).Nodup)
    (hturn : w.graph.InTurn) (hm : Moves o w w') : w'.graph.InTurn := by
  cases hm with
  | @leave g _ _ i path n hi hn =>
    refine hturn.grow (Graph.grows_leave hi (h.isOpen i (head_mem_trail ..))) ?_
    intro k x y hparent _
    rw [Graph.parent?_leave hi] at hparent
    exact .inl hparent
  | pass => exact hturn
  | report => exact hturn
  | @descend g _ _ _ i j pending path source target hi hj hv he hn =>
    have hgrows : g.Grows (g.stamp j ({ target with parent := some i }.enter g.clock)) :=
      Graph.grows_enter hj hv rfl rfl
    refine hturn.grow hgrows ?_
    intro k x y hparent hxy
    rw [Graph.parent?_stamp hj] at hparent
    split at hparent
    · next hjy =>
      subst hjy
      cases hparent
      right
      obtain ⟨t, ht⟩ := h.isFinished_of_addedBefore (hnodup i) hxy
      refine ⟨t, g.clock, hgrows.exit x t ht, ?_, h.exit_lt_clock x t ht⟩
      rw [Graph.entrance?_enter hj rfl, if_pos rfl]
    · exact .inl hparent

end Walk

section
variable {g₀ g : Graph ι α} {before : List NodeIndex} {c : Collection ι}
  (hd : g₀.directed = true) (hnodup : ∀ i, (g₀.successors i).Nodup)
include hd hnodup

/-- A walk with the collector that goes through enters children in turn. -/
theorem Collecting.inTurn_walkFrom {start : NodeIndex} (h : Collecting g₀ before g c.order)
    (hturn : g.InTurn) (hok : (g.walkFrom collector c start).result = .ok ()) :
    (g.walkFrom collector c start).graph.InTurn := by
  obtain ⟨p, hp, hw⟩ := g.exists_starts collector c start
  rw [hw] at hok ⊢
  cases hp with
  | lost hi => exact hturn
  | known hi hv => exact hturn
  | @enter n s' hi hv hn =>
    have hunder := h.underway hi hv hn
    have hentered : (g.stamp start (n.enter g.clock)).InTurn := by
      refine hturn.grow (Graph.grows_enter hi hv rfl rfl) ?_
      intro i x y hparent _
      rw [Graph.parent?_stamp hi] at hparent
      split at hparent
      · next hsy =>
        subst hsy
        exact .inl ((Graph.parent?_of_node hi).trans hparent)
      · exact .inl hparent
    obtain ⟨w, ⟨-, hw⟩, hh⟩ := Walk.run_of_invariant
      (P := fun w => Underway g₀ before start w ∧ w.graph.InTurn)
      (fun w _ hP hm => ⟨hP.1.moves hd hm, hP.1.clean.inTurn
        (fun i => Graph.successors_congr hP.1.reset_eq ▸ hnodup i) hP.2 hm⟩) ⟨hunder, hentered⟩
    show (Walk.run collector _).graph.InTurn
    rw [(hh.of_ok hok).2]
    exact hw
  | refused hi hv hn => cases (eq_of_enter hn).2

/-- So do walks from several starts. -/
theorem Collecting.inTurn_walkEach (hc : g₀.Closed) (h : Collecting g₀ before g c.order)
    (hturn : g.InTurn) {starts : List NodeIndex} (hstarts : ∀ s ∈ starts, s < g₀.size)
    (hok : (g.walkEach collector c starts).result = .ok ()) :
    (g.walkEach collector c starts).graph.InTurn := by
  induction starts generalizing before g c with
  | nil => exact hturn
  | cons start starts ih =>
    have hfrom := collectsFrom_walkFrom hd hc (hstarts start (by simp)) h
    have hfirst : (g.walkFrom collector c start).result = .ok () →
        (g.walkFrom collector c start).graph.InTurn := h.inTurn_walkFrom hd hnodup hturn
    rw [Graph.walkEach] at hok ⊢
    generalize g.walkFrom collector c start = r at hfrom hfirst hok ⊢
    cases hfrom with
    | ok h' => exact ih h' (hfirst rfl) (fun s hs => hstarts s (List.mem_cons_of_mem _ hs)) hok
    | cycle => cases hok

end

/-! ### The graph of an order -/

namespace Graph

section
variable {g : Graph ι α} {ms : List ι} {ds : List (ι × ι)} {ps : List (ι × α)}
  (hg : g.Records ms ds ps)
include hg

/-- There are no walks to forget. -/
theorem Records.reset_eq : g.reset = g := by
  have hnodes : g.nodes.map Node.unvisited = g.nodes := by
    apply Array.ext_getElem?
    intro i
    rw [Array.getElem?_map]
    cases hi : g.nodes[i]? with
    | none => rfl
    | some n => rw [Option.map_some, hg.unvisited i n hi]
  rw [reset, hnodes, ← hg.clock]

/-- No edge is there twice. -/
theorem Records.nodup_successors [EquivBEq ι] (i : NodeIndex) : (g.successors i).Nodup := by
  cases hi : g.nodes[i]? with
  | none => simp [successors, hi]
  | some n =>
    rw [successors_of_node hi]
    exact (hg.edges i n hi).nodup hg.indexed (pairwise_eraseDups _)

end

section
variable {g : Graph ι α} {as : List ι} {is : List NodeIndex} (h : g.Locates as is) {k : Nat}
include h

private theorem Locates.exists_node_at {a : ι} (ha : as[k]? = some a) :
    ∃ i, is[k]? = some i ∧ g.find? a = some i := by
  have hplace : (as.map g.find?)[k]? = (is.map some)[k]? := by rw [h]
  rw [List.getElem?_map, List.getElem?_map, ha, Option.map_some, eq_comm,
    Option.map_eq_some_iff] at hplace
  obtain ⟨i, hi, hia⟩ := hplace
  exact ⟨i, hi, hia.symm⟩

private theorem Locates.exists_id_at {i : NodeIndex} (hi : is[k]? = some i) :
    ∃ a, as[k]? = some a ∧ g.find? a = some i := by
  have hplace : (as.map g.find?)[k]? = (is.map some)[k]? := by rw [h]
  rw [List.getElem?_map, List.getElem?_map, hi, Option.map_some, Option.map_eq_some_iff] at hplace
  exact hplace

end

private theorem Records.locates_dependencies [EquivBEq ι] [LawfulHashable ι] {g : Graph ι α}
    {h : History ι α} (hg : g.Records h.mentions h.declares h.registers) {a : ι} {i : NodeIndex}
    (ha : g.find? a = some i) {ds : List ι} (hds : h.dependencies a = some ds) :
    g.Locates ds (g.successors i) := by
  have hlocates := hg.locates_targets ha
  rw [History.dependencies] at hds
  split at hds
  · cases hds
    have hspelling : g.find? ∘ h.spelling = g.find? :=
      funext fun d => find?_eq_of_beq (h.spelling_beq d)
    rwa [Locates, List.map_map, hspelling]
  · cases hds

end Graph

private theorem Resolution.exists_of_position? {res : Resolution ι α} {a : ι} {p : Nat}
    (hp : res.position? a = some p) :
    ∃ i, res.graph.find? a = some i ∧ res.order[p]? = some i := by
  obtain ⟨i, hi, hp⟩ := Option.bind_eq_some_iff.mp hp
  have hmem : i ∈ res.order := Array.isSome_idxOf?.mp (Option.isSome_iff_exists.mpr ⟨p, hp⟩)
  obtain ⟨q, hq, hqi⟩ := exists_idxOf? hmem
  rw [hp] at hq
  cases hq
  exact ⟨i, hi, hqi⟩

namespace Registry

variable [EquivBEq ι] [LawfulHashable ι]

/-- The graph of an order is nested, parents are sources of edges, and children have been entered in
turn. -/
theorem nested_of_resolve (options : Options) (h : History ι α) {res : Resolution ι α}
    (hres : (ofHistory options h).resolve = .ok res) :
    res.graph.Nested ∧ res.graph.Coherent ∧ res.graph.InTurn := by
  have hr := (represents_ofHistory options h).records
  obtain ⟨log, c, hw, -⟩ := exists_walkEach_of_resolve options h hres
  have hstarts : ∀ s ∈ (ofHistory options h).starts, s < (ofHistory options h).graph.size :=
    fun _ hs => start_lt_size options h hs
  generalize (ofHistory options h).graph = g₀ at hr hw hstarts
  have hok : (g₀.walkEach collector { log } (ofHistory options h).starts).result = .ok () := by
    rw [hw]
  have hgraph : (g₀.walkEach collector { log } (ofHistory options h).starts).graph = res.graph := by
    rw [hw]
  rw [← hgraph]
  refine ⟨?_, ?_, ?_⟩
  · have hgrown : g₀.Grown [] := hr.reset_eq ▸ g₀.grown_reset
    exact (hgrown.walkEach hok).rooted.nested
  · have hcoherent : g₀.Coherent := hr.reset_eq ▸ Graph.Coherent.reset g₀
    exact Graph.walkEach_of_invariant (fun g s start hg => hg.walkFrom collector s start) hcoherent
      { log } _
  · have hbegin : Collecting g₀ [] g₀ ({ log } : Collection ι).order := .of_untouched hr.untouched
    have hturn : g₀.InTurn := Graph.inTurn_of_unadopted (hr.reset_eq ▸ g₀.parent?_reset)
    exact hbegin.inTurn_walkEach hr.directed hr.nodup_successors hr.closed hturn hstarts hok

/-- All dependencies of an entity have positions. If one of them has a smaller position than another,
it is reached from the other or from one that was declared before the other, or it was left before
the entity was entered. -/
theorem siblings_of_resolve (options : Options) (h : History ι α) {res : Resolution ι α}
    (hres : (ofHistory options h).resolve = .ok res) {a : ι} {ds : List ι}
    (hds : h.dependencies a = some ds) :
    (∀ d ∈ ds, ∃ p, res.position? d = some p) ∧
    ∀ (i j p q : Nat) (x y : ι), ds[i]? = some x → ds[j]? = some y →
      res.position? x = some p → res.position? y = some q → q < p →
        (∃ k ≤ i, ∃ d, ds[k]? = some d ∧ h.Reaches d y) ∨
          ∃ m n, res.graph.find? y = some m ∧ res.graph.find? a = some n ∧
            res.graph.Precedes m n := by
  have hr := (represents_ofHistory options h).records
  obtain ⟨hg, -⟩ := postorder_of_resolve options h hres
  obtain ⟨hnested, hcoherent, hturn⟩ := nested_of_resolve options h hres
  have hfind : res.graph.find? = (ofHistory options h).graph.find? := Graph.find?_congr hg.reset_eq
  have hedge : res.graph.Edge = (ofHistory options h).graph.Edge := Graph.edge_congr hg.reset_eq
  have hmentioned : h.mentions.contains a := by
    by_contra hnot
    rw [History.dependencies, if_neg hnot] at hds
    cases hds
  obtain ⟨n, hn⟩ := (hr.exists_find?_iff a).mpr hmentioned
  have hlocates : res.graph.Locates ds (res.graph.successors n) := by
    rw [Graph.Locates, hfind, Graph.successors_congr hg.reset_eq]
    exact hr.locates_dependencies hn hds
  have hfinished {i : NodeIndex} (hi : i < (ofHistory options h).graph.size) :
      res.graph.IsFinished i := hg.isFinished i (mem_starts_of_lt options h hi)
  refine ⟨?_, ?_⟩
  · intro d hd
    obtain ⟨m, hm, hdm⟩ := hlocates.exists_find? hd
    have hnm : (ofHistory options h).graph.Edge n m := by
      rw [← hedge]
      exact hm
    obtain ⟨p, hp, -⟩ := exists_idxOf?
      ((hg.collected.mem_iff m).mpr (hfinished (hr.closed n m hnm)))
    exact ⟨p, by rw [Resolution.position?, hdm, Option.bind_some, hp]⟩
  · intro i j p q x y hx hy hp hq hqp
    obtain ⟨x', hx', hp⟩ := Resolution.exists_of_position? hp
    obtain ⟨y', hy', hq⟩ := Resolution.exists_of_position? hq
    obtain ⟨u, t, hu, ht, hut⟩ := hg.collected.exit_lt hq hp hqp
    obtain ⟨x'', hxi, hxx⟩ := hlocates.exists_node_at hx
    obtain ⟨y'', hyj, hyy⟩ := hlocates.exists_node_at hy
    cases hx'.symm.trans hxx
    cases hy'.symm.trans hyy
    have hny : res.graph.Edge n y' := List.mem_of_getElem? hyj
    rcases hturn.precedes_or_reaches hnested hg.clean.settled hcoherent.parent_edge hxi hny
      (hfinished (hr.indexed.lt_size hn)) ht hu hut with hbefore | ⟨k, hk, c, hc, hcy⟩
    · exact .inr ⟨y', n, hy', by rw [hfind, hn], hbefore⟩
    · obtain ⟨d, hd, hdc⟩ := hlocates.exists_id_at hc
      rw [hfind] at hdc hy'
      rw [hedge] at hcy
      exact .inl ⟨k, hk, d, hd, (hr.reaches_iff hdc hy').mpr hcy⟩

/-- An entity with three dependencies. The second is also one of an entity that is registered before,
and the third one of the first. -/
def entangled : History Nat Unit :=
  [.node 1 (), .dependencies 1 [4], .declaration ⟨2, (), [3, 4, 5]⟩, .dependencies 3 [5]]

/-- The second and the third dependency come before the first, each for a reason of its own. -/
theorem siblings_of_resolve_entangled :
    ∃ res, (ofHistory .lenient entangled).resolve = .ok res ∧ res.ids = .ok [4, 1, 5, 3, 2] ∧
      entangled.dependencies 2 = some [3, 4, 5] ∧
      (∀ d ∈ [3, 4, 5], ∃ p, res.position? d = some p) ∧
      ∀ y ∈ [4, 5], (∃ k ≤ 0, ∃ d, [3, 4, 5][k]? = some d ∧ entangled.Reaches d y) ∨
        ∃ m n, res.graph.find? y = some m ∧ res.graph.find? 2 = some n ∧
          res.graph.Precedes m n := by
  have hread : (ofHistory .lenient entangled).resolve.toOption.map
      (fun res => (res.ids, res.position? 3, res.position? 4, res.position? 5)) =
        some (.ok [4, 1, 5, 3, 2], some 3, some 0, some 2) := by cbv
  obtain ⟨res, hres, hviews⟩ := exists_ok_of_map_toOption hread
  simp only [Prod.mk.injEq] at hviews
  obtain ⟨hids, h3, h4, h5⟩ := hviews
  have hds : entangled.dependencies 2 = some [3, 4, 5] := by decide
  obtain ⟨hpositions, hsiblings⟩ := siblings_of_resolve .lenient entangled hres hds
  refine ⟨res, hres, hids, hds, hpositions, ?_⟩
  intro y hy
  rcases List.mem_cons.mp hy with rfl | hy
  · exact hsiblings 0 1 3 0 3 4 rfl rfl h3 h4 (by decide)
  · rw [List.mem_singleton.mp hy]
    exact hsiblings 0 2 3 2 3 5 rfl rfl h3 h5 (by decide)

end Registry

end Precedence
