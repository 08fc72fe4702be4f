import Mathlib
import Precedence.Proofs.Registry.Queries
import Precedence.Proofs.Resolution.Ordering
import Precedence.Proofs.Traversal.Renumbering

/-!
# Registration in any order

The order in which identifiers are first mentioned numbers the nodes of a registry, and the last
walks go through the nodes in that order. What a registry is resolved to does not depend on it, as
long as every identifier is reached from one that is registered: two histories that register the
same identifiers in the same order, declare the same dependencies of each in the same order and give
the same payloads are resolved alike, however their calls are interleaved, split or repeated.
-/

namespace Precedence

variable {ι α : Type} [BEq ι]

/-! ### What is compared -/

/-- The histories mention the same identifiers, register them in the same order, declare the same
dependencies of each in the same order, and give each the same payload last. -/
structure History.Matches (h k : History ι α) : Prop where
  mentions : ∀ a, h.mentions.contains a = k.mentions.contains a
  roots : List.Forall₂ (· == ·) h.roots k.roots
  dependencies : ∀ a, List.Forall₂ (· == ·) (targetsOf h.declares a) (targetsOf k.declares a)
  payload : ∀ a, latest h.registers a = latest k.registers a

/-- Every identifier is reached from one that is registered. -/
def History.Grounded (h : History ι α) : Prop :=
  ∀ a, h.mentions.contains a → ∃ r ∈ h.roots, h.Reaches r a

section
variable [EquivBEq ι]

omit [BEq ι] [EquivBEq ι] in
private theorem Registration.fst_mem_mentions_of_declares {c : Registration ι α} {d : ι × ι}
    (hd : d ∈ c.declares) : d.1 ∈ c.mentions := by
  cases c with
  | node id payload => cases hd
  | dependencies id ids =>
    obtain ⟨b, -, rfl⟩ := List.mem_map.mp hd
    exact List.mem_cons_self
  | declaration decl =>
    obtain ⟨b, -, rfl⟩ := List.mem_map.mp hd
    exact List.mem_cons_self
  | declarations decls =>
    obtain ⟨decl, hdecl, hd⟩ := List.mem_flatMap.mp hd
    obtain ⟨b, -, rfl⟩ := List.mem_map.mp hd
    exact List.mem_flatMap.mpr ⟨decl, hdecl, List.mem_cons_self⟩

omit [BEq ι] [EquivBEq ι] in
/-- Whoever is depended on is mentioned. -/
theorem Registration.snd_mem_mentions_of_declares {c : Registration ι α} {d : ι × ι}
    (hd : d ∈ c.declares) : d.2 ∈ c.mentions := by
  cases c with
  | node id payload => cases hd
  | dependencies id ids =>
    obtain ⟨b, hb, rfl⟩ := List.mem_map.mp hd
    exact List.mem_cons_of_mem _ hb
  | declaration decl =>
    obtain ⟨b, hb, rfl⟩ := List.mem_map.mp hd
    exact List.mem_cons_of_mem _ hb
  | declarations decls =>
    obtain ⟨decl, hdecl, hd⟩ := List.mem_flatMap.mp hd
    obtain ⟨b, hb, rfl⟩ := List.mem_map.mp hd
    exact List.mem_flatMap.mpr ⟨decl, hdecl, List.mem_cons_of_mem _ hb⟩

omit [BEq ι] [EquivBEq ι] in
private theorem Registration.fst_mem_mentions_of_registers {c : Registration ι α} {p : ι × α}
    (hp : p ∈ c.registers) : p.1 ∈ c.mentions := by
  cases c with
  | node id payload =>
    rw [Registration.registers, List.mem_singleton] at hp
    rw [hp]
    exact List.mem_cons_self
  | dependencies id ids => cases hp
  | declaration decl =>
    rw [Registration.registers, List.mem_singleton] at hp
    rw [hp]
    exact List.mem_cons_self
  | declarations decls =>
    obtain ⟨decl, hdecl, rfl⟩ := List.mem_map.mp hp
    exact List.mem_flatMap.mpr ⟨decl, hdecl, List.mem_cons_self⟩

namespace History

variable {h k : History ι α} {a : ι}

private theorem targetsOf_of_not_mentioned (ha : ¬ h.mentions.contains a) :
    targetsOf h.declares a = [] := by
  apply Graph.targetsOf_eq_nil
  intro d hd hda
  obtain ⟨c, hc, hdc⟩ := List.mem_flatMap.mp hd
  have hmem : d.1 ∈ h.mentions :=
    List.mem_flatMap.mpr ⟨c, hc, Registration.fst_mem_mentions_of_declares hdc⟩
  exact ha (List.contains_iff_exists_mem_beq.mpr ⟨d.1, hmem, PartialEquivBEq.symm hda⟩)

private theorem latest_of_not_mentioned (ha : ¬ h.mentions.contains a) :
    latest h.registers a = none := by
  apply Graph.latest_eq_none
  intro p hp hpa
  obtain ⟨c, hc, hpc⟩ := List.mem_flatMap.mp hp
  have hmem : p.1 ∈ h.mentions :=
    List.mem_flatMap.mpr ⟨c, hc, Registration.fst_mem_mentions_of_registers hpc⟩
  exact ha (List.contains_iff_exists_mem_beq.mpr ⟨p.1, hmem, PartialEquivBEq.symm hpa⟩)

private theorem matches_iff (h k : History ι α) :
    h.Matches k ↔
      ((∀ a ∈ h.mentions, k.mentions.contains a) ∧ ∀ a ∈ k.mentions, h.mentions.contains a) ∧
        List.Forall₂ (· == ·) h.roots k.roots ∧
        (∀ a ∈ h.mentions,
          List.Forall₂ (· == ·) (targetsOf h.declares a) (targetsOf k.declares a)) ∧
        ∀ a ∈ h.mentions, latest h.registers a = latest k.registers a := by
  constructor
  · intro hm
    refine ⟨⟨?_, ?_⟩, hm.roots, fun a _ => hm.dependencies a, fun a _ => hm.payload a⟩
    · intro a ha
      rw [← hm.mentions]
      exact List.contains_iff_exists_mem_beq.mpr ⟨a, ha, BEq.refl a⟩
    · intro a ha
      rw [hm.mentions]
      exact List.contains_iff_exists_mem_beq.mpr ⟨a, ha, BEq.refl a⟩
  · rintro ⟨⟨hleft, hright⟩, hroots, hdependencies, hpayload⟩
    have hmentions (a : ι) : h.mentions.contains a = k.mentions.contains a := by
      rw [Bool.eq_iff_iff]
      constructor
      · intro ha
        obtain ⟨b, hb, hab⟩ := List.contains_iff_exists_mem_beq.mp ha
        rw [contains_congr hab]
        exact hleft b hb
      · intro ha
        obtain ⟨b, hb, hab⟩ := List.contains_iff_exists_mem_beq.mp ha
        rw [contains_congr hab]
        exact hright b hb
    refine ⟨hmentions, hroots, ?_, ?_⟩
    · intro a
      by_cases ha : h.mentions.contains a
      · obtain ⟨b, hb, hab⟩ := List.contains_iff_exists_mem_beq.mp ha
        rw [targetsOf_congr hab, targetsOf_congr hab]
        exact hdependencies b hb
      · rw [targetsOf_of_not_mentioned ha, targetsOf_of_not_mentioned (hmentions a ▸ ha)]
        exact .nil
    · intro a
      by_cases ha : h.mentions.contains a
      · obtain ⟨b, hb, hab⟩ := List.contains_iff_exists_mem_beq.mp ha
        rw [latest_congr hab, latest_congr hab]
        exact hpayload b hb
      · rw [latest_of_not_mentioned ha, latest_of_not_mentioned (hmentions a ▸ ha)]

instance [DecidableEq α] (h k : History ι α) : Decidable (h.Matches k) :=
  decidable_of_iff _ (matches_iff h k).symm

private theorem Reaches.congr {b c : ι} (hab : h.Reaches a b) (hbc : b == c) : h.Reaches a c := by
  rcases hab with hab | hab
  · exact .inl (PartialEquivBEq.trans hab hbc)
  · right
    obtain ⟨x, hax, d, hd, hdx, hdb⟩ := Relation.TransGen.tail'_iff.mp hab
    exact Relation.TransGen.tail'_iff.mpr ⟨x, hax, d, hd, hdx, PartialEquivBEq.trans hdb hbc⟩

/-- It is enough that the spellings that are mentioned are registered, or declared to be
dependencies of what is. -/
theorem grounded_of_mem
    (hall : ∀ a ∈ h.mentions, ∃ r ∈ h.roots, r == a ∨ h.DependsOn r a) : h.Grounded := by
  intro a ha
  obtain ⟨b, hb, hab⟩ := List.contains_iff_exists_mem_beq.mp ha
  obtain ⟨r, hr, hrb⟩ := hall b hb
  have hreaches : h.Reaches r b := hrb.imp_right .single
  exact ⟨r, hr, hreaches.congr (PartialEquivBEq.symm hab)⟩

omit [EquivBEq ι] in
instance (h : History ι α) (a b : ι) : Decidable (h.DependsOn a b) :=
  inferInstanceAs (Decidable (∃ d ∈ h.declares, d.1 == a ∧ d.2 == b))

end History

end

/-- The errors are of one kind and name the same identifiers, a list of them in any order. -/
inductive ResolveError.Alike : ResolveError ι → ResolveError ι → Prop where
  | cycle {a b c d : ι} (hac : a == c) (hbd : b == d) : Alike (.cycle a b) (.cycle c d)
  | unresolved {as bs : List ι} (h : ∀ a, as.contains a = bs.contains a) :
      Alike (.unresolved as) (.unresolved bs)

variable [Hashable ι]

/-- The results are orders of the same identifiers with the same payloads, or alike errors. -/
inductive Resolution.Alike : Except (Interruption (ResolveError ι)) (Resolution ι α) →
    Except (Interruption (ResolveError ι)) (Resolution ι α) → Prop where
  | ok {r r' : Resolution ι α} {as bs : List ι} {ps : List (Option α)} (hids : r.ids = .ok as)
      (hids' : r'.ids = .ok bs) (hsame : List.Forall₂ (· == ·) as bs)
      (hpayloads : r.payloads = .ok ps) (hpayloads' : r'.payloads = .ok ps) :
      Alike (.ok r) (.ok r')
  | error {e e' : ResolveError ι} (h : e.Alike e') :
      Alike (.error (.stopped e)) (.error (.stopped e'))

/-! ### Nodes of the same name -/

namespace Graph

/-- The indices are those of one identifier in two graphs. -/
def SameName (g k : Graph ι α) (i j : NodeIndex) : Prop :=
  ∃ a, g.find? a = some i ∧ k.find? a = some j

section
variable [EquivBEq ι] [LawfulHashable ι] {g k : Graph ι α}

private theorem biUnique_sameName (hg : g.Indexed) (hk : k.Indexed) :
    Relator.BiUnique (g.SameName k) := by
  constructor
  · rintro i i' j ⟨a, hai, haj⟩ ⟨b, hbi, hbj⟩
    rw [find?_eq_of_beq (hk.beq haj hbj), hbi] at hai
    exact (Option.some.inj hai).symm
  · rintro i j j' ⟨a, hai, haj⟩ ⟨b, hbi, hbj⟩
    rw [find?_eq_of_beq (hg.beq hai hbi), hbj] at haj
    exact (Option.some.inj haj).symm

private theorem Locates.sameName {as bs : List ι} {is js : List NodeIndex} (h : g.Locates as is)
    (h' : k.Locates bs js) (hab : List.Forall₂ (· == ·) as bs) :
    List.Forall₂ (g.SameName k) is js := by
  induction hab generalizing is js with
  | nil =>
    rw [Locates, List.map_nil, eq_comm, List.map_eq_nil_iff] at h h'
    rw [h, h']
    exact .nil
  | @cons a b as bs hab _ ih =>
    rw [Locates, List.map_cons] at h h'
    obtain ⟨i, is, rfl, hi, his⟩ := List.map_eq_cons_iff.mp h.symm
    obtain ⟨j, js, rfl, hj, hjs⟩ := List.map_eq_cons_iff.mp h'.symm
    refine .cons ⟨a, hi.symm, ?_⟩ (ih his.symm hjs.symm)
    rw [find?_eq_of_beq hab, hj]

/-- Graphs that record the same dependencies and payloads hold the same nodes. -/
theorem Records.alike {h h' : History ι α}
    (hg : g.Records h.mentions h.declares h.registers)
    (hk : k.Records h'.mentions h'.declares h'.registers) (hm : h.Matches h') :
    g.Alike (g.SameName k) k := by
  refine ⟨?_, hg.directed.trans hk.directed.symm, hg.clock.trans hk.clock.symm⟩
  rintro i j ⟨a, hi, hj⟩
  obtain ⟨m, hmi, hma⟩ := (hg.indexed a i).mp hi
  obtain ⟨n, hnj, hna⟩ := (hk.indexed a j).mp hj
  have hmn : m.id == n.id := PartialEquivBEq.trans hma (PartialEquivBEq.symm hna)
  have hm' := hg.unvisited i m hmi
  have hn' := hk.unvisited j n hnj
  refine ⟨m, n, hmi, hnj, hmn, ?_, ?_, ?_, ?_⟩
  · rw [hg.payload i m hmi, hk.payload j n hnj, hm.payload, latest_congr hmn]
  · rw [← hm', ← hn']
    rfl
  · have hspelled : targetsOf h'.declares m.id = targetsOf h'.declares n.id :=
      targetsOf_congr hmn
    have hdependencies := hm.dependencies m.id
    rw [hspelled] at hdependencies
    exact (hg.edges i m hmi).sameName (hk.edges j n hnj) hdependencies
  · rw [← hm', ← hn']
    exact .none

end

/-! ### Alike graphs -/

private theorem Alike.isEntered {R : NodeIndex → NodeIndex → Prop} {g k : Graph ι α}
    (h : g.Alike R k)
    {i j : NodeIndex} (hij : R i j) (hi : g.IsEntered i) : k.IsEntered j := by
  obtain ⟨m, n, hm, hn, hmn⟩ := h.node i j hij
  obtain ⟨v, hv, hne⟩ := hi
  rw [visit?_of_node hm] at hv
  exact ⟨v, by rw [visit?_of_node hn, ← hmn.visit, hv], hne⟩

private theorem Alike.exists_mapM_node {R : NodeIndex → NodeIndex → Prop} {g k : Graph ι α}
    (h : g.Alike R k) {is js : List NodeIndex} (hij : List.Forall₂ R is js) :
    ∃ ms ns : List (Node ι α), is.mapM g.node = .ok ms ∧ js.mapM k.node = .ok ns ∧
      List.Forall₂ (Node.Alike R) ms ns := by
  induction hij with
  | nil => exact ⟨[], [], rfl, rfl, .nil⟩
  | @cons i j is js hij _ ih =>
    obtain ⟨m, n, hm, hn, hmn⟩ := h.node i j hij
    obtain ⟨ms, ns, hms, hns, hall⟩ := ih
    refine ⟨m :: ms, n :: ns, ?_, ?_, .cons hmn hall⟩
    · rw [List.mapM_cons, (g.node_eq_ok_iff i m).mpr hm, hms]
      rfl
    · rw [List.mapM_cons, (k.node_eq_ok_iff j n).mpr hn, hns]
      rfl

end Graph

omit [Hashable ι] in
/-- The collector minds neither indices nor spellings, and does not look at its log. -/
theorem respects_collector (R : NodeIndex → NodeIndex → Prop) :
    (collector : Observer ι α _ _).Respects R
      (fun c d => List.Forall₂ R c.order.toList d.order.toList) ResolveError.Alike where
  start _ _ _ _ _ _ hst := hst
  notice event event' c d he hcd := by
    cases he with
    | enter => exact ⟨hcd, .none⟩
    | @edge _ _ _ _ kind hs ht =>
      cases kind with
      | back => exact ⟨hcd, .some (.cycle hs.id ht.id)⟩
      | _ => exact ⟨hcd, .none⟩
    | @leave i j m n hij hmn =>
      refine ⟨?_, .none⟩
      show List.Forall₂ R (c.order.push i).toList (d.order.push j).toList
      rw [Array.toList_push, Array.toList_push]
      exact List.rel_append hcd (.cons hij .nil)

namespace Registry

section
variable {R : NodeIndex → NodeIndex → Prop}

/-- Alike graphs in alike orders give alike results. -/
theorem alike_of_orders {g k : Graph ι α} {order order' : Array NodeIndex} (h : g.Alike R k)
    (horder : List.Forall₂ R order.toList order'.toList) :
    Resolution.Alike (.ok ⟨g, order⟩) (.ok ⟨k, order'⟩) := by
  obtain ⟨ms, ns, hms, hns, hall⟩ := h.exists_mapM_node horder
  have hids : List.Forall₂ (· == ·) (ms.map (·.id)) (ns.map (·.id)) := by
    rw [List.forall₂_map_left_iff, List.forall₂_map_right_iff]
    exact hall.imp fun _ _ hmn => hmn.id
  have hpayloads : ms.map (·.payload) = ns.map (·.payload) := by
    rw [← List.forall₂_eq_eq_eq, List.forall₂_map_left_iff, List.forall₂_map_right_iff]
    exact hall.imp fun _ _ hmn => hmn.payload
  have hg : (Resolution.mk g order).nodes = .ok ms := hms
  have hk : (Resolution.mk k order').nodes = .ok ns := hns
  have hgids : (Resolution.mk g order).ids = .ok (ms.map (·.id)) := by
    rw [Resolution.ids, hg]
    rfl
  have hkids : (Resolution.mk k order').ids = .ok (ns.map (·.id)) := by
    rw [Resolution.ids, hk]
    rfl
  have hgpayloads : (Resolution.mk g order).payloads = .ok (ms.map (·.payload)) := by
    rw [Resolution.payloads, hg]
    rfl
  have hkpayloads : (Resolution.mk k order').payloads = .ok (ms.map (·.payload)) := by
    rw [Resolution.payloads, hk, hpayloads]
    rfl
  exact .ok hgids hkids hids hgpayloads hkpayloads

/-- Walks with alike outcomes collect alike results. -/
theorem alike_collect {r r' : Registry ι α} {log log' : Array (Log.Entry ι)}
    (h : (r.graph.walkEach collector { log } r.starts).Alike R
      (fun c d => List.Forall₂ R c.order.toList d.order.toList) ResolveError.Alike
      (r'.graph.walkEach collector { log := log' } r'.starts)) :
    Resolution.Alike (r.collect log).result (r'.collect log').result := by
  unfold collect
  generalize r.graph.walkEach collector _ r.starts = outcome at h
  generalize r'.graph.walkEach collector _ r'.starts = outcome' at h
  cases h with
  | ok hg horder => exact alike_of_orders hg horder
  | stopped _ _ herror => exact .error herror

end

/-! ### Histories -/

variable [EquivBEq ι] [LawfulHashable ι] {h k : History ι α}

section
variable {r r' : Registry ι α} (hr : r.Represents h.mentions h.declares h.registers)
  (hground : h.Grounded)
include hr hground

private theorem isEntered_of_grounded (log : Array (Log.Entry ι))
    (hok : (r.graph.walkEach collector { log } r.roots.toList).result = .ok ()) :
    ∀ i < r.graph.size,
      (r.graph.walkEach collector { log } r.roots.toList).graph.IsEntered i := by
  have hroots : ∀ p ∈ r.roots.toList, p < r.graph.size := by
    intro p hp
    obtain ⟨a, -, ha⟩ := (hr.roots.mem_iff p).mp hp
    exact hr.records.indexed.lt_size ha
  have hbegin : Collecting r.graph [] r.graph ({ log } : Collection ι).order :=
    .of_untouched hr.records.untouched
  have hend := collectsEach_walkEach hr.records.directed hr.records.closed hbegin _ hroots
  generalize r.graph.walkEach collector { log } _ = outcome at hok hend ⊢
  cases hend with
  | cycle => cases hok
  | ok hg =>
    intro i hi
    obtain ⟨a, ha⟩ := hr.records.exists_find? hi
    have hmentioned := (hr.records.exists_find?_iff a).mp ⟨i, ha⟩
    obtain ⟨b, hb, hba⟩ := hground a hmentioned
    obtain ⟨p, hp, hbp⟩ := hr.roots.exists_find? hb
    have hreached := (hr.records.reaches_iff hbp ha).mp hba
    rw [← Graph.edge_congr hg.reset_eq] at hreached
    exact (hg.clean.settled.isFinished (hg.isFinished p hp) hreached).isEntered

/-- The walks of registries with matching histories have alike outcomes. -/
theorem alike_walks (hr' : r'.Represents k.mentions k.declares k.registers) (hm : h.Matches k)
    (log log' : Array (Log.Entry ι)) :
    (r.graph.walkEach collector { log } r.starts).Alike (r.graph.SameName r'.graph)
      (fun c d => List.Forall₂ (r.graph.SameName r'.graph) c.order.toList d.order.toList)
      ResolveError.Alike (r'.graph.walkEach collector { log := log' } r'.starts) := by
  have hR := Graph.biUnique_sameName hr.records.indexed hr'.records.indexed
  have hgraphs := hr.records.alike hr'.records hm
  have hroots := hr.roots.sameName hr'.roots hm.roots
  have hwalks := hgraphs.walkEach (respects_collector _) hR hroots
    (s := { log }) (t := { log := log' }) .nil
  have hentered := isEntered_of_grounded hr hground log
  -- After the registered identifiers there is nothing left to walk, under either numbering.
  have hlast : r.graph.walkEach collector { log } r.starts =
      r.graph.walkEach collector { log } r.roots.toList :=
    Graph.walkEach_append fun hok i hi => hentered hok i (List.mem_range.mp hi)
  have hlast' : r'.graph.walkEach collector { log := log' } r'.starts =
      r'.graph.walkEach collector { log := log' } r'.roots.toList := by
    apply Graph.walkEach_append
    intro hok j hj
    obtain ⟨hfirst, halike⟩ := hwalks.of_ok hok
    obtain ⟨a, ha⟩ := hr'.records.exists_find? (List.mem_range.mp hj)
    have hmentioned := (hr'.records.exists_find?_iff a).mp ⟨j, ha⟩
    rw [← hm.mentions] at hmentioned
    obtain ⟨i, hi⟩ := (hr.records.exists_find?_iff a).mpr hmentioned
    exact halike.isEntered ⟨a, hi, ha⟩ (hentered hfirst i (hr.records.indexed.lt_size hi))
  rw [hlast, hlast']
  exact hwalks

end

omit [Hashable ι] [LawfulHashable ι] in
private theorem contains_missing (h : History ι α) (a : ι) :
    h.missing.contains a = (h.mentions.contains a && (latest h.registers a).isNone) := by
  have hnone (b : ι) : (!h.registers.any (·.1 == b)) = (latest h.registers b).isNone := by
    rw [← isSome_latest, Option.not_isSome]
  rw [Bool.eq_iff_iff, Bool.and_eq_true, ← contains_eraseDups h.mentions,
    List.contains_iff_exists_mem_beq, List.contains_iff_exists_mem_beq]
  simp only [History.missing, History.identifiers, hnone, List.mem_filter]
  constructor
  · rintro ⟨b, ⟨hb, hmissing⟩, hab⟩
    rw [latest_congr hab]
    exact ⟨⟨b, hb, hab⟩, hmissing⟩
  · rintro ⟨⟨b, hb, hab⟩, hmissing⟩
    rw [latest_congr hab] at hmissing
    exact ⟨b, ⟨hb, hmissing⟩, hab⟩

omit [Hashable ι] [LawfulHashable ι] in
private theorem contains_missing_of_matches (hm : h.Matches k) (a : ι) :
    h.missing.contains a = k.missing.contains a := by
  rw [contains_missing, contains_missing, hm.mentions, hm.payload]

omit [Hashable ι] [LawfulHashable ι] in
private theorem missing_eq_nil_of_matches (hm : h.Matches k) : h.missing = [] ↔ k.missing = [] := by
  have hnil (as : List ι) : as = [] ↔ ∀ a, as.contains a = false := by
    constructor
    · rintro rfl a
      rfl
    · intro hnone
      apply List.eq_nil_iff_forall_not_mem.mpr
      intro a ha
      have hself : as.contains a = true :=
        List.contains_iff_exists_mem_beq.mpr ⟨a, ha, BEq.refl a⟩
      rw [hnone a] at hself
      cases hself
  rw [hnil, hnil]
  simp only [contains_missing_of_matches hm]

/-- Histories that match are resolved alike, if every identifier is reached from one that is
registered: an order holds the same identifiers and payloads, a cycle has the same ends, and a list
of missing identifiers names the same ones. -/
theorem alike_resolve (options : Options) (hm : h.Matches k) (hground : h.Grounded) :
    Resolution.Alike (ofHistory options h).resolve (ofHistory options k).resolve := by
  have hr := represents_ofHistory options h
  have hr' := represents_ofHistory options k
  by_cases ht : options.requirePayloads = false ∨ h.missing = []
  · have htolerant : (ofHistory options h).Tolerant := (tolerant_iff options h).mpr ht
    rw [missing_eq_nil_of_matches hm] at ht
    have htolerant' : (ofHistory options k).Tolerant := (tolerant_iff options k).mpr ht
    obtain ⟨log, hlog⟩ := exists_collect htolerant
    obtain ⟨log', hlog'⟩ := exists_collect htolerant'
    rw [hlog, hlog']
    exact alike_collect (alike_walks hr hground hr' hm log log')
  · rw [not_or, Bool.not_eq_false] at ht
    have hmissing' : k.missing ≠ [] := by
      rw [Ne, ← missing_eq_nil_of_matches hm]
      exact ht.2
    rw [resolve_of_missing options h ht.1 ht.2, resolve_of_missing options k ht.1 hmissing']
    exact .error (.unresolved (contains_missing_of_matches hm))

/-- Two entities, each declared in one call. -/
def gathered : History Nat String :=
  [.declaration ⟨1, "app", [2, 3]⟩, .declaration ⟨2, "lib", [3]⟩]

/-- The same in other calls: a dependent comes after its dependencies, and one dependency and one
payload are given twice. -/
def scattered : History Nat String :=
  [.dependencies 2 [3], .node 1 "draft", .dependencies 1 [2], .node 2 "lib",
    .dependencies 1 [3, 2], .node 1 "app"]

/-- One more dependency, which closes a cycle. -/
def closing : History Nat String := [.dependencies 3 [1]]

/-- One entity without a payload for what it depends on. -/
def loose : History Nat String := [.declaration ⟨1, "app", [2, 3]⟩]

/-- The same, with the dependencies mentioned before. -/
def looseReversed : History Nat String :=
  [.dependencies 3 [], .dependencies 2 [], .node 1 "app", .dependencies 1 [2, 3]]

/-- The nodes of the two registries are numbered differently, and the order is the same. So is the
cycle, and a refusal names the same identifiers in the order in which each history mentions them. -/
theorem alike_resolve_scattered :
    (gathered.Matches scattered ∧ gathered.Grounded ∧
      gathered.identifiers = [1, 2, 3] ∧ scattered.identifiers = [2, 3, 1] ∧
      Resolution.Alike (ofHistory .lenient gathered).resolve
        (ofHistory .lenient scattered).resolve ∧
      ∀ h ∈ [gathered, scattered],
        (ofHistory .lenient h).resolve.toOption.map (fun res => (res.ids, res.payloads)) =
          some (.ok [3, 2, 1], .ok [none, some "lib", some "app"])) ∧
    ((gathered ++ closing).Matches (closing ++ scattered) ∧ (gathered ++ closing).Grounded ∧
      Resolution.Alike (ofHistory .lenient (gathered ++ closing)).resolve
        (ofHistory .lenient (closing ++ scattered)).resolve ∧
      ∀ h ∈ [gathered ++ closing, closing ++ scattered],
        (ofHistory .lenient h).resolve = .error (.stopped (.cycle 3 1))) ∧
    loose.Matches looseReversed ∧ loose.Grounded ∧
      Resolution.Alike (ofHistory .strict loose).resolve
        (ofHistory .strict looseReversed).resolve ∧
      (ofHistory .strict loose).resolve = .error (.stopped (.unresolved [2, 3])) ∧
      (ofHistory .strict looseReversed).resolve = .error (.stopped (.unresolved [3, 2])) := by
  refine ⟨?order, ?cycle, ?refusal⟩
  case order =>
    have hm : gathered.Matches scattered := by decide
    have hground : gathered.Grounded := History.grounded_of_mem (by decide)
    refine ⟨hm, hground, by decide, by decide, alike_resolve .lenient hm hground, ?_⟩
    simp only [List.forall_mem_cons]
    exact ⟨by cbv, by cbv, by simp⟩
  case cycle =>
    have hm : (gathered ++ closing).Matches (closing ++ scattered) := by decide
    have hground : (gathered ++ closing).Grounded := History.grounded_of_mem (by decide)
    refine ⟨hm, hground, alike_resolve .lenient hm hground, ?_⟩
    simp only [List.forall_mem_cons]
    exact ⟨by cbv, by cbv, by simp⟩
  case refusal =>
    have hm : loose.Matches looseReversed := by decide
    have hground : loose.Grounded := History.grounded_of_mem (by decide)
    exact ⟨hm, hground, alike_resolve .strict hm hground, by cbv, by cbv⟩

end Registry

end Precedence
