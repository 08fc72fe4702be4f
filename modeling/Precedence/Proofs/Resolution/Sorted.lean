import Mathlib
import Precedence.Proofs.Registry.Queries
import Precedence.Proofs.Resolution.Views

/-!
# Histories that are in order already

Where every identifier is registered, and after all that it depends on, each start finds its
dependencies listed and adds itself alone: the order is that of the registrations. An order that
has been found is one in which dependencies come first, so a history that registers it in this way
is resolved to it again.
-/

namespace Precedence

open Relation (TransGen)

variable {ι α β : Type} [BEq ι]

namespace History

/-- At some point the first identifier has been registered and the second has not. -/
def RegistersBefore (h : History ι α) (b a : ι) : Prop :=
  ∃ before, before <+: h.roots ∧ before.contains b ∧ ¬ before.contains a

/-- Every identifier is registered, and after all that it depends on. -/
structure DependenciesFirst (h : History ι α) : Prop where
  registered : ∀ a, h.mentions.contains a → h.roots.contains a
  earlier : ∀ a b, h.DependsOn a b → h.RegistersBefore b a

/-- The identifiers of an order are registered in this order, no others are mentioned, and no
dependency is declared that `h` does not declare. -/
structure Rebuilds (k : History ι α) (h : History ι β) (ids : List ι) : Prop where
  mentions : ∀ a, k.mentions.contains a → h.mentions.contains a
  roots : List.Forall₂ (· == ·) k.roots ids
  dependsOn : ∀ a b, k.DependsOn a b → h.DependsOn a b

private theorem Rebuilds.of_subset [ReflBEq ι] {k : History ι α} {h : History ι β} {ids : List ι}
    (hmentions : k.mentions ⊆ h.mentions) (hroots : k.roots = ids)
    (hdeclares : k.declares ⊆ h.declares) : k.Rebuilds h ids where
  mentions _ ha := contains_of_subset hmentions ha
  roots := hroots ▸ List.forall₂_same.mpr fun a _ => BEq.refl a
  dependsOn := by
    rintro a b ⟨d, hd, hab⟩
    exact ⟨d, hdeclares hd, hab⟩

section
variable {h : History ι α} {a b c : ι}

/-- What is registered before something registered earlier is registered earlier still. -/
theorem RegistersBefore.trans (hcb : h.RegistersBefore c b) (hba : h.RegistersBefore b a) :
    h.RegistersBefore c a := by
  obtain ⟨before, hbefore, hc, hnb⟩ := hcb
  obtain ⟨before', hbefore', hb, hna⟩ := hba
  refine ⟨before, hbefore, hc, ?_⟩
  intro ha
  -- Of the two beginnings, the one without `b` is the shorter one.
  rcases List.prefix_or_prefix_of_prefix hbefore hbefore' with hshort | hlong
  · exact hna (contains_of_subset hshort.subset ha)
  · exact hnb (contains_of_subset hlong.subset hb)

private theorem not_registersBefore_self (h : History ι α) (a : ι) : ¬ h.RegistersBefore a a := by
  rintro ⟨before, -, ha, hna⟩
  exact hna ha

/-- What is reached in one or more steps is registered before. -/
theorem DependenciesFirst.registersBefore (hd : h.DependenciesFirst)
    (hab : TransGen h.DependsOn a b) : h.RegistersBefore b a := by
  induction hab with
  | single hab => exact hd.earlier _ _ hab
  | tail _ hbc ih => exact (hd.earlier _ _ hbc).trans ih

/-- Where dependencies come first, nothing depends on itself. -/
theorem DependenciesFirst.not_cyclic (hd : h.DependenciesFirst) : ¬ h.Cyclic := by
  rintro ⟨a, ha⟩
  exact h.not_registersBefore_self a (hd.registersBefore ha)

variable [EquivBEq ι]

private theorem DependenciesFirst.missing_eq_nil (hd : h.DependenciesFirst) : h.missing = [] := by
  rw [missing, List.filter_eq_nil_iff]
  intro a ha
  have hmentioned : h.mentions.contains a := by
    rw [← contains_eraseDups]
    exact List.contains_iff_exists_mem_beq.mpr ⟨a, ha, BEq.refl a⟩
  have hregistered := hd.registered a hmentioned
  rw [roots, contains_eraseDups, List.contains_iff_exists_mem_beq] at hregistered
  obtain ⟨b, hb, hab⟩ := hregistered
  obtain ⟨p, hp, rfl⟩ := List.mem_map.mp hb
  rw [Bool.not_eq_true', Bool.not_eq_false, List.any_eq_true]
  exact ⟨p, hp, PartialEquivBEq.symm hab⟩

/-- The first spelling of an identifier is one of its spellings. -/
theorem spelling_beq (h : History ι α) (a : ι) : h.spelling a == a := by
  rw [spelling]
  cases hfind : h.mentions.find? (· == a) with
  | none => exact BEq.refl a
  | some b => simpa using List.find?_some hfind

end

end History

variable [Hashable ι]

/-! ### Registered in order -/

namespace Registry

section
variable [EquivBEq ι] [LawfulHashable ι] {r : Registry ι α} {h : History ι α}
  (hr : r.Represents h.mentions h.declares h.registers) (hd : h.DependenciesFirst)
include hr hd

private theorem Represents.mem_roots {i : NodeIndex} (hi : i < r.graph.size) :
    i ∈ r.roots.toList := by
  obtain ⟨a, ha⟩ := hr.records.exists_find? hi
  have hmentioned := (hr.records.exists_find?_iff a).mp ⟨i, ha⟩
  exact (hr.roots.mem_iff_contains hr.records.indexed ha).mpr (hd.registered a hmentioned)

private theorem Represents.exists_prefix_roots {i j : NodeIndex} (hij : r.graph.Edge i j) :
    ∃ before, before <+: r.roots.toList ∧ j ∈ before ∧ i ∉ before := by
  obtain ⟨a, ha⟩ := hr.records.exists_find? hij.source_lt
  obtain ⟨b, hb⟩ := hr.records.exists_find? (hr.records.closed i j hij)
  have hab := (hr.records.dependsOn_iff a b).mpr ⟨i, j, ha, hb, hij⟩
  obtain ⟨before, ⟨after, hcut⟩, hbb, hna⟩ := hd.earlier a b hab
  have hroots := hr.roots
  rw [show (h.registers.map (·.1)).eraseDups = before ++ after from hcut.symm] at hroots
  obtain ⟨is, js, hsplit, his, -⟩ := hroots.of_append
  refine ⟨is, ⟨js, hsplit.symm⟩, ?_, ?_⟩
  · exact (his.mem_iff_contains hr.records.indexed hb).mpr hbb
  · rwa [his.mem_iff_contains hr.records.indexed ha]

private theorem Represents.postorder_roots :
    Postorder r.graph.successors [] r.starts r.roots.toList := by
  have hnodup : r.roots.toList.Nodup := hr.roots.nodup hr.records.indexed (pairwise_eraseDups _)
  have hsorted : Postorder r.graph.successors [] r.roots.toList r.roots.toList :=
    .of_sorted hnodup fun i _ j hij => hr.exists_prefix_roots hd hij
  refine hsorted.append (.of_subset ?_)
  intro i hi
  exact hr.mem_roots hd (List.mem_range.mp hi)

end

variable [EquivBEq ι] [LawfulHashable ι]

/-- A history in which dependencies come first is resolved to its registrations. -/
theorem resolve_of_dependenciesFirst (options : Options) {h : History ι α}
    (hd : h.DependenciesFirst) :
    ∃ res, (ofHistory options h).resolve = .ok res ∧ res.ids = .ok (h.roots.map h.spelling) := by
  have hr := represents_ofHistory options h
  have htolerant := (tolerant_iff options h).mpr (.inr hd.missing_eq_nil)
  obtain ⟨res, hres⟩ := (resolve_iff_of_tolerant options h htolerant).2.mpr hd.not_cyclic
  obtain ⟨hg, hpostorder⟩ := postorder_of_resolve options h hres
  obtain ⟨ids, hids, hmap⟩ := hg.exists_map_id?
  have horder := hpostorder.unique (hr.postorder_roots hd)
  rw [horder, hr.records.map_id?_of_locates hr.roots, ← Function.comp_def some h.spelling,
    ← List.map_map] at hmap
  have hspelled : h.roots.map h.spelling = ids :=
    (List.map_inj_right fun _ _ => Option.some.inj).mp hmap
  exact ⟨res, hres, hspelled ▸ hids⟩

end Registry

/-! ### Registered in an order that has been found -/

omit [Hashable ι] in
private theorem exists_getElem?_of_forall₂ {as bs : List ι} (h : List.Forall₂ (· == ·) as bs)
    {p : Nat}
    {b : ι} (hb : bs[p]? = some b) : ∃ a, as[p]? = some a ∧ a == b := by
  obtain ⟨hlength, hequal⟩ := List.forall₂_iff_get.mp h
  obtain ⟨hlt, rfl⟩ := List.getElem?_eq_some_iff.mp hb
  exact ⟨as[p], List.getElem?_eq_getElem (hlength ▸ hlt), hequal p (hlength ▸ hlt) hlt⟩

section
variable [EquivBEq ι] {res : Resolution ι β} {h : History ι β} {k : History ι α}
  {ns : List (Node ι β)} (hviews : res.Views h ns) (hk : k.Rebuilds h (ns.map (·.id)))
include hviews hk

private theorem Resolution.Views.position?_of_rebuilds (a : ι) (p : Nat) :
    res.position? a = some p ↔ ∃ b, k.roots[p]? = some b ∧ b == a := by
  rw [hviews.position]
  constructor
  · rintro ⟨n, hn, hna⟩
    have hid : (ns.map (·.id))[p]? = some n.id := by
      rw [List.getElem?_map, hn]
      rfl
    obtain ⟨b, hb, hbn⟩ := exists_getElem?_of_forall₂ hk.roots hid
    exact ⟨b, hb, PartialEquivBEq.trans hbn hna⟩
  · rintro ⟨b, hb, hba⟩
    obtain ⟨c, hc, hcb⟩ :=
      exists_getElem?_of_forall₂ (hk.roots.flip.imp fun _ _ => PartialEquivBEq.symm) hb
    rw [List.getElem?_map, Option.map_eq_some_iff] at hc
    obtain ⟨n, hn, rfl⟩ := hc
    exact ⟨n, hn, PartialEquivBEq.trans hcb hba⟩

private theorem Resolution.Views.registersBefore_of_rebuilds {a b : ι} {p q : Nat}
    (hp : res.position? b = some p) (hq : res.position? a = some q) (hpq : p < q) :
    k.RegistersBefore b a := by
  refine ⟨k.roots.take (p + 1), List.take_prefix _ _, ?_, ?_⟩
  · obtain ⟨c, hc, hcb⟩ := (hviews.position?_of_rebuilds hk b p).mp hp
    have htaken : (k.roots.take (p + 1))[p]? = some c := by
      rw [List.getElem?_take_of_lt (Nat.lt_succ_self p), hc]
    exact List.contains_iff_exists_mem_beq.mpr
      ⟨c, List.mem_of_getElem? htaken, PartialEquivBEq.symm hcb⟩
  · intro ha
    obtain ⟨c, hc, hac⟩ := List.contains_iff_exists_mem_beq.mp ha
    obtain ⟨r, hr⟩ := List.getElem?_of_mem hc
    rw [List.getElem?_take] at hr
    split at hr
    · next hrp =>
      -- Found among the first ones, `a` would have a second position.
      have hsecond := (hviews.position?_of_rebuilds hk a r).mpr ⟨c, hr, PartialEquivBEq.symm hac⟩
      rw [hq, Option.some.injEq] at hsecond
      omega
    · cases hr

private theorem Resolution.Views.contains_roots_of_rebuilds {a : ι} {p : Nat}
    (hp : res.position? a = some p) : k.roots.contains a := by
  obtain ⟨b, hb, hba⟩ := (hviews.position?_of_rebuilds hk a p).mp hp
  exact List.contains_iff_exists_mem_beq.mpr
    ⟨b, List.mem_of_getElem? hb, PartialEquivBEq.symm hba⟩

end

namespace Registry

variable [EquivBEq ι] [LawfulHashable ι]

/-- To register what has been ordered, in this order, is to register dependencies first. -/
theorem dependenciesFirst_of_rebuilds {options : Options} {h : History ι β} {k : History ι α}
    {res : Resolution ι β} {ids : List ι} (hres : (ofHistory options h).resolve = .ok res)
    (hids : res.ids = .ok ids) (hk : k.Rebuilds h ids) : k.DependenciesFirst := by
  have hr := (represents_ofHistory options h).records
  have hg := (postorder_of_resolve options h hres).1
  have hall : ∀ i < (ofHistory options h).graph.size, i ∈ (ofHistory options h).starts :=
    fun _ => mem_starts_of_lt options h
  obtain ⟨ns, hviews⟩ := hg.exists_views hr hall
  rw [hviews.ids, Except.ok.injEq] at hids
  subst hids
  refine ⟨?_, ?_⟩
  · intro a ha
    have hknown : res.position? a ≠ none := by
      rw [Ne, hviews.unknown, not_not]
      exact hk.mentions a ha
    obtain ⟨p, hp⟩ := Option.ne_none_iff_exists'.mp hknown
    exact hviews.contains_roots_of_rebuilds hk hp
  · intro a b hab
    obtain ⟨p, q, hp, hq, hpq⟩ := hg.exists_positions hr hall (hk.dependsOn a b hab)
    exact hviews.registersBefore_of_rebuilds hk hp hq hpq

/-- Where dependencies come first, the order is that of the registrations; and an order that has
been found, whatever it was found for, is found again if its identifiers are registered in it and
the same dependencies are declared, before, between or after them. -/
theorem restored_of_resolve (options : Options) (k : History ι α) :
    (k.DependenciesFirst →
      ∃ res, (ofHistory options k).resolve = .ok res ∧ res.ids = .ok (k.roots.map k.spelling)) ∧
    ∀ {β : Type} (options' : Options) (h : History ι β) (res : Resolution ι β) (ids : List ι),
      (ofHistory options' h).resolve = .ok res → res.ids = .ok ids → k.Rebuilds h ids →
        ∃ res' ids', (ofHistory options k).resolve = .ok res' ∧ res'.ids = .ok ids' ∧
          List.Forall₂ (· == ·) ids' ids := by
  refine ⟨resolve_of_dependenciesFirst options, ?_⟩
  intro β options' h res ids hres hids hk
  obtain ⟨res', hres', hids'⟩ :=
    resolve_of_dependenciesFirst options (dependenciesFirst_of_rebuilds hres hids hk)
  refine ⟨res', _, hres', hids', ?_⟩
  rw [List.forall₂_map_left_iff]
  exact hk.roots.imp fun a _ hab => PartialEquivBEq.trans (k.spelling_beq a) hab

/-- Entities are declared ahead of what they depend on, and the last is never registered. -/
def declared : History Nat String := [.declaration ⟨1, "app", [2, 3]⟩, .declaration ⟨2, "lib", [3]⟩]

/-- All of them are registered as they were ordered, with one dependency told too early. -/
def redeclared : History Nat Unit :=
  [.dependencies 2 [3], .node 3 (), .dependencies 1 [2], .node 2 (), .node 1 (),
    .dependencies 1 [3]]

/-- Dependencies may be told before, between and after the registrations. -/
theorem restored_of_resolve_redeclared :
    redeclared.DependenciesFirst ∧
      (∃ res, (ofHistory .strict redeclared).resolve = .ok res ∧ res.ids = .ok [3, 2, 1]) ∧
      ∃ res res' ids', (ofHistory .lenient declared).resolve = .ok res ∧
        res.ids = .ok [3, 2, 1] ∧ (ofHistory .strict redeclared).resolve = .ok res' ∧
        res'.ids = .ok ids' ∧ List.Forall₂ (· == ·) ids' [3, 2, 1] := by
  have hread : (ofHistory .lenient declared).resolve.toOption.map (·.ids) =
      some (.ok [3, 2, 1]) := by cbv
  obtain ⟨res, hres, hids⟩ := exists_ok_of_map_toOption hread
  have hk : redeclared.Rebuilds declared [3, 2, 1] :=
    .of_subset (by decide) (by decide) (by decide)
  have hd : redeclared.DependenciesFirst := dependenciesFirst_of_rebuilds hres hids hk
  obtain ⟨hfirst, hagain⟩ := restored_of_resolve .strict redeclared
  obtain ⟨res', ids', hres', hids', hequal⟩ := hagain .lenient declared res _ hres hids hk
  exact ⟨hd, hfirst hd, res, res', ids', hres, hids, hres', hids', hequal⟩

end Registry

end Precedence
