import Mathlib
import Precedence.Proofs.Resolution.Ordering

/-!
# Which start comes where

The walks begin at the registered identifiers, in the order of their registration, and then at all
others. What is reached from the first few of these starts takes the first places of the order, as
many as there are identifiers to be reached, and a start that no earlier one reaches takes the last
of the places that it adds. Everything that is reached from a registered identifier therefore comes
before everything that is not.
-/

namespace Precedence

open Relation (ReflTransGen)

variable {ι α : Type} [BEq ι] [Hashable ι]

omit [Hashable ι] in
/-- The identifiers that are reached from one of several, in their first spelling. -/
def History.reach (h : History ι α) (starts : List ι) : Set ι :=
  {a | a ∈ h.identifiers ∧ ∃ s ∈ starts, h.Reaches s a}

/-- An order in which what is reached from earlier starts comes earlier. -/
structure Resolution.FollowsStarts (res : Resolution ι α) (h : History ι α) : Prop where
  /-- What is reached from the first starts takes the first places. -/
  mem_take_iff : ∃ ids, res.ids = .ok ids ∧ ∀ before after, h.starts = before ++ after →
    ∀ a, a ∈ ids.take (h.reach before).ncard ↔ a ∈ h.reach before
  /-- Whatever the spelling, these are the places below the number of what is reached. -/
  position_lt_iff : ∀ before after, h.starts = before ++ after →
    ∀ a, (∃ p, res.position? a = some p ∧ p < (h.reach before).ncard) ↔
      ∃ s ∈ before, h.Reaches s a
  /-- A start that is reached from none before it takes the last of the places that it adds. -/
  position_start : ∀ before s after, h.starts = before ++ s :: after →
    (∀ r ∈ before, ¬ h.Reaches r s) →
      res.position? s = some ((h.reach (before ++ [s])).ncard - 1)
  /-- What is reached from a registered identifier comes before all else. -/
  roots_first : ∀ a b, (∃ r ∈ h.roots, h.Reaches r a) → h.mentions.contains b →
    (∀ r ∈ h.roots, ¬ h.Reaches r b) →
      ∃ p q, res.position? a = some p ∧ res.position? b = some q ∧ p < q

/-! ### Places -/

private theorem idxOf?_of_mem {order : Array NodeIndex} {i : NodeIndex} (hi : i ∈ order) :
    order.idxOf? i = some (order.toList.idxOf i) := by
  obtain ⟨p, hp, -⟩ := exists_idxOf? hi
  cases order with
  | mk is =>
    rw [List.idxOf?_toArray] at hp ⊢
    rw [List.idxOf_eq_getD_idxOf?, hp, Option.getD_some]

/-- The names of the first nodes are the first names. -/
theorem map_eq_of_isPrefix {β γ : Type} {front order : List β} {f : β → Option γ} {as : List γ}
    (hinitial : front <+: order) (hmap : order.map f = as.map some) :
    front.map f = (as.take front.length).map some := by
  rw [List.map_take, ← hmap, ← List.map_take, ← List.prefix_iff_eq_take.mp hinitial]

section
variable [EquivBEq ι] [LawfulHashable ι] {g₀ g : Graph ι α} {h : History ι α}
  {starts is : List NodeIndex} {order : Array NodeIndex} {front : List NodeIndex}
  {before : List ι}

private theorem Graph.Records.mem_reach_iff (hr : g₀.Records h.mentions h.declares h.registers)
    (hlocates : g₀.Locates before is) (hfront : Postorder g₀.successors [] is front) (a : ι) :
    a ∈ h.reach before ↔ ∃ i ∈ front, g₀.id? i = some a := by
  constructor
  · rintro ⟨ha, s, hs, hsa⟩
    obtain ⟨i, hi⟩ := (hr.mem_identifiers_iff a).mp ha
    obtain ⟨p, hp, hsp⟩ := hlocates.exists_find? hs
    have hreach := (hr.reaches_iff hsp (hr.find?_of_id? hi)).mp hsa
    exact ⟨i, (hfront.mem_iff i).mpr ⟨p, hp, hreach⟩, hi⟩
  · rintro ⟨i, hfi, hi⟩
    obtain ⟨p, hp, hreach⟩ := (hfront.mem_iff i).mp hfi
    obtain ⟨s, hs, hsp⟩ := (hlocates.mem_iff p).mp hp
    exact ⟨(hr.mem_identifiers_iff a).mpr ⟨i, hi⟩, s, hs,
      (hr.reaches_iff hsp (hr.find?_of_id? hi)).mpr hreach⟩

private theorem Graph.Records.ncard_reach (hr : g₀.Records h.mentions h.declares h.registers)
    (hlocates : g₀.Locates before is) (hfront : Postorder g₀.successors [] is front)
    (hnodup : front.Nodup) {as : List ι} (has : front.map g₀.id? = as.map some) :
    (h.reach before).ncard = as.length := by
  classical
  have hinj : ∀ i ∈ front, ∀ j ∈ front, g₀.id? i = g₀.id? j → i = j := by
    intro i hi j _ hij
    obtain ⟨a, -, ha⟩ := List.mem_map.mp (has ▸ List.mem_map_of_mem hi)
    exact hr.id?_inj ha.symm (hij ▸ ha.symm)
  have hasnodup : as.Nodup := by
    apply List.Nodup.of_map some
    rw [← has]
    exact hnodup.map_on hinj
  have hreach : h.reach before = (as.toFinset : Set ι) := by
    ext a
    rw [hr.mem_reach_iff hlocates hfront, List.coe_toFinset, Set.mem_ofPred_eq,
      ← List.mem_map_of_injective (Option.some_injective ι), ← has, List.mem_map]
  rw [hreach, Set.ncard_coe_finset, List.toFinset_card_of_nodup hasnodup]

end

/-! ### The places of the starts -/

section
variable [EquivBEq ι] [LawfulHashable ι] {g₀ g : Graph ι α} {h : History ι α}
  {starts : List NodeIndex} {order : Array NodeIndex}
  (hr : g₀.Records h.mentions h.declares h.registers) (hlocates : g₀.Locates h.starts starts)
  (hg : Collecting g₀ starts g order)
  (hpostorder : Postorder g₀.successors [] starts order.toList)

omit [EquivBEq ι] [LawfulHashable ι] in
include hg in
/-- Where an identifier stands is where its node was collected. -/
theorem Collecting.position?_of_find? {a : ι} {i : NodeIndex} (ha : g₀.find? a = some i)
    (hi : i ∈ order) : (Resolution.mk g order).position? a = some (order.toList.idxOf i) := by
  rw [Resolution.position?, Graph.find?_congr hg.reset_eq, ha, Option.bind_some, idxOf?_of_mem hi]

include hr hlocates hg hpostorder

private theorem Collecting.exists_front {before after : List ι}
    (hcut : h.starts = before ++ after) :
    ∃ is front, g₀.Locates before is ∧ Postorder g₀.successors [] is front ∧
      front <+: order.toList ∧ (h.reach before).ncard = front.length := by
  obtain ⟨is, js, rfl, his, -⟩ := Graph.Locates.of_append (hcut ▸ hlocates)
  obtain ⟨front, hfront, hrest⟩ := hpostorder.split
  have hinitial := hrest.isPrefix
  have hnodup : front.Nodup := hg.collected.nodup.sublist hinitial.sublist
  obtain ⟨ids, -, hids⟩ := hg.exists_map_id?
  have htake := map_eq_of_isPrefix hinitial hids
  have hlength : (ids.take front.length).length = front.length := by
    simpa using (congrArg List.length htake).symm
  exact ⟨is, front, his, hfront, hinitial, (hr.ncard_reach his hfront hnodup htake).trans hlength⟩

/-- The places below the number of what the first starts reach are held by just that. -/
theorem Collecting.position_lt_iff {before after : List ι} (hcut : h.starts = before ++ after)
    (a : ι) :
    (∃ p, (Resolution.mk g order).position? a = some p ∧ p < (h.reach before).ncard) ↔
      ∃ s ∈ before, h.Reaches s a := by
  obtain ⟨is, front, his, hfront, hinitial, hcard⟩ :=
    hg.exists_front hr hlocates hpostorder hcut
  rw [hcard]
  constructor
  · rintro ⟨p, hp, hlt⟩
    rw [Resolution.position?, Graph.find?_congr hg.reset_eq, Option.bind_eq_some_iff] at hp
    obtain ⟨i, ha, hi⟩ := hp
    have hmem : i ∈ order := Array.isSome_idxOf?.mp (Option.isSome_iff_exists.mpr ⟨p, hi⟩)
    rw [idxOf?_of_mem hmem, Option.some.injEq] at hi
    rw [← hi, ← hinitial.mem_iff_idxOf_lt_length] at hlt
    obtain ⟨j, hj, hreach⟩ := (hfront.mem_iff i).mp hlt
    obtain ⟨s, hs, hsj⟩ := (his.mem_iff j).mp hj
    exact ⟨s, hs, (hr.reaches_iff hsj ha).mpr hreach⟩
  · rintro ⟨s, hs, hsa⟩
    obtain ⟨j, hj, hsj⟩ := his.exists_find? hs
    obtain ⟨i, ha⟩ := hr.exists_find?_of_reaches hsj hsa
    have hi : i ∈ front := (hfront.mem_iff i).mpr ⟨j, hj, (hr.reaches_iff hsj ha).mp hsa⟩
    refine ⟨order.toList.idxOf i, hg.position?_of_find? ha ?_,
      (hinitial.mem_iff_idxOf_lt_length i).mp hi⟩
    exact Array.mem_toList_iff.mp (hinitial.subset hi)

/-- A start that is reached from none before it is listed last of what it adds. -/
theorem Collecting.position_start {before after : List ι} {s : ι}
    (hcut : h.starts = before ++ s :: after) (hnew : ∀ r ∈ before, ¬ h.Reaches r s) :
    (Resolution.mk g order).position? s = some ((h.reach (before ++ [s])).ncard - 1) := by
  rw [List.append_cons] at hcut
  obtain ⟨is, front, his, hfront, hinitial, hcard⟩ :=
    hg.exists_front hr hlocates hpostorder hcut
  obtain ⟨is, js, rfl, hbefore, hjs⟩ := Graph.Locates.of_append his
  obtain ⟨i, rfl⟩ : ∃ i, js = [i] := List.length_eq_one_iff.mp
    (by simpa using (congrArg List.length hjs).symm)
  have hs : g₀.find? s = some i := List.singleton_inj.mp hjs
  obtain ⟨mid, hmid, hlast⟩ := hfront.split
  have hi : i ∉ mid := by
    intro hi
    obtain ⟨j, hj, hreach⟩ := (hmid.mem_iff i).mp hi
    obtain ⟨r, hr', hrj⟩ := (hbefore.mem_iff j).mp hj
    exact hnew r hr' ((hr.reaches_iff hrj hs).mpr hreach)
  obtain ⟨pre, rfl⟩ := hlast.exists_of_not_mem hi
  have hnodup : (pre ++ [i]).Nodup := hg.collected.nodup.sublist hinitial.sublist
  have hpre : i ∉ pre := by
    intro hpre
    exact (List.nodup_append.mp hnodup).2.2 i hpre i (by simp) rfl
  have hplace : order.toList.idxOf i = pre.length := by
    rw [← hinitial.idxOf_eq_of_mem (by simp), List.idxOf_append_of_notMem hpre,
      List.idxOf_cons_self, Nat.add_zero]
  rw [hg.position?_of_find? hs (Array.mem_toList_iff.mp (hinitial.subset (by simp))), hplace, hcard]
  simp

end

namespace Registry

variable [EquivBEq ι] [LawfulHashable ι]

/-- Whatever a history is resolved to follows the starts: the first of them take the first places
with all that they reach, and each new one takes the last place of what it adds. -/
theorem followsStarts_of_resolve (options : Options) (h : History ι α) {res : Resolution ι α}
    (hres : (ofHistory options h).resolve = .ok res) : res.FollowsStarts h := by
  obtain ⟨hg, hpostorder⟩ := postorder_of_resolve options h hres
  have hr := (represents_ofHistory options h).records
  have hlocates := locates_starts options h
  refine ⟨?_, fun _ _ hcut => hg.position_lt_iff hr hlocates hpostorder hcut,
    fun _ _ _ hcut => hg.position_start hr hlocates hpostorder hcut, ?_⟩
  · obtain ⟨ids, hids, hmap⟩ := hg.exists_map_id?
    refine ⟨ids, hids, ?_⟩
    intro before after hcut a
    obtain ⟨is, front, his, hfront, hinitial, hcard⟩ :=
      hg.exists_front hr hlocates hpostorder hcut
    rw [hcard, hr.mem_reach_iff his hfront, ← List.mem_map, map_eq_of_isPrefix hinitial hmap,
      List.mem_map_of_injective (Option.some_injective ι)]
  · intro a b ha hb hnot
    have hroots := hg.position_lt_iff hr hlocates hpostorder
      (show h.starts = h.roots ++ h.identifiers from rfl)
    obtain ⟨p, hp, hplt⟩ := (hroots a).mpr ha
    obtain ⟨j, hj⟩ := (hr.exists_find?_iff b).mpr hb
    have hmem : j ∈ res.order :=
      (hg.mem_order_iff (fun _ => mem_starts_of_lt options h) j).mpr (hr.indexed.lt_size hj)
    have hq := hg.position?_of_find? hj hmem
    refine ⟨p, _, hp, hq, Nat.lt_of_lt_of_le hplt (Nat.le_of_not_lt fun hqlt => ?_)⟩
    obtain ⟨r, hroot, hrb⟩ := (hroots b).mp ⟨_, hq, hqlt⟩
    exact hnot r hroot hrb

/-- Two registered entities share a dependency, the later one was mentioned first, and what nobody
registers comes last. -/
theorem followsStarts_of_resolve_overlapping :
    ∃ res, (ofHistory .lenient ([.dependencies 5 [2], .dependencies 1 [2, 3], .node 4 (),
        .dependencies 4 [3], .node 1 ()] : History Nat Unit)).resolve = .ok res ∧
      res.ids = .ok [3, 4, 2, 1, 5] ∧
      res.FollowsStarts [.dependencies 5 [2], .dependencies 1 [2, 3], .node 4 (),
        .dependencies 4 [3], .node 1 ()] := by
  have hids : (ofHistory .lenient ([.dependencies 5 [2], .dependencies 1 [2, 3], .node 4 (),
      .dependencies 4 [3], .node 1 ()] : History Nat Unit)).resolve.toOption.map (·.ids) =
        some (.ok [3, 4, 2, 1, 5]) := by cbv
  obtain ⟨res, hres, hread⟩ := exists_ok_of_map_toOption hids
  exact ⟨res, hres, hread, followsStarts_of_resolve .lenient _ hres⟩

end Registry

end Precedence
