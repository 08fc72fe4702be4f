import Mathlib
import Precedence.Proofs.Resolution.Interleaving
import Precedence.Proofs.Resolution.StartOrder

/-!
# Histories that go on

A history may go on without a word about the dependencies of what it has mentioned: new identifiers
are registered and depend on old ones, old ones are registered again. The nodes of the old
identifiers then stay where they are, with the edges they have. If every old identifier is reached
from a registered one, the old order is the beginning of the new one, and a cycle is among the new
identifiers alone.
-/

namespace Precedence

open Relation (ReflTransGen TransGen)

variable {ι α : Type} [BEq ι]

namespace History

/-! ### What is spared -/

/-- No dependency of what `h` mentions is declared by `k`. -/
def Spares (k h : History ι α) : Prop := ∀ d ∈ k.declares, ¬ h.mentions.contains d.1

instance (h k : History ι α) : Decidable (k.Spares h) :=
  inferInstanceAs (Decidable (∀ d ∈ k.declares, ¬ h.mentions.contains d.1))

section
variable [EquivBEq ι] {h k : History ι α} {a b : ι}

private theorem Spares.targetsOf_eq (hk : k.Spares h) (ha : h.mentions.contains a) :
    targetsOf (h ++ k).declares a = targetsOf h.declares a := by
  have hnone : k.declares.filter (·.1 == a) = [] := by
    rw [List.filter_eq_nil_iff]
    intro d hd hda
    exact hk d hd (contains_congr hda ▸ ha)
  rw [targetsOf, targetsOf, declares_append, List.filter_append, hnone, List.append_nil]

private theorem Spares.dependsOn (hk : k.Spares h) (ha : h.mentions.contains a)
    (hab : (h ++ k).DependsOn a b) : h.DependsOn a b ∧ h.mentions.contains b := by
  obtain ⟨d, hd, hda, hdb⟩ := hab
  rw [declares_append, List.mem_append] at hd
  rcases hd with hd | hd
  · obtain ⟨c, hc, hdc⟩ := List.mem_flatMap.mp hd
    have hmem : d.2 ∈ h.mentions :=
      List.mem_flatMap.mpr ⟨c, hc, Registration.snd_mem_mentions_of_declares hdc⟩
    exact ⟨⟨d, hd, hda, hdb⟩,
      List.contains_iff_exists_mem_beq.mpr ⟨d.2, hmem, PartialEquivBEq.symm hdb⟩⟩
  · exact absurd (contains_congr hda ▸ ha) (hk d hd)

private theorem Spares.transGen (hk : k.Spares h) (ha : h.mentions.contains a)
    (hab : TransGen (h ++ k).DependsOn a b) :
    TransGen h.DependsOn a b ∧ h.mentions.contains b := by
  induction hab with
  | single hab => exact (hk.dependsOn ha hab).imp_left .single
  | tail _ hbc ih =>
    obtain ⟨hab, hb⟩ := ih
    obtain ⟨hbc, hc⟩ := hk.dependsOn hb hbc
    exact ⟨hab.tail hbc, hc⟩

end

end History

/-! ### The nodes of what is spared -/

namespace Graph

variable [Hashable ι] [EquivBEq ι] {g g' : Graph ι α} {h k : History ι α}
  (hr : g.Records h.mentions h.declares h.registers)
  (hr' : g'.Records (h ++ k).mentions (h ++ k).declares (h ++ k).registers)
include hr hr'

omit [EquivBEq ι] in
private theorem Records.id?_of_append {i : NodeIndex} (hi : i < g.size) : g'.id? i = g.id? i := by
  have hinitial : g.nodes.toList.map (·.id) <+: g'.nodes.toList.map (·.id) := by
    rw [hr.names, hr'.names, History.mentions_append]
    exact isPrefix_eraseDups _ _
  have hlt : i < (g.nodes.toList.map (·.id)).length := by simpa [size] using hi
  have hname := List.prefix_iff_getElem?.mp hinitial i hlt
  rw [← List.getElem?_eq_getElem hlt] at hname
  simpa [id?] using hname

variable [LawfulHashable ι]

private theorem Records.keeps_of_append : g.Keeps g' := by
  intro a i ha
  obtain ⟨n, hn, hna⟩ := (hr.indexed a i).mp ha
  have hid := hr.id?_of_append hr' (hr.indexed.lt_size ha)
  rw [id?_of_node hn] at hid
  rw [← find?_eq_of_beq hna]
  exact hr'.find?_of_id? hid

private theorem Records.successors_of_append (hk : k.Spares h) {i : NodeIndex} (hi : i < g.size) :
    g'.successors i = g.successors i := by
  obtain ⟨n, hn⟩ := (g.exists_node_iff i).mpr hi
  have hid := hr.id?_of_append hr' hi
  rw [id?_of_node hn] at hid
  obtain ⟨n', hn', hname⟩ := Option.map_eq_some_iff.mp hid
  have hmentioned := (hr.exists_find?_iff n.id).mp ⟨i, hr.indexed.find?_of_node hn⟩
  have hold := (hr.edges i n hn).keep (hr.keeps_of_append hr')
  have hnew := hr'.edges i n' hn'
  rw [hname, hk.targetsOf_eq hmentioned] at hnew
  rw [successors_of_node hn', successors_of_node hn]
  exact hnew.unique hold

end Graph

namespace Registry

variable [Hashable ι] [EquivBEq ι] [LawfulHashable ι] {h k : History ι α}

/-- The roots come first in the same order. -/
theorem roots_of_append {r r' : Registry ι α}
    (hr : r.Represents h.mentions h.declares h.registers)
    (hr' : r'.Represents (h ++ k).mentions (h ++ k).declares (h ++ k).registers) :
    r.roots.toList <+: r'.roots.toList := by
  have hroots := hr'.roots
  rw [History.registers_append, List.map_append] at hroots
  obtain ⟨rest, hrest⟩ := isPrefix_eraseDups (h.registers.map (·.1)) (k.registers.map (·.1))
  rw [← hrest] at hroots
  obtain ⟨is, js, hsplit, his, -⟩ := hroots.of_append
  have hold := hr.roots.keep (hr.records.keeps_of_append hr'.records)
  rw [hsplit, hold.unique his]
  exact List.prefix_append _ _

section
variable (options : Options) (hground : h.Grounded) (hk : k.Spares h)
include hground hk

/-- The nodes that were collected before are collected first. -/
theorem order_of_append {res res' : Resolution ι α}
    (hres : (ofHistory options h).resolve = .ok res)
    (hres' : (ofHistory options (h ++ k)).resolve = .ok res') :
    res.order.toList <+: res'.order.toList := by
  obtain ⟨hg, hpostorder⟩ := postorder_of_resolve options h hres
  obtain ⟨-, hpostorder'⟩ := postorder_of_resolve options (h ++ k) hres'
  have hr := represents_ofHistory options h
  have hr' := represents_ofHistory options (h ++ k)
  obtain ⟨front, hfront, hrest⟩ := hpostorder.split
  -- What the roots reach is everything, so the walks from all nodes add nothing.
  have hall : res.order.toList = front := by
    apply hrest.eq_of_subset
    intro i hi
    obtain ⟨a, ha⟩ := hr.records.exists_find? (List.mem_range.mp hi)
    obtain ⟨b, hb, hba⟩ := hground a ((hr.records.exists_find?_iff a).mp ⟨i, ha⟩)
    obtain ⟨p, hp, hbp⟩ := hr.roots.exists_find? hb
    exact (hfront.mem_iff i).mpr ⟨p, hp, (hr.records.reaches_iff hbp ha).mp hba⟩
  obtain ⟨rest, hroots⟩ := roots_of_append hr hr'
  rw [starts, ← hroots, List.append_assoc] at hpostorder'
  obtain ⟨front', hfront', hrest'⟩ := hpostorder'.split
  have hsame : Postorder (ofHistory options (h ++ k)).graph.successors []
      (ofHistory options h).roots.toList front := by
    apply hfront.congr
    intro i hi
    have hmem : i ∈ res.order := Array.mem_toList_iff.mp (hall ▸ hi)
    have hlt := (hg.mem_order_iff (fun _ => mem_starts_of_lt options h) i).mp hmem
    exact hr.records.successors_of_append hr'.records hk hlt
  rw [hall, hsame.unique hfront']
  exact hrest'.isPrefix

/-- The identifiers of the old order come first. -/
theorem ids_of_append {res res' : Resolution ι α}
    (hres : (ofHistory options h).resolve = .ok res)
    (hres' : (ofHistory options (h ++ k)).resolve = .ok res') :
    ∃ ids ids', res.ids = .ok ids ∧ res'.ids = .ok ids' ∧ ids <+: ids' := by
  have hinitial := order_of_append options hground hk hres hres'
  obtain ⟨hg, -⟩ := postorder_of_resolve options h hres
  obtain ⟨hg', -⟩ := postorder_of_resolve options (h ++ k) hres'
  have hr := (represents_ofHistory options h).records
  have hr' := (represents_ofHistory options (h ++ k)).records
  obtain ⟨ids, hids, hmap⟩ := hg.exists_map_id?
  obtain ⟨ids', hids', hmap'⟩ := hg'.exists_map_id?
  refine ⟨ids, ids', hids, hids', ?_⟩
  have hnames : res.order.toList.map (ofHistory options (h ++ k)).graph.id? =
      res.order.toList.map (ofHistory options h).graph.id? := by
    apply List.map_congr_left
    intro i hi
    have hmem := (hg.mem_order_iff (fun _ => mem_starts_of_lt options h) i).mp
      (Array.mem_toList_iff.mp hi)
    exact hr.id?_of_append hr' hmem
  rw [hmap, map_eq_of_isPrefix hinitial hmap'] at hnames
  rw [← (List.map_inj_right fun _ _ => Option.some.inj).mp hnames]
  exact List.take_prefix _ _

omit hground in
/-- A cycle of the whole history is none of the spared identifiers. -/
theorem not_mentioned_of_cycle {res : Resolution ι α} {a b : ι}
    (hres : (ofHistory options h).resolve = .ok res)
    (herror : (ofHistory options (h ++ k)).resolve = .error (.stopped (.cycle a b))) :
    ¬ h.mentions.contains a ∧ ¬ h.mentions.contains b := by
  obtain ⟨hg, -⟩ := postorder_of_resolve options h hres
  have hacyclic := not_cyclic_of_collecting options h hg
  have hr' := resolves_ofHistory options (h ++ k)
  rw [herror] at hr'
  cases hr' with
  | cycle _ _ hc ha hb =>
    obtain ⟨haa, hbb⟩ := transGen_of_closesCycle options (h ++ k) hc ha hb
    exact ⟨fun hmentioned => hacyclic ⟨a, (hk.transGen hmentioned haa).1⟩,
      fun hmentioned => hacyclic ⟨b, (hk.transGen hmentioned hbb).1⟩⟩

end

/-- A history that goes on without new dependencies of what it has mentioned keeps its order: an
order of the whole begins with it, and a cycle has only new identifiers at its ends. -/
theorem stable_of_resolve (options : Options) (hground : h.Grounded) (hk : k.Spares h)
    {res : Resolution ι α} (hres : (ofHistory options h).resolve = .ok res) :
    (∀ res', (ofHistory options (h ++ k)).resolve = .ok res' →
        ∃ ids ids', res.ids = .ok ids ∧ res'.ids = .ok ids' ∧ ids <+: ids') ∧
      ∀ a b, (ofHistory options (h ++ k)).resolve = .error (.stopped (.cycle a b)) →
        ¬ h.mentions.contains a ∧ ¬ h.mentions.contains b :=
  ⟨fun _ hres' => ids_of_append options hground hk hres hres',
    fun _ _ herror => not_mentioned_of_cycle options hk hres herror⟩

/-- One entity and what it depends on. -/
def settled : History Nat Unit := [.declaration ⟨1, (), [2]⟩]

/-- The dependency is registered too, and all are used by a new entity. -/
def reusing : History Nat Unit := [.node 2 (), .declaration ⟨3, (), [4, 1]⟩, .node 1 ()]

/-- New entities depend on an old one and on each other. -/
def circling : History Nat Unit := [.dependencies 3 [1, 4], .dependencies 4 [3]]

/-- An old dependency has become a root and an old root is depended on, and the order still begins
as before; where new entities close a cycle, it is theirs. -/
theorem stable_of_resolve_reusing :
    settled.Grounded ∧ reusing.Spares settled ∧ circling.Spares settled ∧
      (∃ res, (ofHistory .lenient settled).resolve = .ok res ∧ res.ids = .ok [2, 1] ∧
        ∃ res', (ofHistory .lenient (settled ++ reusing)).resolve = .ok res' ∧ res'.size = 4 ∧
          ∃ ids', res'.ids = .ok ids' ∧ [2, 1] <+: ids') ∧
      (ofHistory .lenient (settled ++ circling)).resolve = .error (.stopped (.cycle 4 3)) ∧
      ¬ settled.mentions.contains 4 ∧ ¬ settled.mentions.contains 3 := by
  have hground : settled.Grounded := History.grounded_of_mem (by decide)
  have hreusing : reusing.Spares settled := by decide
  have hcircling : circling.Spares settled := by decide
  have hread : (ofHistory .lenient settled).resolve.toOption.map (·.ids) = some (.ok [2, 1]) := by
    cbv
  have hread' : (ofHistory .lenient (settled ++ reusing)).resolve.toOption.map (·.size) =
      some 4 := by cbv
  have herror : (ofHistory .lenient (settled ++ circling)).resolve =
      .error (.stopped (.cycle 4 3)) := by cbv
  obtain ⟨res, hres, hids⟩ := exists_ok_of_map_toOption hread
  obtain ⟨res', hres', hsize⟩ := exists_ok_of_map_toOption hread'
  obtain ⟨ids, ids', hold, hnew, hinitial⟩ :=
    (stable_of_resolve .lenient hground hreusing hres).1 res' hres'
  rw [hids] at hold
  cases hold
  exact ⟨hground, hreusing, hcircling,
    ⟨res, hres, hids, res', hres', hsize, ids', hnew, hinitial⟩, herror,
    (stable_of_resolve .lenient hground hcircling hres).2 4 3 herror⟩

end Registry

end Precedence
