import Mathlib
import Precedence.Proofs.Registry.Representation
import Precedence.Proofs.Resolution.Unwinding
import Precedence.Text.CaseFolded

/-!
# How a registry is resolved

`Resolves` has one rule for each outcome: a strict registry refuses missing payloads before it
walks, and otherwise the walks from all starts either close a cycle or leave every node. Read
back through what the registry represents, this decides the outcome from the history alone.
-/

namespace Precedence

open Relation (ReflTransGen TransGen)

variable {ι α : Type} [BEq ι] [Hashable ι]

namespace Registry

/-- Missing payloads do not stand in the way of a walk. -/
def Tolerant (r : Registry ι α) : Prop := r.options.requirePayloads = false ∨ r.unresolved = []

/-- The outcomes of resolving a registry. -/
inductive Resolves (r : Registry ι α) :
    Except (Interruption (ResolveError ι)) (Resolution ι α) → Prop where
  /-- Payloads are required, and some are missing. -/
  | unresolved (hstrict : r.options.requirePayloads = true) (hne : r.unresolved ≠ []) :
      Resolves r (.error (.stopped (.unresolved r.unresolved)))
  /-- The walk from one of the starts has closed a cycle. -/
  | cycle {before after : List NodeIndex} {start i j : NodeIndex} {a b : ι} (ht : r.Tolerant)
      (hs : r.starts = before ++ start :: after) (h : ClosesCycle r.graph before start i j)
      (ha : r.graph.id? i = some a) (hb : r.graph.id? j = some b) :
      Resolves r (.error (.stopped (.cycle a b)))
  /-- All walks are over. -/
  | ok {g : Graph ι α} {order : Array NodeIndex} (ht : r.Tolerant)
      (h : Collecting r.graph r.starts g order) : Resolves r (.ok ⟨g, order⟩)

/-- Walks over an untouched directed graph, from nodes of the graph, resolve a registry. -/
theorem resolves_collect {r : Registry ι α} (ht : r.Tolerant) (hd : r.graph.directed = true)
    (hc : r.graph.Closed) (hnew : r.graph.Untouched)
    (hstarts : ∀ s ∈ r.starts, s < r.graph.size) (log : Array (Log.Entry ι)) :
    r.Resolves (r.collect log).result := by
  have hbegin : Collecting r.graph [] r.graph ({ log } : Collection ι).order :=
    .of_untouched hnew
  have hend := collectsEach_walkEach hd hc hbegin r.starts hstarts
  rw [List.nil_append] at hend
  unfold collect
  cases hw : r.graph.walkEach collector { log } r.starts with
  | mk g c result =>
    rw [hw] at hend
    cases hend with
    | ok h => exact .ok ht h
    | cycle hs h ha hb => exact .cycle ht hs h ha hb

/-- Unless missing payloads stand in the way, a registry is resolved by its walks. -/
theorem exists_collect {r : Registry ι α} (ht : r.Tolerant) :
    ∃ log, r.resolve = (r.collect log).result := by
  unfold resolve report
  dsimp only
  split
  · exact ⟨_, rfl⟩
  · next a as hu =>
    rcases ht with hlenient | hnone
    · rw [if_neg (by simp [hlenient])]
      exact ⟨_, rfl⟩
    · rw [hnone] at hu
      cases hu

/-- An untouched directed graph without edges out of the arena is all that it takes to resolve a
registry by the rules, if the starts are nodes. -/
theorem resolves_resolve {r : Registry ι α} (hd : r.graph.directed = true) (hc : r.graph.Closed)
    (hnew : r.graph.Untouched) (hstarts : ∀ s ∈ r.starts, s < r.graph.size) :
    r.Resolves r.resolve := by
  have hcollect (ht : r.Tolerant) := resolves_collect ht hd hc hnew hstarts
  unfold resolve report
  dsimp only
  split
  · next hu => exact hcollect (.inr hu) _
  · next a as hu =>
    split
    · next hstrict =>
      rw [← hu]
      exact .unresolved hstrict (by simp [hu])
    · next hlenient => exact hcollect (.inl (Bool.not_eq_true _ ▸ hlenient)) _

section
variable [EquivBEq ι] [LawfulHashable ι] (options : Options) (h : History ι α)

/-- All starts are nodes. -/
theorem start_lt_size {s : NodeIndex} (hs : s ∈ (ofHistory options h).starts) :
    s < (ofHistory options h).graph.size := by
  obtain ⟨a, _, ha⟩ := ((locates_starts options h).mem_iff s).mp hs
  exact (represents_ofHistory options h).records.indexed.lt_size ha

omit [EquivBEq ι] [LawfulHashable ι] in
/-- All nodes are starts. -/
theorem mem_starts_of_lt {i : NodeIndex} (hi : i < (ofHistory options h).graph.size) :
    i ∈ (ofHistory options h).starts :=
  List.mem_append_right _ (List.mem_range.mpr hi)

/-- The registry of a history is resolved by the rules. -/
theorem resolves_ofHistory : (ofHistory options h).Resolves (ofHistory options h).resolve :=
  have hr := (represents_ofHistory options h).records
  resolves_resolve hr.directed hr.closed hr.untouched fun _ hs => start_lt_size options h hs

/-- What a history is resolved to is left by walks with the collector. -/
theorem exists_walkEach_of_resolve {res : Resolution ι α}
    (hres : (ofHistory options h).resolve = .ok res) :
    ∃ log c, (ofHistory options h).graph.walkEach collector { log } (ofHistory options h).starts =
      ⟨res.graph, c, .ok ()⟩ ∧ c.order = res.order := by
  have hr := resolves_ofHistory options h
  rw [hres] at hr
  cases hr with
  | ok ht _ =>
    obtain ⟨log, hlog⟩ := exists_collect ht
    refine ⟨log, ?_⟩
    rw [hres, collect] at hlog
    generalize (ofHistory options h).graph.walkEach collector { log } (ofHistory options h).starts =
      r at hlog ⊢
    obtain ⟨g, c, result⟩ := r
    cases result with
    | error e => cases hlog
    | ok =>
      cases hlog
      exact ⟨c, rfl, rfl⟩

/-- The order of a history is the postorder of the starts. -/
theorem postorder_of_resolve {res : Resolution ι α}
    (hres : (ofHistory options h).resolve = .ok res) :
    Collecting (ofHistory options h).graph (ofHistory options h).starts res.graph res.order ∧
      Postorder (ofHistory options h).graph.successors [] (ofHistory options h).starts
        res.order.toList := by
  have hr := resolves_ofHistory options h
  obtain ⟨log, c, hw, horder⟩ := exists_walkEach_of_resolve options h hres
  rw [hres] at hr
  cases hr with
  | ok _ hg =>
    refine ⟨hg, ?_⟩
    have hrecords := (represents_ofHistory options h).records
    have hbegin : Collecting (ofHistory options h).graph [] (ofHistory options h).graph
        ({ log } : Collection ι).order := .of_untouched hrecords.untouched
    have hpostorder := postorder_walkEach hrecords.directed hrecords.closed hbegin
      fun _ hs => start_lt_size options h hs
    rw [hw] at hpostorder
    rw [← horder]
    exact hpostorder rfl

/-- Walks that are over have met no cycle. -/
theorem not_cyclic_of_collecting {g : Graph ι α} {order : Array NodeIndex}
    (hg : Collecting (ofHistory options h).graph (ofHistory options h).starts g order) :
    ¬ h.Cyclic := by
  have hr := (represents_ofHistory options h).records
  rw [hr.cyclic_iff]
  rintro ⟨i, hi⟩
  obtain ⟨j, hij, _⟩ := Relation.TransGen.head'_iff.mp hi
  -- A node on a cycle has an edge, so it is in the arena and the walk has started there too.
  have hstart : i ∈ (ofHistory options h).starts :=
    List.mem_append_right _ (List.mem_range.mpr hij.source_lt)
  rw [← Graph.edge_congr hg.reset_eq] at hi
  exact hg.clean.settled.not_transGen_self (hg.isFinished i hstart) hi

/-- What has been resolved misses no payload that is required, and nothing in it depends on
itself. -/
theorem tolerant_of_resolve {res : Resolution ι α}
    (hres : (ofHistory options h).resolve = .ok res) :
    (ofHistory options h).Tolerant ∧ ¬ h.Cyclic := by
  have hr := resolves_ofHistory options h
  rw [hres] at hr
  cases hr with
  | ok ht hg => exact ⟨ht, not_cyclic_of_collecting options h hg⟩

/-- Both ends of an edge that closes a cycle depend on themselves. -/
theorem transGen_of_closesCycle {before : List NodeIndex} {start i j : NodeIndex} {a b : ι}
    (hc : ClosesCycle (ofHistory options h).graph before start i j)
    (ha : (ofHistory options h).graph.id? i = some a)
    (hb : (ofHistory options h).graph.id? j = some b) :
    TransGen h.DependsOn a a ∧ TransGen h.DependsOn b b := by
  have hr := (represents_ofHistory options h).records
  have hi := hr.find?_of_id? ha
  have hj := hr.find?_of_id? hb
  exact ⟨(hr.transGen_iff a a).mpr ⟨i, i, hi, hi, TransGen.head' hc.edge hc.back⟩,
    (hr.transGen_iff b b).mpr ⟨j, j, hj, hj, TransGen.tail' hc.back hc.edge⟩⟩

private theorem cyclic_of_closesCycle {before : List NodeIndex} {start i j : NodeIndex}
    (hc : ClosesCycle (ofHistory options h).graph before start i j) : h.Cyclic := by
  rw [(represents_ofHistory options h).records.cyclic_iff]
  exact ⟨i, TransGen.head' hc.edge hc.back⟩

/-- A lenient registry is tolerant, and so is one in which nothing is missing. -/
theorem tolerant_iff :
    (ofHistory options h).Tolerant ↔ options.requirePayloads = false ∨ h.missing = [] := by
  rw [Tolerant, options_ofHistory, unresolved_ofHistory]

/-- A strict registry refuses the identifiers that were never given a payload. -/
theorem resolve_of_missing (hstrict : options.requirePayloads = true) (hne : h.missing ≠ []) :
    (ofHistory options h).resolve = .error (.stopped (.unresolved h.missing)) := by
  have hnot : ¬ (ofHistory options h).Tolerant := by
    rw [tolerant_iff, hstrict]
    simp [hne]
  have hr := resolves_ofHistory options h
  generalize (ofHistory options h).resolve = result at hr
  cases hr with
  | unresolved => rw [unresolved_ofHistory]
  | cycle ht => exact absurd ht hnot
  | ok ht => exact absurd ht hnot

private theorem resolve_of_tolerant (ht : (ofHistory options h).Tolerant) :
    ((∃ a b, (ofHistory options h).resolve = .error (.stopped (.cycle a b))) ∧ h.Cyclic) ∨
      ((∃ res, (ofHistory options h).resolve = .ok res) ∧ ¬ h.Cyclic) := by
  have hr := resolves_ofHistory options h
  generalize (ofHistory options h).resolve = result at hr
  cases hr with
  | unresolved hstrict hne =>
    rcases ht with hlenient | hnone
    · rw [hstrict] at hlenient
      cases hlenient
    · exact absurd hnone hne
  | cycle _ _ hc _ _ => exact .inl ⟨⟨_, _, rfl⟩, cyclic_of_closesCycle options h hc⟩
  | ok _ hg => exact .inr ⟨⟨_, rfl⟩, not_cyclic_of_collecting options h hg⟩

/-- Unless payloads are required and missing, it depends on the dependencies alone whether a
history has an order, and if not it has a cycle. -/
theorem resolve_iff_of_tolerant (ht : (ofHistory options h).Tolerant) :
    ((∃ a b, (ofHistory options h).resolve = .error (.stopped (.cycle a b))) ↔ h.Cyclic) ∧
      ((∃ res, (ofHistory options h).resolve = .ok res) ↔ ¬ h.Cyclic) := by
  rcases resolve_of_tolerant options h ht with ⟨⟨a, b, hab⟩, hcyclic⟩ | ⟨⟨res, hres⟩, hcyclic⟩
  · refine ⟨iff_of_true ⟨a, b, hab⟩ hcyclic, iff_of_false ?_ (not_not_intro hcyclic)⟩
    rintro ⟨res, hres⟩
    rw [hab] at hres
    cases hres
  · refine ⟨iff_of_false ?_ hcyclic, iff_of_true ⟨res, hres⟩ hcyclic⟩
    rintro ⟨a, b, hab⟩
    rw [hres] at hab
    cases hab

/-- The history decides the outcome: missing payloads, if they are required, before a cycle, and
a cycle, wherever it lies, before an order. A lenient registry asks for the dependencies alone. -/
theorem resolve_decided :
    (options.requirePayloads = true → h.missing ≠ [] →
        (ofHistory options h).resolve = .error (.stopped (.unresolved h.missing))) ∧
      (options.requirePayloads = false ∨ h.missing = [] →
        ((∃ a b, (ofHistory options h).resolve = .error (.stopped (.cycle a b))) ↔ h.Cyclic) ∧
          ((∃ res, (ofHistory options h).resolve = .ok res) ↔ ¬ h.Cyclic)) ∧
      (options.requirePayloads = false → ∀ k : History ι α,
        (∀ a b, k.DependsOn a b ↔ h.DependsOn a b) →
          ((∃ a b, (ofHistory options k).resolve = .error (.stopped (.cycle a b))) ↔
            ∃ a b, (ofHistory options h).resolve = .error (.stopped (.cycle a b))) ∧
          ((∃ res, (ofHistory options k).resolve = .ok res) ↔
            ∃ res, (ofHistory options h).resolve = .ok res)) := by
  refine ⟨resolve_of_missing options h, ?_, ?_⟩
  · intro ht
    exact resolve_iff_of_tolerant options h ((tolerant_iff options h).mpr ht)
  · intro hlenient k hk
    have hcyclic : k.Cyclic ↔ h.Cyclic := by
      have hdepends : k.DependsOn = h.DependsOn := by
        funext a b
        exact propext (hk a b)
      rw [History.Cyclic, History.Cyclic, hdepends]
    have hh := resolve_iff_of_tolerant options h ((tolerant_iff options h).mpr (.inl hlenient))
    have hk := resolve_iff_of_tolerant options k ((tolerant_iff options k).mpr (.inl hlenient))
    rw [hh.1, hh.2, hk.1, hk.2, hcyclic]
    exact ⟨Iff.rfl, Iff.rfl⟩

end

/-- A cycle out of reach of the registered entities is found, unless a missing payload is told
first. -/
theorem resolve_decided_detached :
    (ofHistory .strict ([.node 1 (), .dependencies 2 [2]] : History Nat Unit)).resolve =
        .error (.stopped (.unresolved [2])) ∧
      (∃ a b, (ofHistory .lenient ([.node 1 (), .dependencies 2 [2]] : History Nat Unit)).resolve =
        .error (.stopped (.cycle a b))) ∧
      ∃ res, (ofHistory .strict ([.node 1 ()] : History Nat Unit)).resolve = .ok res := by
  have hcyclic : History.Cyclic ([.node 1 (), .dependencies 2 [2]] : History Nat Unit) :=
    ⟨2, .single ⟨(2, 2), by decide, rfl, rfl⟩⟩
  have hbare : ¬ History.Cyclic ([.node 1 ()] : History Nat Unit) := by
    rintro ⟨a, ha⟩
    obtain ⟨b, ⟨d, hd, _⟩, _⟩ := Relation.TransGen.head'_iff.mp ha
    cases hd
  exact ⟨(resolve_decided .strict _).1 rfl (by decide),
    ((resolve_decided .lenient _).2.1 (.inl rfl)).1.mpr hcyclic,
    ((resolve_decided .strict _).2.1 (.inr rfl)).2.mpr hbare⟩

section
variable [EquivBEq ι] [LawfulHashable ι] (options : Options) (h : History ι α)

/-- A cycle that is reported is one: its ends depend on each other, both are spelled as they were
first, and the first start from which a cycle is reached at all reaches them. -/
theorem cycle_of_resolve {a b : ι}
    (herror : (ofHistory options h).resolve = .error (.stopped (.cycle a b))) :
    h.DependsOn a b ∧ h.Reaches b a ∧
      h.mentions.find? (· == a) = some a ∧ h.mentions.find? (· == b) = some b ∧
      ∃ before start after, h.starts = before ++ start :: after ∧
        h.LeadsToCycle start ∧ (∀ p ∈ before, ¬ h.LeadsToCycle p) ∧
        h.Reaches start a ∧ h.Reaches start b ∧
        ∀ p ∈ before, ¬ h.Reaches p a ∧ ¬ h.Reaches p b := by
  have hr := resolves_ofHistory options h
  rw [herror] at hr
  cases hr with
  | @cycle before' _ start' i j _ _ _ hs hc ha hb =>
    have hg := (represents_ofHistory options h).records
    have hlocates := locates_starts options h
    rw [hs] at hlocates
    -- Where the walks are cut off by the cycle, the starts of the history are cut as well.
    obtain ⟨before, start, after, hstarts, hbefore, hstart⟩ := hlocates.split
    have hi := hg.find?_of_id? ha
    have hj := hg.find?_of_id? hb
    have hreached := (hg.reaches_iff hstart hi).mpr hc.reached
    have hcycle := (transGen_of_closesCycle options h hc ha hb).1
    refine ⟨(hg.dependsOn_iff a b).mpr ⟨i, j, hi, hj, hc.edge⟩,
      (hg.reaches_iff hj hi).mpr hc.back, hg.find?_mentions ha, hg.find?_mentions hb,
      before, start, after, hstarts, ⟨a, hreached, hcycle⟩, ?_, hreached,
      (hg.reaches_iff hstart hj).mpr (hc.reached.tail hc.edge), ?_⟩
    · rintro p hp ⟨c, hpc, hcc⟩
      obtain ⟨p', hp', hfind⟩ := hbefore.exists_find? hp
      obtain ⟨k, _, hk, hk', hkk⟩ := (hg.transGen_iff c c).mp hcc
      rw [hk] at hk'
      cases hk'
      exact hc.acyclic p' hp' k ((hg.reaches_iff hfind hk).mp hpc) hkk
    · intro p hp
      obtain ⟨p', hp', hfind⟩ := hbefore.exists_find? hp
      rw [hg.reaches_iff hfind hi, hg.reaches_iff hfind hj]
      exact hc.unreached p' hp'

end

/-- Both ends are told in their first spelling, which need not be that of the closing call. -/
theorem cycle_of_resolve_respelled :
    (ofHistory .lenient ([.declaration ⟨⟨"App"⟩, (), [⟨"lib"⟩]⟩, .dependencies ⟨"LIB"⟩ [⟨"app"⟩]] :
        History Text.CaseFolded Unit)).resolve = .error (.stopped (.cycle ⟨"lib"⟩ ⟨"App"⟩)) ∧
      History.Reaches ([.declaration ⟨⟨"App"⟩, (), [⟨"lib"⟩]⟩, .dependencies ⟨"LIB"⟩ [⟨"app"⟩]] :
        History Text.CaseFolded Unit) ⟨"App"⟩ ⟨"lib"⟩ := by
  have herror : (ofHistory .lenient ([.declaration ⟨⟨"App"⟩, (), [⟨"lib"⟩]⟩,
      .dependencies ⟨"LIB"⟩ [⟨"app"⟩]] : History Text.CaseFolded Unit)).resolve =
        .error (.stopped (.cycle ⟨"lib"⟩ ⟨"App"⟩)) := by cbv
  exact ⟨herror, (cycle_of_resolve .lenient _ herror).2.1⟩

end Registry

end Precedence
