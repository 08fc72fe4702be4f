import Precedence.Proofs.Resolution.Narration
import Precedence.Proofs.Resolution.Siblings

/-!
# The log tells the outcome

Whatever a history is resolved to can be read off the log alone, and what the log tells on the way
agrees with it. A success has told each identifier in its place, each declared dependency once, and
one start of a walk for each node without a parent. A cycle is told in the last two entries, and
payloads that are missing are told before any walk starts.
-/

namespace Precedence

variable {ι α : Type} [BEq ι] [Hashable ι]

namespace Log

/-- The log of a success. The nodes `ns` are those of its order. -/
structure TellsOrder (h : History ι α) (ns : List (Node ι α)) (log : List (Entry ι)) : Prop where
  /-- The identifiers are told in order, each with its position. -/
  places : places log = (ns.map (·.id)).zipIdx
  /-- Each declared dependency is told once. -/
  once : ∀ a b, h.DependsOn a b → (dependencies log).countP (·.joins a b) = 1
  /-- No other dependency is told. -/
  only : ∀ d ∈ dependencies log, h.DependsOn d.source d.target
  backs : backs log = []
  warnings : warnings log = []
  /-- One walk has been started for each node without a parent. -/
  starts : (starts log).length = ns.countP (·.parent.isNone)
  /-- In the end it is told how many identifiers there are. -/
  last : log.getLast? = some (.resolved ns.length)
  complete : ns.length = h.identifiers.length
  verdict : verdict? log = some (.ok (ns.map (·.id)))

omit [BEq ι] [Hashable ι] in
/-- The log of a cycle that the dependency of `a` on `b` has closed. -/
structure TellsCycle (a b : ι) (log : List (Entry ι)) : Prop where
  last : [.dependency a b .back, .cycle a b] <:+ log
  backs : backs log = [⟨a, b, .back⟩]
  warnings : warnings log = [.cycle a b]
  verdict : verdict? log = some (.error (.cycle a b))

omit [BEq ι] [Hashable ι] in
/-- The log of a refusal because of these identifiers. -/
structure TellsMissing (ids : List ι) (log : List (Entry ι)) : Prop where
  warnings : warnings log = [.rejecting ids]
  starts : starts log = []
  dependencies : dependencies log = []
  places : places log = []
  verdict : verdict? log = some (.error (.unresolved ids))

/-- The log tells what a history has been resolved to. -/
inductive Tells (h : History ι α) (log : List (Entry ι)) :
    Except (Interruption (ResolveError ι)) (Resolution ι α) → Prop where
  | order {res : Resolution ι α} {ns : List (Node ι α)} (hns : res.nodes = .ok ns)
      (hids : res.ids = .ok (ns.map (·.id))) (hlog : TellsOrder h ns log) : Tells h log (.ok res)
  | cycle {a b : ι} (hlog : TellsCycle a b log) :
      Tells h log (.error (.stopped (.cycle a b)))
  | missing {ids : List ι} (hlog : TellsMissing ids log) :
      Tells h log (.error (.stopped (.unresolved ids)))

end Log

/-! ### Edges and dependencies -/

namespace Walk.Recounts

variable {g₀ g : Graph ι α} {c : Collection ι} {founders : List NodeIndex}
  {looks : List Look} {order : Array NodeIndex}
  (h : Recounts g₀ g [] c founders looks)
include h

private theorem isFinished_iff (i : NodeIndex) : g.IsFinished i ↔ g.IsEntered i := by
  constructor
  · exact Graph.IsFinished.isEntered
  · intro hi
    exact (h.rooted.mem_or_isFinished hi).resolve_left (by simp [trail])

private theorem edge_of_mem {look : Look} (hlook : look ∈ looks) :
    g₀.Edge look.source look.target := by
  have hmem : look.target ∈ Look.targets looks look.source :=
    Look.mem_targets_iff.mpr ⟨look.kind, hlook⟩
  by_cases hi : g.IsEntered look.source
  · rw [h.accounted.finished _ ((h.isFinished_iff _).mpr hi),
      Graph.successors_congr h.reset_eq] at hmem
    exact hmem
  · rw [h.accounted.untouched _ hi] at hmem
    cases hmem

private theorem countP_looks {i j : NodeIndex} (hnodup : (g₀.successors i).Nodup)
    (hi : g.IsFinished i)
    (hij : g₀.Edge i j) :
    looks.countP (fun look => look.source == i && look.target == j) = 1 := by
  rw [Look.countP_eq_count, h.accounted.finished i hi, Graph.successors_congr h.reset_eq]
  exact List.count_eq_one_of_mem hnodup hij

/-- The trees that were begun are as many as the collected nodes without a parent. -/
theorem length_founders (hg : Collected g order) {ns : List (Node ι α)}
    (hmap : order.toList.map (g.nodes[·]?) = ns.map some) :
    founders.length = ns.countP (·.parent.isNone) := by
  have hperm : founders.Perm (order.toList.filter fun i => (g.parent? i).isNone) := by
    rw [List.perm_ext_iff_of_nodup h.nodup (hg.nodup.filter _)]
    intro i
    rw [h.foundedBy i, List.mem_filter, Array.mem_toList_iff, hg.mem_iff, h.isFinished_iff,
      Option.isNone_iff_eq_none]
  calc founders.length
      = order.toList.countP (fun i => (g.parent? i).isNone) := by
        rw [hperm.length_eq, List.countP_eq_length_filter]
    _ = (order.toList.map (g.nodes[·]?)).countP (fun n => (n.map (·.parent)).join.isNone) := by
        rw [List.countP_map]
        rfl
    _ = ns.countP (·.parent.isNone) := by
        rw [hmap, List.countP_map]
        rfl

section
variable [EquivBEq ι] [LawfulHashable ι] {hist : History ι α}
  (hr : g₀.Records hist.mentions hist.declares hist.registers)
include hr

/-- Each declared dependency of a node that has been left is told once. -/
theorem countP_dependencies (hall : ∀ i < g₀.size, g.IsFinished i) {a b : ι}
    (hab : hist.DependsOn a b) :
    (Log.dependencies c.log.toList).countP (·.joins a b) = 1 := by
  obtain ⟨i, j, hi, hj, hij⟩ := (hr.dependsOn_iff a b).mp hab
  let joins (t : Option ι × Option ι × Option EdgeKind) : Bool :=
    t.1 == some a && t.2.1 == some b
  calc (Log.dependencies c.log.toList).countP (·.joins a b)
      = ((Log.dependencies c.log.toList).map Log.Dependency.named).countP joins := by
        rw [List.countP_map]
        rfl
    _ = looks.countP (joins ∘ Look.named g₀) := by
        rw [h.narrates.dependencies, List.countP_map]
    _ = looks.countP (fun look => look.source == i && look.target == j) := by
        apply List.countP_congr
        intro look _
        simp only [Function.comp_apply, joins, Look.named, Bool.and_eq_true,
          hr.indexed.id?_beq_iff hi, hr.indexed.id?_beq_iff hj, beq_iff_eq]
    _ = 1 := h.countP_looks (hr.nodup_successors i) (hall i hij.source_lt) hij

/-- Only declared dependencies are told. -/
theorem dependsOn_of_mem {d : Log.Dependency ι} (hd : d ∈ Log.dependencies c.log.toList) :
    hist.DependsOn d.source d.target := by
  have hnamed : d.named ∈ looks.map (Look.named g₀) := by
    rw [← h.narrates.dependencies]
    exact List.mem_map_of_mem hd
  obtain ⟨look, hlook, heq⟩ := List.mem_map.mp hnamed
  simp only [Look.named, Log.Dependency.named, Prod.mk.injEq] at heq
  exact (hr.dependsOn_iff _ _).mpr
    ⟨_, _, hr.find?_of_id? heq.1, hr.find?_of_id? heq.2.1, h.edge_of_mem hlook⟩

end

end Walk.Recounts

/-! ### The log of a history -/

private theorem Graph.Records.recounts {g : Graph ι α} {h : History ι α}
    (hr : g.Records h.mentions h.declares h.registers) {c : Collection ι}
    (hc : Narrates g [] [] c) :
    Walk.Recounts g g [] c [] [] := by
  have hparent : ∀ i, g.parent? i = none := hr.reset_eq ▸ g.parent?_reset
  have hgrown : g.Grown [] := hr.reset_eq ▸ g.grown_reset
  have hexplored := Walk.Explored.of_unmarked hr.untouched hparent
  exact ⟨rfl, hgrown.rooted, hgrown.foundedBy, List.nodup_nil, hexplored.accounted, hc⟩

private theorem Narrates.tellsCycle {g : Graph ι α} {founders : List NodeIndex} {looks : List Look}
    {c : Collection ι} (h : Narrates g founders looks c) (a b : ι) :
    Log.TellsCycle a b
      ((c.log.push (.dependency a b .back)).push (.cycle a b)).toList where
  last := ⟨c.log.toList, by simp⟩
  backs := by
    rw [Array.toList_push, Array.toList_push, Log.backs_concat, Log.backs_concat, h.backs]
    rfl
  warnings := by
    rw [Array.toList_push, Array.toList_push, Log.warnings_concat, Log.warnings_concat, h.warnings]
    rfl
  verdict := by simp [Log.verdict?]

section
variable [EquivBEq ι] [LawfulHashable ι] {h : History ι α} {g₀ g : Graph ι α}
  {starts founders : List NodeIndex} {looks : List Look} {c : Collection ι}

/-- A log that goes through to the end tells of the order. -/
theorem Walk.Recounts.tells (hw : Walk.Recounts g₀ g [] c founders looks)
    (hg : Collecting g₀ starts g c.order)
    (hr : g₀.Records h.mentions h.declares h.registers) (hall : ∀ i < g₀.size, i ∈ starts) :
    Log.Tells h (c.log.push (.resolved c.order.size)).toList (.ok ⟨g, c.order⟩) := by
  obtain ⟨ns, hns, hmap, -⟩ := hg.collected.exists_nodes
  have hids : (Resolution.mk g c.order).ids = .ok (ns.map (·.id)) := by
    rw [Resolution.ids, hns]
    rfl
  have hlength : ns.length = c.order.size := by simpa using (congrArg List.length hmap).symm
  have hplaces : Log.places c.log.toList = (ns.map (·.id)).zipIdx := by
    obtain ⟨ids, hids', hnames⟩ := hg.exists_map_id?
    cases hids.symm.trans hids'
    have hinj : Function.Injective (Prod.map some id : ι × Nat → Option ι × Nat) :=
      (Option.some_injective ι).prodMap Function.injective_id
    apply hinj.list_map
    rw [hw.narrates.places, hnames, List.zipIdx_map]
  have hlog : Log.TellsOrder h ns (c.log.push (.resolved c.order.size)).toList := by
    constructor
    case places => simp [hplaces, Log.Entry.place?]
    case once =>
      intro a b hab
      simpa [Log.Entry.dependency?] using
        hw.countP_dependencies hr (fun i hi => hg.isFinished i (hall i hi)) hab
    case only =>
      intro d hd
      exact hw.dependsOn_of_mem hr (by simpa [Log.Entry.dependency?] using hd)
    case backs => simp [hw.narrates.backs, Log.Entry.dependency?]
    case warnings => simp [hw.narrates.warnings, Log.Entry.isWarning, Log.Entry.level]
    case starts =>
      simp [hw.narrates.starts, Log.Entry.start?, hw.length_founders hg.collected hmap]
    case last => simp [hlength]
    case complete =>
      have hsize : c.order.size = g₀.size := by simpa using (hg.perm_range hall).length_eq
      rw [hlength, hsize, History.identifiers, ← hr.names, List.length_map, Graph.size,
        Array.length_toList]
    case verdict => simp [Log.verdict?, hplaces, Log.Entry.place?]
  exact .order hns hids hlog

end

namespace Registry

variable [EquivBEq ι] [LawfulHashable ι]

/-- If no payload stands in the way, the log tells what the walks come to. -/
theorem tells_collect (options : Options) (h : History ι α)
    (ht : (ofHistory options h).Tolerant) {log : Array (Log.Entry ι)}
    (hlog : Narrates (ofHistory options h).graph [] [] { log }) :
    Log.Tells h ((ofHistory options h).collect log).log.toList
      ((ofHistory options h).collect log).result := by
  have hr := (represents_ofHistory options h).records
  have hresolves := resolves_collect ht hr.directed hr.closed hr.untouched
    (fun _ hs => start_lt_size options h hs) log
  have htold := recounted_walkEach hr.directed (hr.recounts hlog) (ofHistory options h).starts
  unfold collect at hresolves ⊢
  generalize (ofHistory options h).graph.walkEach collector { log } (ofHistory options h).starts =
    r at hresolves htold ⊢
  cases htold with
  | ok hw =>
    cases hresolves with
    | ok _ hg => exact hw.tells hg hr fun _ => mem_starts_of_lt options h
  | cycle hw => exact .cycle (hw.tellsCycle _ _)
  | lost => cases hresolves

/-- The log of a history tells what the history is resolved to. -/
theorem tells_report (options : Options) (h : History ι α) :
    Log.Tells h (ofHistory options h).report.log.toList (ofHistory options h).resolve := by
  have htolerant := tells_collect options h
  unfold resolve report
  dsimp only
  cases hu : (ofHistory options h).unresolved with
  | nil => exact htolerant (.inr hu) ⟨rfl, rfl, rfl, rfl, rfl⟩
  | cons id ids =>
    dsimp only
    split
    · exact .missing ⟨rfl, rfl, rfl, rfl, rfl⟩
    · next hlenient =>
      exact htolerant (.inl (Bool.not_eq_true _ ▸ hlenient)) ⟨rfl, rfl, rfl, rfl, rfl⟩

/-- Two registered entities share what they depend on, under several spellings. -/
def layered : History Text.CaseFolded Nat :=
  [.declaration ⟨⟨"App"⟩, 1, [⟨"lib"⟩, ⟨"core"⟩]⟩, .dependencies ⟨"LIB"⟩ [⟨"Core"⟩, ⟨"core"⟩],
    .declaration ⟨⟨"tool"⟩, 2, [⟨"Lib"⟩]⟩]

/-- One more dependency closes a cycle. -/
def looped : History Text.CaseFolded Nat := layered ++ [.dependencies ⟨"CORE"⟩ [⟨"app"⟩]]

/-- The logs of a success, of a cycle and of a refusal. -/
theorem tells_report_layered :
    (Log.Tells layered (ofHistory .lenient layered).report.log.toList
        (ofHistory .lenient layered).resolve ∧
      (ofHistory .lenient layered).report.log.toList =
        [.resolving 4 2 false, .tolerating [⟨"lib"⟩, ⟨"core"⟩], .walking 0 true,
          .dependency ⟨"App"⟩ ⟨"lib"⟩ .tree, .dependency ⟨"lib"⟩ ⟨"core"⟩ .tree,
          .ordered ⟨"core"⟩ 0, .ordered ⟨"lib"⟩ 1, .dependency ⟨"App"⟩ ⟨"core"⟩ .forward,
          .ordered ⟨"App"⟩ 2, .walking 3 true, .dependency ⟨"tool"⟩ ⟨"lib"⟩ .cross,
          .ordered ⟨"tool"⟩ 3, .resolved 4]) ∧
    (Log.Tells looped (ofHistory .lenient looped).report.log.toList
        (ofHistory .lenient looped).resolve ∧
      Log.verdict? (ofHistory .lenient looped).report.log.toList =
        some (.error (.cycle ⟨"core"⟩ ⟨"App"⟩))) ∧
    Log.Tells layered (ofHistory .strict layered).report.log.toList
        (ofHistory .strict layered).resolve ∧
      (ofHistory .strict layered).report.log.toList =
        [.resolving 4 2 true, .rejecting [⟨"lib"⟩, ⟨"core"⟩]] := by
  refine ⟨⟨tells_report .lenient layered, ?_⟩, ⟨tells_report .lenient looped, ?_⟩,
    tells_report .strict layered, ?_⟩
  · cbv
  · cbv
  · cbv

end Registry

end Precedence
