import Precedence.Proofs.Resolution.Collecting
import Precedence.Proofs.Traversal.Intervals
import Precedence.Proofs.Traversal.Survey
import Precedence.Resolution.Account

/-!
# What the log tells of walks

Walks with the collector, one after the other over a directed graph without marks. As long as no
cycle has been closed, the log tells of three things and of nothing else: where trees were begun,
which edges were looked at, and which nodes were left. The walk that closes a cycle says so in its
last two entries.
-/

namespace Precedence

variable {ι α : Type} [BEq ι] [Hashable ι]

/-- An edge that has been looked at, by the identifiers of its ends. -/
def Look.named (g : Graph ι α) (look : Look) : Option ι × Option ι × Option EdgeKind :=
  (g.id? look.source, g.id? look.target, look.kind)

omit [BEq ι] [Hashable ι] in
/-- A dependency in the form in which edges are named. -/
def Log.Dependency.named (d : Log.Dependency ι) : Option ι × Option ι × Option EdgeKind :=
  (some d.source, some d.target, some d.kind)

/-- The log tells of the trees that were begun at these nodes, of these edges that were looked at,
and of the nodes that were collected, each with its place. Nothing is amiss. -/
structure Narrates (g : Graph ι α) (founders : List NodeIndex) (looks : List Look)
    (c : Collection ι) : Prop where
  starts : Log.starts c.log.toList = founders
  dependencies : (Log.dependencies c.log.toList).map Log.Dependency.named = looks.map (Look.named g)
  places : (Log.places c.log.toList).map (Prod.map some id) = (c.order.toList.map g.id?).zipIdx
  backs : Log.backs c.log.toList = []
  warnings : Log.warnings c.log.toList = []

namespace Narrates

variable {g : Graph ι α} {founders : List NodeIndex} {looks : List Look} {c : Collection ι}
  {i j : NodeIndex} {a b : ι} {kind : EdgeKind}

/-- A tree may be begun. -/
theorem start (h : Narrates g founders looks c) (i : NodeIndex) (directed : Bool) :
    Narrates g (founders ++ [i]) looks ⟨c.order, c.log.push (.walking i directed)⟩ where
  starts := by simp [h.starts, Log.Entry.start?]
  dependencies := by simp [h.dependencies, Log.Entry.dependency?]
  places := by simp [h.places, Log.Entry.place?]
  backs := by simp [h.backs, Log.Entry.dependency?]
  warnings := by simp [h.warnings, Log.Entry.isWarning, Log.Entry.level]

/-- An edge that closes no cycle may be looked at. -/
theorem look (h : Narrates g founders looks c) (hi : g.id? i = some a) (hj : g.id? j = some b)
    (hk : kind ≠ .back) :
    Narrates g founders (looks ++ [⟨i, j, some kind⟩])
      ⟨c.order, c.log.push (.dependency a b kind)⟩ where
  starts := by simp [h.starts, Log.Entry.start?]
  dependencies := by
    have hnamed : Look.named g ⟨i, j, some kind⟩ = (some a, some b, some kind) := by
      rw [Look.named, hi, hj]
    rw [List.map_append, ← h.dependencies, List.map_singleton, hnamed]
    simp [Log.Entry.dependency?, Log.Dependency.named]
  places := by simp [h.places, Log.Entry.place?]
  backs := by simp [h.backs, hk, Log.Entry.dependency?, EdgeKind.isBack]
  warnings := by simp [h.warnings, Log.Entry.isWarning, Log.Entry.level]

/-- A node may be collected. -/
theorem leave (h : Narrates g founders looks c) (hi : g.id? i = some a) :
    Narrates g founders looks ⟨c.order.push i, c.log.push (.ordered a c.order.size)⟩ where
  starts := by simp [h.starts, Log.Entry.start?]
  dependencies := by simp [h.dependencies, Log.Entry.dependency?]
  places := by simp [h.places, Log.Entry.place?, List.zipIdx_append, hi]
  backs := by simp [h.backs, Log.Entry.dependency?]
  warnings := by simp [h.warnings, Log.Entry.isWarning, Log.Entry.level]

end Narrates

/-! ### Walks with the collector -/

omit [BEq ι] [Hashable ι] in
private theorem notice_edge (source target : Node ι α) {kind : EdgeKind} (hk : kind ≠ .back)
    (c : Collection ι) :
    collector.notice (.edge source target kind) c =
      (⟨c.order, c.log.push (.dependency source.id target.id kind)⟩, none) := by
  cases kind with
  | back => exact absurd rfl hk
  | _ => rfl

namespace Walk

/-- What has come of walks over the graph `g₀`, the last of them on its way: the log tells of the
nodes that have been entered without a parent and of the edges that have been looked at. -/
structure Recounts (g₀ g : Graph ι α) (path : List Frame) (c : Collection ι)
    (founders : List NodeIndex) (looks : List Look) : Prop where
  reset_eq : g.reset = g₀.reset
  rooted : Rooted g path
  foundedBy : g.FoundedBy founders
  nodup : founders.Nodup
  accounted : Accounted g path looks
  narrates : Narrates g₀ founders looks c

section
variable {g₀ g : Graph ι α} {founders : List NodeIndex} {looks : List Look}

/-- A new start begins a tree. -/
theorem Recounts.start {c : Collection ι} (h : Recounts g₀ g [] c founders looks)
    {start : NodeIndex} {n : Node ι α} (hi : g.nodes[start]? = some n)
    (hv : n.visit = .undiscovered) :
    Recounts g₀ (g.stamp start (n.enter g.clock)) [⟨start, n.neighbors⟩]
      ⟨c.order, c.log.push (.walking start g.directed)⟩ (founders ++ [start]) looks := by
  have hreset : (g.stamp start (n.enter g.clock)).reset = g.reset := Graph.reset_stamp hi rfl
  have hparent : n.parent = none := h.rooted.parent?_of_new hi hv
  have hnew : start ∉ founders := by
    intro hmem
    exact Graph.not_isEntered_of_node hi hv ((h.foundedBy start).mp hmem).1
  refine ⟨hreset.trans h.reset_eq, h.rooted.push hi hv rfl rfl hparent (by simp),
    h.foundedBy.found hi hparent, ?_, h.accounted.enter hi hv rfl rfl,
    h.narrates.start start g.directed⟩
  rw [← List.concat_eq_append]
  exact h.nodup.concat hnew

/-- Every move is told. -/
theorem Recounts.moves (hd : g₀.directed = true) {w w' : Walk ι α (Collection ι)}
    (h : Recounts g₀ w.graph w.path w.observed founders looks) (hm : Moves collector w w') :
    ∃ looks', Recounts g₀ w'.graph w'.path w'.observed founders looks' := by
  have hreset : w'.graph.reset = g₀.reset := hm.reset_eq.trans h.reset_eq
  have hrooted := h.rooted.moves hm
  have hfounded := hm.foundedBy h.foundedBy
  have hid {i : NodeIndex} {n : Node ι α} (hi : w.graph.nodes[i]? = some n) :
      g₀.id? i = some n.id := by
    rw [← Graph.id?_congr h.reset_eq, Graph.id?_of_node hi]
  cases hm with
  | leave hi hn =>
    have hleft := h.narrates.leave (hid hi)
    have hopen := h.rooted.isOpen _ (head_mem_trail ..)
    cases hn
    exact ⟨looks, hreset, hrooted, hfounded, h.nodup, h.accounted.leave hi hopen, hleft⟩
  | pass hi hj hk =>
    exact absurd hk (between_ne_none ((Graph.directed_congr h.reset_eq).trans hd) _ _ _)
  | @report _ _ _ i j _ _ source target kind hi hj hk ht hn =>
    have hback : kind ≠ .back := by
      rintro rfl
      cases hn
    have hlooked := h.narrates.look (hid hi) (hid hj) hback
    rw [notice_edge _ _ hback] at hn
    cases hn
    exact ⟨_, hreset, hrooted, hfounded, h.nodup, h.accounted.look h.rooted.toSteady _, hlooked⟩
  | @descend _ _ _ _ i j _ _ source target hi hj hv he hn =>
    have hback : EdgeKind.tree ≠ .back := by decide
    have hlooked := h.narrates.look (hid hi) (hid hj) hback
    cases he
    cases hn
    exact ⟨_, hreset, hrooted, hfounded, h.nodup,
      (h.accounted.look h.rooted.toSteady _).enter hj hv rfl rfl, hlooked⟩

end

end Walk

/-- The log of walks over the graph `g₀` that have come to an end: it tells of all of them, or its
last two entries tell of the cycle that was closed. -/
inductive Recounted (g₀ : Graph ι α) :
    Outcome ι α (Collection ι) (ResolveError ι) → Prop where
  | ok {g : Graph ι α} {c : Collection ι} {founders : List NodeIndex} {looks : List Look}
      (h : Walk.Recounts g₀ g [] c founders looks) : Recounted g₀ ⟨g, c, .ok ()⟩
  | cycle {g : Graph ι α} {c : Collection ι} {founders : List NodeIndex} {looks : List Look}
      {a b : ι} (h : Narrates g₀ founders looks c) :
      Recounted g₀ ⟨g, ⟨c.order, (c.log.push (.dependency a b .back)).push (.cycle a b)⟩,
        .error (.stopped (.cycle a b))⟩
  | lost {g : Graph ι α} {c : Collection ι} {fault : OutOfRange} :
      Recounted g₀ ⟨g, c, .error (.outOfRange fault)⟩

section
variable {g₀ g : Graph ι α} {founders : List NodeIndex} {looks : List Look}

/-- The end of a walk is told. -/
theorem Walk.Recounts.recounted {w : Walk ι α (Collection ι)}
    {r : Outcome ι α (Collection ι) (ResolveError ι)}
    (h : Recounts g₀ w.graph w.path w.observed founders looks) (hh : Halts collector w r) :
    Recounted g₀ r := by
  cases hh with
  | done => exact .ok h
  | leave hi hn => cases hn
  | @report _ _ _ _ _ _ _ source target kind reason hi hj hk ht hn =>
    by_cases hback : kind = .back
    · subst hback
      cases hn
      exact .cycle h.narrates
    · rw [notice_edge _ _ hback] at hn
      cases hn
  | reach hi hj hv he => cases he
  | enter hi hj hv he hn => cases hn
  | lost hi => exact .lost
  | dangling hi hj => exact .lost

/-- A walk is told to its end. -/
theorem Walk.Recounts.run (hd : g₀.directed = true) {w : Walk ι α (Collection ι)}
    (h : Recounts g₀ w.graph w.path w.observed founders looks) :
    Recounted g₀ (Walk.run collector w) := by
  have hmoves (w w' : Walk ι α (Collection ι))
      (hw : ∃ looks, Recounts g₀ w.graph w.path w.observed founders looks)
      (hm : Moves collector w w') :
      ∃ looks, Recounts g₀ w'.graph w'.path w'.observed founders looks := by
    obtain ⟨_, hw⟩ := hw
    exact hw.moves hd hm
  obtain ⟨w', ⟨_, hw⟩, hh⟩ := Walk.run_of_invariant hmoves ⟨looks, h⟩
  exact hw.recounted hh

/-- One more walk is told, from its start to its end. -/
theorem recounted_walkFrom {c : Collection ι} (hd : g₀.directed = true)
    (h : Walk.Recounts g₀ g [] c founders looks) (start : NodeIndex) :
    Recounted g₀ (g.walkFrom collector c start) := by
  obtain ⟨p, hp, hw⟩ := g.exists_starts collector c start
  rw [hw]
  cases hp with
  | lost hi => exact .lost
  | known hi hv => exact .ok h
  | @enter n c' hi hv hn =>
    cases hn
    show Recounted g₀ (Walk.run collector _)
    exact Walk.Recounts.run hd (h.start hi hv)
  | refused hi hv hn => cases hn

/-- Walks from several starts are told, up to the one that closes a cycle. -/
theorem recounted_walkEach {c : Collection ι} (hd : g₀.directed = true)
    (h : Walk.Recounts g₀ g [] c founders looks) (starts : List NodeIndex) :
    Recounted g₀ (g.walkEach collector c starts) := by
  induction starts generalizing g c founders looks with
  | nil => exact .ok h
  | cons start starts ih =>
    have hfrom := recounted_walkFrom hd h start
    rw [Graph.walkEach]
    generalize g.walkFrom collector c start = r at hfrom ⊢
    cases hfrom with
    | ok h' => exact ih h'
    | cycle h' => exact .cycle h'
    | lost => exact .lost

end

end Precedence
