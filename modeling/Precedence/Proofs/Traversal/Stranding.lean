import Precedence.Proofs.Graph.WellFormed
import Precedence.Proofs.Traversal.Acyclic
import Precedence.Proofs.Traversal.Intervals

/-!
# Edges that lead back

An edge is told as leading back when its target is open. The nodes on the active path are open, and
so are those that walks had under way when they were cut short: they stay open until all walks are
forgotten. An edge that leads back therefore closes a cycle, unless its target was stranded in this
way; then nothing need lead from the target to the source.
-/

namespace Precedence

open Relation (ReflTransGen)

variable {ι α σ ε : Type}

/-- In the course of some events the node is entered and not left. -/
def UnderwayIn (es : List (Event ι α)) (i : NodeIndex) : Prop := EnteredIn es i ∧ ¬ LeftIn es i

variable [BEq ι] [Hashable ι]

namespace Walk

/-! ### Walks from any graph on -/

/-- After some events of walks that began with the graph `g₀`, the graph is `g`, and a walk is under
way on `path`. Only nodes that were new in `g₀` have been entered. -/
structure Tracked (g₀ : Graph ι α) (es : List (Event ι α)) (path : List Frame) (g : Graph ι α) :
    Prop extends Halfway g₀ es (trail path) g where
  steady : Steady g path
  isNew : ∀ i, EnteredIn es i → g₀.IsNew i

/-- Nothing is under way at first. -/
theorem tracked_nil (g : Graph ι α) : Tracked g [] [] g where
  toHalfway := halfway_nil g
  steady := steady_nil g
  isNew := by simp

namespace Tracked

variable {g₀ g : Graph ι α} {es : List (Event ι α)} {i j : NodeIndex} {pending : List NodeIndex}
  {path : List Frame} {n source target : Node ι α}

private theorem isOpen_iff (h : Tracked g₀ es path g) (i : NodeIndex) :
    g.IsOpen i ↔ g₀.IsOpen i ∨ UnderwayIn es i := by
  by_cases he : EnteredIn es i
  · have hold : ¬ g₀.IsOpen i := fun ho => (h.isNew i he).not_isEntered ho.isEntered
    by_cases hl : LeftIn es i
    · have hnot : ¬ g.IsOpen i := (h.isFinished i hl).not_isOpen
      simp [hnot, hold, UnderwayIn, hl]
    · have ho : g.IsOpen i := h.isOpen i ((h.mem_trail_iff i).mpr ⟨he, hl⟩)
      simp [ho, UnderwayIn, he, hl]
  · have hkept : g.visit? i = g₀.visit? i := by rw [Graph.visit?, h.kept i he, Graph.visit?]
    simp [Graph.IsOpen, hkept, UnderwayIn, he]

private theorem mem_trail_iff_not_isOpen (h : Tracked g₀ es path g) (hi : g.IsOpen i) :
    i ∈ trail path ↔ ¬ g₀.IsOpen i := by
  rw [h.mem_trail_iff]
  constructor
  · intro hunder ho
    exact (h.isNew i hunder.1).not_isEntered ho.isEntered
  · intro hold
    exact ((h.isOpen_iff i).mp hi).resolve_left hold

/-- An edge may be looked at and left behind. -/
theorem advance (h : Tracked g₀ es (⟨i, j :: pending⟩ :: path) g) :
    Tracked g₀ es (⟨i, pending⟩ :: path) g where
  toHalfway := h.toHalfway
  steady := h.steady.advance
  isNew := h.isNew

/-- An edge may be told. -/
theorem edge (h : Tracked g₀ es path g) (source target : Node ι α) (kind : EdgeKind) :
    Tracked g₀ (es ++ [.edge source target kind]) path g where
  toHalfway := h.toHalfway.edge source target kind
  steady := h.steady
  isNew k hk := h.isNew k (by simpa using hk)

/-- The innermost node may be left. -/
theorem leave (h : Tracked g₀ es (⟨i, []⟩ :: path) g) (hi : g.nodes[i]? = some n) :
    Tracked g₀ (es ++ [.leave i (n.leave g.clock)]) path (g.stamp i (n.leave g.clock)) where
  toHalfway := h.toHalfway.leave hi
  steady := h.steady.pop hi rfl
  isNew k hk := h.isNew k (by simpa using hk)

/-- A new node may be entered as the first of all. -/
theorem start (h : Tracked g₀ es [] g) (hj : g.nodes[j]? = some target)
    (hv : target.visit = .undiscovered) :
    Tracked g₀ (es ++ [.enter j (target.enter g.clock)]) [⟨j, target.neighbors⟩]
      (g.stamp j (target.enter g.clock)) where
  toHalfway := h.toHalfway.enter hj hv rfl rfl (by simp [trail])
  steady := h.steady.push hj hv rfl rfl (by simp)
  isNew k hk := by
    rcases enteredIn_concat_enter.mp hk with hk | rfl
    · exact h.isNew k hk
    · exact h.isNew_of_node hj hv

/-- A new node may be entered from the innermost one. -/
theorem descend (h : Tracked g₀ es (⟨i, j :: pending⟩ :: path) g)
    (hj : g.nodes[j]? = some target) (hv : target.visit = .undiscovered) :
    Tracked g₀ (es ++ [.enter j ({ target with parent := some i }.enter g.clock)])
      (⟨j, target.neighbors⟩ :: ⟨i, pending⟩ :: path)
      (g.stamp j ({ target with parent := some i }.enter g.clock)) where
  toHalfway := h.toHalfway.descend hj hv
  steady := h.steady.advance.push hj hv rfl rfl h.steady.edge_head
  isNew k hk := by
    rcases enteredIn_concat_enter.mp hk with hk | rfl
    · exact h.isNew k hk
    · exact h.isNew_of_node hj hv

end Tracked

end Walk

/-! ### What is told of an edge that leads back -/

namespace Graph

/-- The nodes of `trail` are the active path after some events of a call, innermost first. -/
structure ActivePath (g : Graph ι α) (es : List (Event ι α)) (trail : List NodeIndex) : Prop where
  mem_iff : ∀ i, i ∈ trail ↔ UnderwayIn es i
  nodup : trail.Nodup
  /-- Each node on the path has an edge to the next one inwards. -/
  linked : trail.IsChain fun inner outer => g.Edge outer inner

/-- After some events of a call that began with the graph `g`, an edge leads from `source` to an
open `target`. -/
structure LeadsBack (g : Graph ι α) (es : List (Event ι α)) (source target : NodeIndex)
    (trail : List NodeIndex) : Prop where
  edge : g.Edge source target
  /-- The edge starts at the innermost node of the active path. -/
  activePath : g.ActivePath es (source :: trail)
  /-- Its target is on the active path too, unless it was open before the call. -/
  mem_iff : target ∈ source :: trail ↔ ¬ g.IsOpen target
  /-- From there the active path leads on to the source. -/
  reaches : target ∈ source :: trail → ReflTransGen g.Edge target source

end Graph

namespace Walk

/-- What holds at an event that comes after others, in walks that began with the graph `g₀`. -/
structure Moment (g₀ : Graph ι α) (es : List (Event ι α)) (event : Event ι α) (g : Graph ι α) :
    Prop where
  /-- Whoever stops here leaves open what was open before and what is under way now. -/
  isOpen_iff : ∀ i, g.IsOpen i ↔ g₀.IsOpen i ∨ UnderwayIn (es ++ [event]) i
  back : ∀ source target, event = .edge source target .back →
    ∃ i j trail, g₀.id? i = some source.id ∧ g₀.id? j = some target.id ∧
      g₀.LeadsBack es i j trail

/-- What holds where walks end that began with the graph `g₀`: nothing is under way any more, unless
there is a fault. -/
def Final (g₀ : Graph ι α) (es : List (Event ι α)) (g : Graph ι α) (fault : Option OutOfRange) :
    Prop :=
  ∃ path, Tracked g₀ es path g ∧ (fault = none → path = [])

section
variable {g₀ g : Graph ι α} {es : List (Event ι α)} {i j : NodeIndex} {pending : List NodeIndex}
  {path : List Frame} {source target : Node ι α}

/-- An edge to an open node leads back. -/
theorem Tracked.leadsBack (h : Tracked g₀ es (⟨i, j :: pending⟩ :: path) g) (hj : g.IsOpen j) :
    g₀.LeadsBack es i j (trail path) where
  edge := by
    rw [← Graph.edge_congr h.reset_eq]
    exact h.steady.edge
  activePath := by
    refine ⟨h.mem_trail_iff, h.steady.nodup, ?_⟩
    rw [← Graph.edge_congr h.reset_eq]
    exact h.steady.linked
  mem_iff := h.mem_trail_iff_not_isOpen hj
  reaches hmem := by
    rw [← Graph.edge_congr h.reset_eq]
    exact h.steady.reaches_head hmem

private theorem Tracked.moment {event : Event ι α} (h : Tracked g₀ (es ++ [event]) path g)
    (hevent : ∀ source target, event ≠ .edge source target .back) : Moment g₀ es event g where
  isOpen_iff := h.isOpen_iff
  back source target heq := absurd heq (hevent source target)

/-- At each event, what is open was open before or is under way, and an edge that is told as leading
back leads to an open node. -/
theorem Ahead.moments {script : Script ι α} (h : Ahead g path script) (ht : Tracked g₀ es path g) :
    script.Ensures (Moment g₀) (Final g₀) es := by
  induction h generalizing es with
  | ended => exact ⟨[], ht, fun _ => rfl⟩
  | lost hi => exact ⟨_, ht, by simp⟩
  | dangling hi hj => exact ⟨_, ht, by simp⟩
  | leave hi _ ih =>
    have hleft := ht.leave hi
    exact ⟨hleft.moment (by simp), ih hleft⟩
  | pass hi hj hk _ ih => exact ih ht.advance
  | @report g i j pending path source target kind rest hi hj hk hkind _ ih =>
    have htold := ht.edge source target kind
    refine ⟨⟨htold.isOpen_iff, ?_⟩, ih htold.advance⟩
    intro source' target' heq
    cases heq
    have hid : g₀.id? = g.id? := (Graph.id?_congr ht.reset_eq).symm
    refine ⟨i, j, trail path, ?_, ?_, ht.leadsBack (isOpen_of_back hj hk)⟩
    · rw [hid, Graph.id?_of_node hi]
    · rw [hid, Graph.id?_of_node hj]
  | @descend g i j pending path source target rest hi hj hv _ ih =>
    have htold := ht.edge source { target with parent := some i } .tree
    have hentered := htold.descend hj hv
    refine ⟨⟨?_, by simp⟩, hentered.moment (by simp), ih hentered⟩
    -- The target has its parent by now, but is not entered yet.
    intro k
    have hvisit : (g.put j { target with parent := some i }).visit? = g.visit? :=
      Graph.visit?_put hj rfl
    rw [Graph.IsOpen, hvisit, ← Graph.IsOpen]
    exact htold.isOpen_iff k

end

end Walk

namespace Graph

open Walk (Tracked Moment Final)

section
variable {g₀ g : Graph ι α} {es : List (Event ι α)} (h : Tracked g₀ es [] g)
include h

private theorem moments_scriptFrom (start : NodeIndex) :
    (g.scriptFrom start).Ensures (Moment g₀) (Final g₀) es := by
  have hb := g.begins_scriptFrom start
  generalize g.scriptFrom start = script at hb
  cases hb with
  | lost hi => exact ⟨[], h, fun _ => rfl⟩
  | known hi hv => exact ⟨[], h, fun _ => rfl⟩
  | new hi hv hrest =>
    have hentered := h.start hi hv
    exact ⟨hentered.moment (by simp), hrest.moments hentered⟩

private theorem moments_scriptEach (starts : List NodeIndex) :
    (g.scriptEach starts).Ensures (Moment g₀) (Final g₀) es := by
  induction starts generalizing g es with
  | nil => exact ⟨[], h, fun _ => rfl⟩
  | cons start starts ih =>
    refine (moments_scriptFrom h start).andThen (fun _ _ _ hend => hend) ?_
    rintro es g ⟨path, hend, hpath⟩
    rw [hpath rfl] at hend
    exact ih hend

end

/-- What holds at the events of a call, and at its end. -/
theorem moments_script (g : Graph ι α) (c : Call) :
    (g.script c).Ensures (Moment g) (Final g) [] :=
  moments_scriptEach (Walk.tracked_nil g) (g.starts c)

private theorem exists_leadsBack [EquivBEq ι] {g : Graph ι α} (hg : g.WellFormed)
    {o : Observer ι α σ ε}
    {s : σ} {c : Call} {before after : List (Event ι α)} {source target : Node ι α}
    (hevents : g.events o s c = before ++ .edge source target .back :: after) :
    ∃ i j trail, g.find? source.id = some i ∧ g.find? target.id = some j ∧
      g.LeadsBack before i j trail := by
  obtain ⟨g', hmoment⟩ := exists_of_events (g.moments_script c) hevents
  obtain ⟨i, j, trail, hi, hj, hback⟩ := hmoment.back source target rfl
  exact ⟨i, j, trail, hg.indexed.find?_of_id? hi, hg.indexed.find?_of_id? hj, hback⟩

/-! ### Nodes that calls leave open -/

/-- A call leaves open what was open before and what it has under way at its end; if it goes
through, it has nothing under way then. -/
theorem isOpen_walk (g : Graph ι α) (o : Observer ι α σ ε) (s : σ) (c : Call) (i : NodeIndex) :
    ((g.walk o s c).graph.IsOpen i ↔ g.IsOpen i ∨ UnderwayIn (g.events o s c) i) ∧
      ((g.walk o s c).result = .ok () → ¬ UnderwayIn (g.events o s c) i) := by
  have hread := (g.moments_script c).reading o s
  rw [walk_eq_perform, events_eq]
  generalize (g.script c).calls o s = calls at hread ⊢
  generalize (g.script c).perform o s = r at hread ⊢
  cases hread with
  | through hcalls h =>
    obtain ⟨path, ht, hpath⟩ := h
    refine ⟨ht.isOpen_iff i, fun _ hunder => ?_⟩
    rw [hpath rfl] at ht
    have hmem := (ht.mem_trail_iff i).mpr hunder
    simp [Walk.trail] at hmem
  | faulted hcalls h =>
    obtain ⟨path, ht, -⟩ := h
    exact ⟨ht.isOpen_iff i, by simp⟩
  | stopped hbefore h =>
    have hmoment := h.isOpen_iff i
    rw [List.nil_append] at hmoment
    exact ⟨by simpa using hmoment, by simp⟩

/-- The operation is a walk that is cut short while it has the node under way. -/
def Strands (g : Graph ι α) (i : NodeIndex) : Operation ι α → Prop
  | .walk o s c => (g.walk o s c).result ≠ .ok () ∧ UnderwayIn (g.events o s c) i
  | _ => False

/-- One of the operations strands the node, and walks are not forgotten after that. -/
def Stranded (g : Graph ι α) (i : NodeIndex) : List (Operation ι α) → Prop
  | [] => False
  | op :: ops => g.Strands i op ∧ .reset ∉ ops ∨ (g.apply op).Stranded i ops

/-- After an operation the open nodes are those that were open before, unless all walks are
forgotten, and those that the operation strands. -/
theorem isOpen_apply_iff (g : Graph ι α) (op : Operation ι α) (i : NodeIndex) :
    (g.apply op).IsOpen i ↔ g.IsOpen i ∧ op ≠ .reset ∨ g.Strands i op := by
  have hquiet (hq : op.Quiet) (hreset : op ≠ .reset) (hnone : ¬ g.Strands i op) :
      (g.apply op).IsOpen i ↔ g.IsOpen i ∧ op ≠ .reset ∨ g.Strands i op := by
    have hw := g.widens_apply hq
    rw [(g.apply op).isOpen_iff, hw.isEntered_iff, hw.exit?_eq, ← g.isOpen_iff]
    simp [hreset, hnone]
  cases op with
  | walk o s c =>
    obtain ⟨hiff, hok⟩ := g.isOpen_walk o s c i
    have hcut : UnderwayIn (g.events o s c) i → (g.walk o s c).result ≠ .ok () :=
      fun hunder hr => hok hr hunder
    rw [apply, hiff, Strands, and_iff_right_of_imp hcut]
    simp
  | reset =>
    have hnot : ¬ g.reset.IsOpen i := by
      rintro ⟨t, ht⟩
      cases g.untouched_reset i _ ht
    simpa [apply, Strands] using hnot
  | _ => exact hquiet trivial (by simp) id

/-- After operations the open nodes are those that were open before, unless all walks have been
forgotten since, and those that have been stranded. -/
theorem isOpen_after_iff (g : Graph ι α) (ops : List (Operation ι α)) (i : NodeIndex) :
    (g.after ops).IsOpen i ↔ g.IsOpen i ∧ .reset ∉ ops ∨ g.Stranded i ops := by
  induction ops generalizing g with
  | nil => simp [after, Stranded]
  | cons op ops ih =>
    show ((g.apply op).after ops).IsOpen i ↔ _
    rw [ih, isOpen_apply_iff, Stranded, List.mem_cons, not_or, ne_comm]
    tauto

/-- As long as every walk goes through, nobody is stranded. -/
theorem not_stranded_of_uninterrupted {g : Graph ι α} {ops : List (Operation ι α)}
    (hops : g.Uninterrupted ops) (i : NodeIndex) : ¬ g.Stranded i ops := by
  induction ops generalizing g with
  | nil => exact id
  | cons op ops ih =>
    obtain ⟨hop, hrest⟩ := hops
    rintro (⟨hstrands, -⟩ | hstranded)
    · cases op with
      | walk o s c => exact hstrands.1 hop
      | _ => exact hstrands
    · exact ih hrest hstranded

/-! ### Any operations -/

/-- Whatever was done to a graph, an edge that a call tells as leading back starts at the innermost
node of the active path. Its target is on that path, and so leads to the source, unless an earlier
walk was cut short while it had the target under way and has not been forgotten since. There is no
such walk if all have gone through since no node was open. -/
theorem back_after [EquivBEq ι] [LawfulHashable ι] (ops : List (Operation ι α))
    {o : Observer ι α σ ε} {s : σ} {c : Call} {before after : List (Event ι α)}
    {source target : Node ι α} (hevents : ((empty : Graph ι α).after ops).events o s c =
      before ++ .edge source target .back :: after) :
    let g := (empty : Graph ι α).after ops
    ∃ i j trail, g.find? source.id = some i ∧ g.find? target.id = some j ∧ g.Edge i j ∧
      g.ActivePath before (i :: trail) ∧
      (j ∈ i :: trail → ReflTransGen g.Edge j i) ∧
      (j ∈ i :: trail ↔ ¬ (empty : Graph ι α).Stranded j ops) ∧
      ∀ earlier recent, ops = earlier ++ recent →
        (∀ k, ¬ ((empty : Graph ι α).after earlier).IsOpen k) →
        ((empty : Graph ι α).after earlier).Uninterrupted recent → j ∈ i :: trail := by
  intro g
  obtain ⟨i, j, trail, hi, hj, hback⟩ := exists_leadsBack (WellFormed.empty.after ops) hevents
  refine ⟨i, j, trail, hi, hj, hback.edge, hback.activePath, hback.reaches, ?_, ?_⟩
  · have hempty : ¬ (empty : Graph ι α).IsOpen j := by simp [IsOpen, visit?, empty]
    rw [hback.mem_iff, isOpen_after_iff]
    simp [hempty]
  · rintro earlier recent rfl hclosed hrecent
    rw [hback.mem_iff, after_append, isOpen_after_iff]
    rintro (⟨hopen, -⟩ | hstranded)
    · exact hclosed j hopen
    · exact not_stranded_of_uninterrupted hrecent j hstranded

/-- An edge, and a walk from its target that is cut short at once. -/
def strandedRun : List (Operation Nat Unit) :=
  [.intern 10, .intern 20, .addEdge 0 1,
    .walk (⟨fun _ _ s => s, fun _ s => (s, some ())⟩ : Observer Nat Unit Unit Unit) () (.node 1)]

/-- A stranded target is told of as if the edge closed a cycle, although the call never enters it
and it does not lead to the source. -/
theorem back_after_strandedRun :
    let g := (empty : Graph Nat Unit).after strandedRun
    let told := g.events (Observer.silent : Observer Nat Unit Unit Unit) () (.node 0)
    g.directed = true ∧ g.reports told = [⟨some 0, some 1, .back⟩] ∧ ¬ EnteredIn told 1 ∧
      ¬ ReflTransGen g.Edge 1 0 := by
  have hsuccessors : ((empty : Graph Nat Unit).after strandedRun).successors 1 = [] := by cbv
  have hentries : Event.entries (((empty : Graph Nat Unit).after strandedRun).events
      (Observer.silent : Observer Nat Unit Unit Unit) () (.node 0)) = [0] := by cbv
  refine ⟨by cbv, by cbv, ?_, ?_⟩
  · rw [← Event.mem_entries_iff, hentries]
    simp
  · intro hreach
    rcases hreach.cases_head with heq | ⟨k, hk, -⟩
    · cases heq
    · simp [Edge, hsuccessors] at hk

/-- The same, and then all walks are forgotten and an edge leads the other way. -/
def mendedRun : List (Operation Nat Unit) := strandedRun ++ [.reset] ++ [.addEdge 1 0]

/-- Once the walk that was cut short is forgotten, the edge that leads back closes a cycle. -/
theorem back_after_mendedRun :
    ∃ before after source target trail,
      ((empty : Graph Nat Unit).after mendedRun).events
        (Observer.silent : Observer Nat Unit Unit Unit) () (.node 0) =
          before ++ .edge source target .back :: after ∧
      ((empty : Graph Nat Unit).after mendedRun).ActivePath before (1 :: trail) ∧
      0 ∈ 1 :: trail ∧ ReflTransGen ((empty : Graph Nat Unit).after mendedRun).Edge 0 1 := by
  have htold : ((empty : Graph Nat Unit).after mendedRun).events
      (Observer.silent : Observer Nat Unit Unit Unit) () (.node 0) =
        [.enter 0 ⟨10, none, .discovered 0, [1], none⟩,
          .edge ⟨10, none, .discovered 0, [1], none⟩ ⟨20, none, .undiscovered, [0], some 0⟩ .tree,
          .enter 1 ⟨20, none, .discovered 1, [0], some 0⟩] ++
        .edge ⟨20, none, .discovered 1, [0], some 0⟩ ⟨10, none, .discovered 0, [1], none⟩ .back ::
        [.leave 1 ⟨20, none, .finished 1 2, [0], some 0⟩,
          .leave 0 ⟨10, none, .finished 0 3, [1], none⟩] := by cbv
  have hsource : ((empty : Graph Nat Unit).after mendedRun).find? 20 = some 1 := by cbv
  have htarget : ((empty : Graph Nat Unit).after mendedRun).find? 10 = some 0 := by cbv
  obtain ⟨i, j, trail, hi, hj, -, hpath, hreach, -, hsince⟩ := back_after mendedRun htold
  rw [hsource] at hi
  rw [htarget] at hj
  cases hi
  cases hj
  have hmem : 0 ∈ 1 :: trail := by
    refine hsince (strandedRun ++ [.reset]) [.addEdge 1 0] rfl ?_ ⟨trivial, trivial⟩
    rintro k ⟨t, ht⟩
    rw [after_append] at ht
    cases untouched_reset _ k _ ht
  exact ⟨_, _, _, _, trail, htold, hpath, hmem, hreach hmem⟩

end Graph

end Precedence
