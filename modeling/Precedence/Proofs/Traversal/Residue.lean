import Precedence.Proofs.Traversal.Stranding

/-!
# Parents of nodes that were never entered

A walk gives the target of a tree edge its parent before it tells of the edge, and enters the target
after. Who stops the walk in between leaves a node that has a parent and no clock reading. The parent
stays until the node is reached for again or all walks are forgotten, and no other node that has not
been entered has a parent.
-/

namespace Precedence

variable {ι α σ ε : Type} [BEq ι] [Hashable ι]

namespace Graph

/-- The event tells of a tree edge between two indices. -/
def ReachesFor (g : Graph ι α) (event : Event ι α) (i j : NodeIndex) : Prop :=
  g.report? event = some ⟨some i, some j, .tree⟩

private theorem not_reachesFor {g : Graph ι α} {event : Event ι α}
    (hevent : ∀ source target, event ≠ .edge source target .tree) (i j : NodeIndex) :
    ¬ g.ReachesFor event i j := by
  cases event with
  | edge source target kind =>
    intro h
    simp only [ReachesFor, report?, Option.some.injEq, EdgeReport.mk.injEq] at h
    exact hevent source target (by rw [h.2.2])
  | enter i n => simp [ReachesFor, report?]
  | leave i n => simp [ReachesFor, report?]

end Graph

/-! ### Where a walk is stopped -/

namespace Walk

section
variable {g₀ g : Graph ι α} {es : List (Event ι α)} {path : List Frame} {k : NodeIndex}

private theorem Tracked.isEntered_iff (h : Tracked g₀ es path g) (k : NodeIndex) :
    g.IsEntered k ↔ g₀.IsEntered k ∨ EnteredIn es k := by
  by_cases he : EnteredIn es k
  · simp [he, h.isEntered he]
  · have hkept : g.visit? k = g₀.visit? k := by rw [Graph.visit?, h.kept k he, Graph.visit?]
    simp [Graph.IsEntered, hkept, he]

private theorem Tracked.parent?_eq (h : Tracked g₀ es path g) (hk : ¬ g.IsEntered k) :
    g.parent? k = g₀.parent? k := by
  have he : ¬ EnteredIn es k := fun he => hk (h.isEntered he)
  rw [Graph.parent?, h.kept k he, Graph.parent?]

end

/-- What holds at an event that comes after others, in walks that began with the graph `g₀`. -/
structure Residual (g₀ : Graph ι α) (es : List (Event ι α)) (event : Event ι α) (g : Graph ι α) :
    Prop where
  isEntered_iff : ∀ k, g.IsEntered k ↔ g₀.IsEntered k ∨ EnteredIn (es ++ [event]) k
  /-- Who has not been entered has the parent from before, unless it is being reached for. -/
  parent?_eq_some_iff : ∀ i k, ¬ g.IsEntered k →
    (g.parent? k = some i ↔
      g₀.parent? k = some i ∧ (∀ l, ¬ g₀.ReachesFor event l k) ∨ g₀.ReachesFor event i k)
  /-- Where a tree begins, the node has the parent from before. -/
  start : ∀ i n, event = .enter i n → (∀ k, ¬ UnderwayIn es k) →
    g₀.IsNew i ∧ n.parent = g₀.parent? i

section
variable {g₀ g : Graph ι α} {es : List (Event ι α)} {event : Event ι α} {path : List Frame}

private theorem Tracked.residual (h : Tracked g₀ (es ++ [event]) path g)
    (hevent : ∀ source target, event ≠ .edge source target .tree)
    (hstart : ∀ i n, event = .enter i n → (∀ k, ¬ UnderwayIn es k) →
      g₀.IsNew i ∧ n.parent = g₀.parent? i) : Residual g₀ es event g where
  isEntered_iff := h.isEntered_iff
  parent?_eq_some_iff i k hk := by simp [h.parent?_eq hk, Graph.not_reachesFor hevent]
  start := hstart

private theorem Tracked.residual_put {i j : NodeIndex} {target : Node ι α}
    (h : Tracked g₀ (es ++ [event]) path g) (hj : g.nodes[j]? = some target)
    (hreach : ∀ l k, g₀.ReachesFor event l k ↔ l = i ∧ k = j)
    (hevent : ∀ i n, event ≠ .enter i n) :
    Residual g₀ es event (g.put j { target with parent := some i }) where
  isEntered_iff k := by
    have hvisit : (g.put j { target with parent := some i }).visit? = g.visit? :=
      Graph.visit?_put hj rfl
    rw [Graph.IsEntered, hvisit, ← Graph.IsEntered]
    exact h.isEntered_iff k
  parent?_eq_some_iff l k hk := by
    have hvisit : (g.put j { target with parent := some i }).visit? = g.visit? :=
      Graph.visit?_put hj rfl
    rw [Graph.IsEntered, hvisit, ← Graph.IsEntered] at hk
    rw [Graph.parent?_put hj]
    simp only [hreach, not_and]
    by_cases hjk : j = k
    · subst hjk
      simp [eq_comm]
    · simp [hjk, Ne.symm hjk, h.parent?_eq hk]
  start i n hn := absurd hn (hevent i n)

/-- Wherever walks are stopped, no node is reached for but the target of a tree edge. -/
theorem Ahead.residuals [EquivBEq ι] (hg : g₀.WellFormed) {script : Script ι α}
    (h : Ahead g path script) (ht : Tracked g₀ es path g) :
    script.Ensures (Residual g₀) (Final g₀) es := by
  induction h generalizing es with
  | ended => exact ⟨[], ht, fun _ => rfl⟩
  | lost hi => exact ⟨_, ht, by simp⟩
  | dangling hi hj => exact ⟨_, ht, by simp⟩
  | leave hi _ ih =>
    have hleft := ht.leave hi
    exact ⟨hleft.residual (by simp) (by simp), ih hleft⟩
  | pass hi hj hk _ ih => exact ih ht.advance
  | @report g i j pending path source target kind rest hi hj hk hkind _ ih =>
    have htold := ht.edge source target kind
    refine ⟨htold.residual ?_ (by simp), ih htold.advance⟩
    intro source' target' heq
    cases heq
    exact hkind rfl
  | @descend g i j pending path source target rest hi hj hv _ ih =>
    have htold := ht.edge source { target with parent := some i } .tree
    have hentered := htold.descend hj hv
    have hid : g₀.id? = g.id? := (Graph.id?_congr ht.reset_eq).symm
    have hsource : g₀.find? source.id = some i :=
      hg.indexed.find?_of_id? (by rw [hid, Graph.id?_of_node hi])
    have htarget : g₀.find? target.id = some j :=
      hg.indexed.find?_of_id? (by rw [hid, Graph.id?_of_node hj])
    refine ⟨htold.residual_put hj ?_ (by simp),
      hentered.residual (by simp) ?_, ih hentered⟩
    · intro l k
      simp [Graph.ReachesFor, Graph.report?, hsource, htarget, eq_comm]
    · -- The source is under way.
      intro k n hn hnone
      have hunder := (htold.mem_trail_iff i).mp (head_mem_trail i (j :: pending) path)
      exact absurd hunder (hnone i)

end

end Walk

namespace Graph

open Walk (Tracked Residual Final)

section
variable [EquivBEq ι] {g₀ g : Graph ι α} (hg : g₀.WellFormed)
include hg

private theorem residuals_scriptFrom {es : List (Event ι α)} (h : Tracked g₀ es [] g)
    (start : NodeIndex) : (g.scriptFrom start).Ensures (Residual g₀) (Final g₀) es := by
  have hb := g.begins_scriptFrom start
  generalize g.scriptFrom start = script at hb
  cases hb with
  | lost hi => exact ⟨[], h, fun _ => rfl⟩
  | known hi hv => exact ⟨[], h, fun _ => rfl⟩
  | @new n rest hi hv hrest =>
    have hentered := h.start hi hv
    refine ⟨hentered.residual (by simp) ?_, hrest.residuals hg hentered⟩
    intro i m hm _
    cases hm
    refine ⟨h.isNew_of_node hi hv, ?_⟩
    rw [← h.parent?_eq (not_isEntered_of_node hi hv), parent?_of_node hi]
    rfl

private theorem residuals_scriptEach {es : List (Event ι α)} (h : Tracked g₀ es [] g)
    (starts : List NodeIndex) : (g.scriptEach starts).Ensures (Residual g₀) (Final g₀) es := by
  induction starts generalizing g es with
  | nil => exact ⟨[], h, fun _ => rfl⟩
  | cons start starts ih =>
    refine (residuals_scriptFrom hg h start).andThen (fun _ _ _ hend => hend) ?_
    rintro es g ⟨path, hend, hpath⟩
    rw [hpath rfl] at hend
    exact ih hend

/-- What holds at the events of a call, and at its end. -/
theorem residuals_script (c : Call) : (g₀.script c).Ensures (Residual g₀) (Final g₀) [] :=
  residuals_scriptEach hg (Walk.tracked_nil g₀) (g₀.starts c)

end

/-! ### Edges that are cut off -/

/-- The operation is a walk that is stopped at a tree edge between two indices. -/
def Severs (g : Graph ι α) (i j : NodeIndex) : Operation ι α → Prop
  | .walk o s c => ∃ event reason, (event, some reason) ∈ g.calls o s c ∧ g.ReachesFor event i j
  | _ => False

/-- None of the operations forgets walks or is stopped at a tree edge into the node. -/
def Undisturbed (g : Graph ι α) (j : NodeIndex) : List (Operation ι α) → Prop
  | [] => True
  | op :: ops => op ≠ .reset ∧ (∀ i, ¬ g.Severs i j op) ∧ (g.apply op).Undisturbed j ops

/-- One of the operations is stopped at a tree edge between the two indices, and those after it do
not disturb the target. -/
def Severed (g : Graph ι α) (i j : NodeIndex) : List (Operation ι α) → Prop
  | [] => False
  | op :: ops => g.Severs i j op ∧ (g.apply op).Undisturbed j ops ∨ (g.apply op).Severed i j ops

/-- What a call leaves of the nodes that it does not enter. -/
theorem residue_walk [EquivBEq ι] {g : Graph ι α} (hg : g.WellFormed) (o : Observer ι α σ ε) (s : σ)
    (c : Call) :
    (∀ k, (g.walk o s c).graph.IsEntered k ↔ g.IsEntered k ∨ EnteredIn (g.events o s c) k) ∧
      ∀ i k, ¬ (g.walk o s c).graph.IsEntered k →
        ((g.walk o s c).graph.parent? k = some i ↔
          g.parent? k = some i ∧ (∀ l, ¬ g.Severs l k (.walk o s c)) ∨
            g.Severs i k (.walk o s c)) := by
  have hread := (residuals_script hg c).reading o s
  simp only [Severs, walk_eq_perform, events_eq, calls_eq]
  generalize (g.script c).calls o s = calls at hread ⊢
  generalize (g.script c).perform o s = r at hread ⊢
  -- A reading that is not stopped answers no event with a reason.
  have hunstopped {g' : Graph ι α} {path : List Frame} (hcalls : ∀ call ∈ calls, call.2 = none)
      (ht : Tracked g ([] ++ calls.map Prod.fst) path g') :
      (∀ k, g'.IsEntered k ↔ g.IsEntered k ∨ EnteredIn (calls.map Prod.fst) k) ∧
        ∀ i k, ¬ g'.IsEntered k → (g'.parent? k = some i ↔
          g.parent? k = some i ∧
              (∀ l, ¬ ∃ event reason, (event, some reason) ∈ calls ∧ g.ReachesFor event l k) ∨
            ∃ event reason, (event, some reason) ∈ calls ∧ g.ReachesFor event i k) := by
    have hnone (l k : NodeIndex) :
        ¬ ∃ event reason, (event, some reason) ∈ calls ∧ g.ReachesFor event l k := by
      rintro ⟨event, reason, hmem, -⟩
      cases hcalls _ hmem
    refine ⟨ht.isEntered_iff, ?_⟩
    intro i k hk
    simp only [hnone, not_false_eq_true, implies_true, and_true, or_false, ht.parent?_eq hk]
  cases hread with
  | through hcalls h =>
    obtain ⟨path, ht, -⟩ := h
    exact hunstopped hcalls ht
  | faulted hcalls h =>
    obtain ⟨path, ht, -⟩ := h
    exact hunstopped hcalls ht
  | @stopped before event reason g' s' hbefore h =>
    have hlast (l k : NodeIndex) : (∃ event' reason',
        (event', some reason') ∈ before ++ [(event, some reason)] ∧ g.ReachesFor event' l k) ↔
          g.ReachesFor event l k := by
      constructor
      · rintro ⟨event', reason', hmem, hreach⟩
        rcases List.mem_append.mp hmem with hmem | hmem
        · cases hbefore _ hmem
        · cases List.mem_singleton.mp hmem
          exact hreach
      · intro hreach
        exact ⟨event, reason, by simp, hreach⟩
    refine ⟨?_, ?_⟩
    · simpa using h.isEntered_iff
    · intro i k hk
      simpa only [hlast] using h.parent?_eq_some_iff i k hk

private theorem IsEntered.apply [EquivBEq ι] {g : Graph ι α} {k : NodeIndex} (h : g.IsEntered k)
    (hg : g.WellFormed) {op : Operation ι α} (hop : op ≠ .reset) : (g.apply op).IsEntered k := by
  have hquiet (hq : op.Quiet) : (g.apply op).IsEntered k :=
    ((g.widens_apply hq).isEntered_iff k).mpr h
  cases op with
  | walk o s c => exact ((residue_walk hg o s c).1 k).mpr (.inl h)
  | reset => exact absurd rfl hop
  | _ => exact hquiet trivial

section
variable [EquivBEq ι] {g : Graph ι α} (hg : g.WellFormed)
include hg

private theorem Undisturbed.not_isEntered [LawfulHashable ι] {k : NodeIndex}
    {ops : List (Operation ι α)}
    (h : g.Undisturbed k ops) (hk : ¬ (g.after ops).IsEntered k) : ¬ g.IsEntered k := by
  induction ops generalizing g with
  | nil => exact hk
  | cons op ops ih =>
    intro hentered
    exact ih (hg.apply op) h.2.2 hk (hentered.apply hg h.1)

/-- After an operation, a node that has not been entered has its parent from before, unless the
operation forgets all walks or is stopped at a tree edge into it; then the source of that edge is
its parent. -/
theorem parent?_apply_iff {op : Operation ι α} {k : NodeIndex}
    (hk : ¬ (g.apply op).IsEntered k) (i : NodeIndex) :
    (g.apply op).parent? k = some i ↔
      g.parent? k = some i ∧ op ≠ .reset ∧ (∀ l, ¬ g.Severs l k op) ∨ g.Severs i k op := by
  have hquiet (hq : op.Quiet) (hreset : op ≠ .reset) (hnone : ∀ l, ¬ g.Severs l k op) :
      (g.apply op).parent? k = some i ↔
        g.parent? k = some i ∧ op ≠ .reset ∧ (∀ l, ¬ g.Severs l k op) ∨ g.Severs i k op := by
    rw [(g.widens_apply hq).parent?_eq]
    simp [hreset, hnone]
  cases op with
  | walk o s c => simpa [apply] using (residue_walk hg o s c).2 i k hk
  | reset => simp [apply, parent?_reset, Severs]
  | _ => exact hquiet trivial (by simp) fun _ => id

/-- After operations, a node that has not been entered has its parent from before, unless that was
disturbed; then it has a parent exactly if it was cut off since from that parent. -/
theorem parent?_after_iff [LawfulHashable ι] {ops : List (Operation ι α)} {k : NodeIndex}
    (hk : ¬ (g.after ops).IsEntered k) (i : NodeIndex) :
    (g.after ops).parent? k = some i ↔
      g.parent? k = some i ∧ g.Undisturbed k ops ∨ g.Severed i k ops := by
  induction ops generalizing g with
  | nil => simp [after, Undisturbed, Severed]
  | cons op ops ih =>
    have hrest : (g.after (op :: ops)).parent? k = some i ↔
        (g.apply op).parent? k = some i ∧ (g.apply op).Undisturbed k ops ∨
          (g.apply op).Severed i k ops := ih (hg.apply op) hk
    have hstep (hun : (g.apply op).Undisturbed k ops) :=
      parent?_apply_iff hg (hun.not_isEntered (hg.apply op) hk) i
    rw [hrest, Undisturbed, Severed]
    constructor
    · rintro (⟨hparent, hun⟩ | hsevered)
      · rcases (hstep hun).mp hparent with ⟨hold, hreset, hnone⟩ | hsevers
        · exact .inl ⟨hold, hreset, hnone, hun⟩
        · exact .inr (.inl ⟨hsevers, hun⟩)
      · exact .inr (.inr hsevered)
    · rintro (⟨hold, hreset, hnone, hun⟩ | ⟨hsevers, hun⟩ | hsevered)
      · exact .inl ⟨(hstep hun).mpr (.inl ⟨hold, hreset, hnone⟩), hun⟩
      · exact .inl ⟨(hstep hun).mpr (.inr hsevers), hun⟩
      · exact .inr hsevered

end

/-! ### Any operations -/

/-- Whatever was done to a graph, a node that is undiscovered has neither clock reading, and it has a
parent exactly if a walk was stopped at a tree edge into it that has not been forgotten since: the
source of the last such edge. The same parent is told of a node where a later call begins a tree. -/
theorem residue_after [EquivBEq ι] [LawfulHashable ι] (ops : List (Operation ι α)) :
    let g := (empty : Graph ι α).after ops
    (∀ i n, g.nodes[i]? = some n → n.state = .undiscovered →
      n.entryTime? = none ∧ n.exitTime? = none ∧
        ∀ p, n.parent = some p ↔ (empty : Graph ι α).Severed p i ops) ∧
    ∀ {σ ε : Type} (o : Observer ι α σ ε) (s : σ) (c : Call) (before after : List (Event ι α))
      (i : NodeIndex) (n : Node ι α), g.events o s c = before ++ .enter i n :: after →
        (∀ k, ¬ UnderwayIn before k) →
          ∀ p, n.parent = some p ↔ (empty : Graph ι α).Severed p i ops := by
  intro g
  have hg : g.WellFormed := WellFormed.empty.after ops
  have hparent {i : NodeIndex} (hi : ¬ g.IsEntered i) (p : NodeIndex) :
      g.parent? i = some p ↔ (empty : Graph ι α).Severed p i ops := by
    have hempty : (empty : Graph ι α).parent? i = none := by simp [parent?, empty]
    rw [parent?_after_iff WellFormed.empty hi p, hempty]
    simp
  refine ⟨?_, ?_⟩
  · intro i n hi hstate
    have hv : n.visit = .undiscovered := by
      rw [← n.isDiscovered_eq_false_iff, Node.isDiscovered, hstate]
      rfl
    refine ⟨by simp [Node.entryTime?, hv, Visit.entryTime?],
      by simp [Node.exitTime?, hv, Visit.exitTime?], ?_⟩
    intro p
    rw [← parent?_of_node hi, hparent (not_isEntered_of_node hi hv)]
  · intro σ ε o s c before after i n hevents hnone p
    obtain ⟨g', hmoment⟩ := exists_of_events (residuals_script hg c) hevents
    obtain ⟨hnew, hn⟩ := hmoment.start i n rfl hnone
    rw [hn, hparent hnew.not_isEntered]

/-- Stops a walk at the first edge it is told of. -/
def shy : Observer Nat Unit Unit Unit where
  notice event s := (s, match event with
    | .edge .. => some ()
    | _ => none)

/-- An edge, and a walk that is stopped at it. -/
def severedRun : List (Operation Nat Unit) :=
  [.intern 10, .intern 20, .addEdge 0 1, .walk shy () (.node 0)]

/-- An undiscovered node may have a parent, and a later tree may begin at a node that has one. -/
theorem residue_after_severedRun :
    let g := (empty : Graph Nat Unit).after severedRun
    (∃ n, g.nodes[1]? = some n ∧ n.state = .undiscovered ∧ n.parent = some 0) ∧
      ∃ n after, g.events (Observer.silent : Observer Nat Unit Unit Unit) () (.node 1) =
        .enter 1 n :: after ∧ n.parent = some 0 :=
  ⟨⟨⟨20, none, .undiscovered, [], some 0⟩, by cbv, by cbv, by cbv⟩,
    ⟨20, none, .discovered 1, [], some 0⟩, [.leave 1 ⟨20, none, .finished 1 2, [], some 0⟩],
    by cbv, by cbv⟩

/-- Two edges into one node, and a walk that is stopped at each of them. -/
def twiceSeveredRun : List (Operation Nat Unit) :=
  severedRun ++ [.intern 30, .addEdge 2 1, .walk shy () (.node 2)]

/-- The node has the source of the last such edge as its parent, and keeps it when a tree begins
there. -/
theorem residue_after_twiceSeveredRun :
    let g := (empty : Graph Nat Unit).after twiceSeveredRun
    ∃ n m after, g.nodes[1]? = some n ∧ n.state = .undiscovered ∧
      g.events (Observer.silent : Observer Nat Unit Unit Unit) () (.node 1) =
        [] ++ .enter 1 m :: after ∧
      n.entryTime? = none ∧ n.exitTime? = none ∧ n.parent = some 2 ∧ m.parent = some 2 ∧
      (empty : Graph Nat Unit).Severed 2 1 twiceSeveredRun ∧
      ¬ (empty : Graph Nat Unit).Severed 0 1 twiceSeveredRun := by
  have hnode : ((empty : Graph Nat Unit).after twiceSeveredRun).nodes[1]? =
      some ⟨20, none, .undiscovered, [], some 2⟩ := by cbv
  have htold : ((empty : Graph Nat Unit).after twiceSeveredRun).events
      (Observer.silent : Observer Nat Unit Unit Unit) () (.node 1) =
        [] ++ .enter 1 ⟨20, none, .discovered 2, [], some 2⟩ ::
          [.leave 1 ⟨20, none, .finished 2 3, [], some 2⟩] := by cbv
  obtain ⟨hrest, hstart⟩ := residue_after twiceSeveredRun
  obtain ⟨hentry, hexit, hparent⟩ := hrest 1 _ hnode rfl
  have htree := hstart _ _ _ _ _ _ _ htold (by simp [UnderwayIn])
  exact ⟨_, _, _, hnode, rfl, htold, hentry, hexit, rfl, rfl, (htree 2).mp rfl,
    fun h => by cases (hparent 0).mpr h⟩

end Graph

end Precedence
