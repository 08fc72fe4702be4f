import Precedence.Proofs.Traversal.Extent
import Precedence.Proofs.Traversal.Projection

/-!
# The rounds of a walk

A walk is a loop. As long as a node is under way, a round looks at the next edge of the innermost
node, or leaves that node when no edge is left. In every graph and for every observer the loop comes
to its end. If nobody stops it, each node that is entered gets one round for each of its edges, in
order, and one in which it is left; no other round takes place.
-/

namespace Precedence

variable {ι α σ ε : Type}

/-- One round of a walk. -/
structure Round (ι α : Type) where
  /-- The innermost node. -/
  node : NodeIndex
  /-- The target of the edge that is looked at, or `none` when the node is left. -/
  target : Option NodeIndex
  /-- The events that are told in the round. -/
  told : List (Event ι α)

/-- The event tells of an edge. -/
def Event.isEdge : Event ι α → Bool
  | .edge .. => true
  | _ => false

/-- What a node is looked at for when these edges are left: each of them, and then its exit. -/
def Frame.targets (f : Frame) : List (Option NodeIndex) := f.pending.map some ++ [none]

namespace Round

/-- What the rounds of a node are for, in order. -/
def targets (rounds : List (Round ι α)) (i : NodeIndex) : List (Option NodeIndex) :=
  (rounds.filter (·.node == i)).map (·.target)

/-- The events that are told in rounds. -/
def events (rounds : List (Round ι α)) : List (Event ι α) := rounds.flatMap told

/-- The events of a round that tell of an edge. -/
def edges (r : Round ι α) : List (Event ι α) := r.told.filter Event.isEdge

/-- A round that leaves a node tells of no edge. One that looks at an edge tells of this edge and of
no other, or of none if edges lead both ways. -/
def Tells [BEq ι] [Hashable ι] (g : Graph ι α) (r : Round ι α) : Prop :=
  match r.target with
  | none => r.edges = []
  | some j => r.edges = [] ∧ g.directed = false ∨
      ∃ source target kind, r.edges = [.edge source target kind] ∧
        g.id? r.node = some source.id ∧ g.id? j = some target.id

end Round

private theorem Observer.notice_traced (o : Observer ι α σ ε) {event : Event ι α} {s s' : σ}
    {reason : Option ε} (hn : o.notice event s = (s', reason)) (es : List (Event ι α)) :
    o.traced.notice event (s, es) = ((s', es ++ [event]), reason) := by
  simp only [traced, hn]

variable [BEq ι] [Hashable ι]

/-! ### The course of a walk -/

/-- A progress with a list of the events beside it. -/
def Walk.withEvents (w : Walk ι α σ) (events : List (Event ι α)) :
    Walk ι α (σ × List (Event ι α)) := ⟨w.graph, (w.observed, events), w.path⟩

namespace Progress

/-- The state of the observer. -/
def observed : Progress ι α σ ε → σ
  | running w => w.observed
  | halted r => r.observed

/-- A progress with a list of the events beside it. -/
def withEvents (p : Progress ι α σ ε) (events : List (Event ι α)) :
    Progress ι α (σ × List (Event ι α)) ε :=
  match p with
  | running w => running (w.withEvents events)
  | halted r => halted (r.withEvents events)

end Progress

namespace Walk

/-- The events that the observer is told in the next step. -/
def told (o : Observer ι α σ ε) (w : Walk ι α σ) : List (Event ι α) :=
  ((w.withEvents []).step o.traced).observed.2

/-- The round that comes next, if a node is under way. -/
def round? (o : Observer ι α σ ε) (w : Walk ι α σ) : Option (Round ι α) :=
  w.path.head?.map fun f => ⟨f.index, f.pending.head?, w.told o⟩

/-- The rounds of a walk that comes to an end, and what it leaves behind. -/
inductive Course (o : Observer ι α σ ε) :
    Walk ι α σ → List (Round ι α) → Outcome ι α σ ε → Prop where
  | halts {w : Walk ι α σ} {r : Outcome ι α σ ε} (h : w.step o = .halted r) :
      Course o w (w.round? o).toList r
  | moves {w w' : Walk ι α σ} {rounds : List (Round ι α)} {r : Outcome ι α σ ε}
      (h : w.step o = .running w') (rest : Course o w' rounds r) :
      Course o w ((w.round? o).toList ++ rounds) r

/-- Every walk comes to an end. -/
theorem exists_course (o : Observer ι α σ ε) (w : Walk ι α σ) :
    ∃ rounds, Course o w rounds (run o w) := by
  fun_induction run o w with
  | case1 w w' hs ih =>
    obtain ⟨rounds, hrest⟩ := ih
    exact ⟨_, .moves hs hrest⟩
  | case2 w outcome hs => exact ⟨_, .halts hs⟩

/-- A walk comes to its end in one way only. -/
theorem Course.unique {o : Observer ι α σ ε} {w : Walk ι α σ} {rounds rounds' : List (Round ι α)}
    {r r' : Outcome ι α σ ε} (h : Course o w rounds r) (h' : Course o w rounds' r') :
    rounds' = rounds ∧ r' = r := by
  induction h generalizing rounds' with
  | halts hs =>
    cases h' with
    | halts hs' =>
      cases hs.symm.trans hs'
      exact ⟨rfl, rfl⟩
    | moves hs' rest' => cases hs.symm.trans hs'
  | moves hs rest ih =>
    cases h' with
    | halts hs' => cases hs.symm.trans hs'
    | moves hs' rest' =>
      cases hs.symm.trans hs'
      obtain ⟨rfl, rfl⟩ := ih rest'
      exact ⟨rfl, rfl⟩

/-! ### What is told in a round -/

section
variable {o : Observer ι α σ ε} {w : Walk ι α σ}

private theorem told_of_moves {w' : Walk ι α (σ × List (Event ι α))} {es : List (Event ι α)}
    (h : Moves o.traced (w.withEvents []) w') (hes : w'.observed.2 = es) : w.told o = es := by
  rw [told, step_eq_running_iff.mpr h, Progress.observed, hes]

private theorem Follows.exists_traced {p : Progress ι α σ ε} (h : Follows o w p) :
    ∃ added, ∀ es : List (Event ι α),
      Follows o.traced (w.withEvents es) (p.withEvents (es ++ added)) := by
  -- A rule that tells nothing leaves the trace as it is.
  have hsilent (hp : ∀ es : List (Event ι α), Follows o.traced (w.withEvents es) (p.withEvents es)) :
      ∃ added, ∀ es : List (Event ι α),
        Follows o.traced (w.withEvents es) (p.withEvents (es ++ added)) := by
    refine ⟨[], fun es => ?_⟩
    rw [List.append_nil]
    exact hp es
  cases p with
  | running w' =>
    cases h with
    | leave hi hn => exact ⟨[_], fun es => .leave hi (o.notice_traced hn es)⟩
    | pass hi hj hk => exact hsilent fun es => .pass hi hj hk
    | report hi hj hk ht hn => exact ⟨[_], fun es => .report hi hj hk ht (o.notice_traced hn es)⟩
    | @descend g _ _ _ i j _ _ source target hi hj hv he hn =>
      refine ⟨[.edge source { target with parent := some i } .tree] ++
        [.enter j ({ target with parent := some i }.enter g.clock)], fun es => ?_⟩
      rw [← List.append_assoc]
      exact .descend hi hj hv (o.notice_traced he es) (o.notice_traced hn _)
  | halted r =>
    cases h with
    | done => exact hsilent fun es => .done
    | leave hi hn => exact ⟨[_], fun es => .leave hi (o.notice_traced hn es)⟩
    | report hi hj hk ht hn => exact ⟨[_], fun es => .report hi hj hk ht (o.notice_traced hn es)⟩
    | reach hi hj hv he => exact ⟨[_], fun es => .reach hi hj hv (o.notice_traced he es)⟩
    | @enter g _ _ _ i j _ _ source target _ hi hj hv he hn =>
      refine ⟨[.edge source { target with parent := some i } .tree] ++
        [.enter j ({ target with parent := some i }.enter g.clock)], fun es => ?_⟩
      rw [← List.append_assoc]
      exact .enter hi hj hv (o.notice_traced he es) (o.notice_traced hn _)
    | lost hi => exact hsilent fun es => .lost hi
    | dangling hi hj => exact hsilent fun es => .dangling hi hj

private theorem step_withEvents (o : Observer ι α σ ε) (w : Walk ι α σ) (es : List (Event ι α)) :
    (w.withEvents es).step o.traced = (w.step o).withEvents (es ++ w.told o) := by
  obtain ⟨added, hadded⟩ := (follows_step o w).exists_traced
  have htold : w.told o = added := by
    rw [told, step_eq_of_follows (hadded []), List.nil_append]
    cases w.step o <;> rfl
  rw [htold]
  exact step_eq_of_follows (hadded es)

private theorem events_round? (o : Observer ι α σ ε) (w : Walk ι α σ) :
    Round.events (w.round? o).toList = w.told o := by
  obtain ⟨g, s, path⟩ := w
  cases path with
  | nil => rfl
  | cons f path => simp [round?, Round.events]

private theorem events_round?_append (o : Observer ι α σ ε) (w : Walk ι α σ)
    (rounds : List (Round ι α)) :
    Round.events ((w.round? o).toList ++ rounds) = w.told o ++ Round.events rounds := by
  rw [← events_round?, Round.events, List.flatMap_append]
  rfl

private theorem Course.run_withEvents {rounds : List (Round ι α)} {r : Outcome ι α σ ε}
    (h : Course o w rounds r) (es : List (Event ι α)) :
    run o.traced (w.withEvents es) = r.withEvents (es ++ Round.events rounds) := by
  induction h generalizing es with
  | @halts w r hs =>
    have hstep := step_withEvents o w es
    rw [hs] at hstep
    rw [run_of_halted hstep, events_round?]
  | @moves w w' rounds r hs rest ih =>
    have hstep := step_withEvents o w es
    rw [hs] at hstep
    rw [run_of_running hstep, ih, events_round?_append, List.append_assoc]

end

end Walk

/-! ### Frames that are worked off -/

open Event (entries)
open Walk (Moves Steady trail)

/-- What a node is looked at for when these frames are left. -/
def Frame.targetsOf (frames : List Frame) (i : NodeIndex) : List (Option NodeIndex) :=
  (frames.filter (·.index == i)).flatMap targets

/-- The frames of the nodes that events enter, with all their edges still to be looked at. -/
def Graph.opened (g : Graph ι α) (es : List (Event ι α)) : List Frame :=
  (entries es).map fun i => ⟨i, g.successors i⟩

private theorem Walk.length_append (path path' : List Frame) :
    Walk.length (path ++ path') = Walk.length path + Walk.length path' := by
  induction path with
  | nil => simp [Walk.length]
  | cons f path ih =>
    simp only [List.cons_append, Walk.length, ih]
    omega

/-- The rounds work off the frames: each gets one round for each edge that is left and one for its
exit, and there are no others. -/
structure WorksOff (g : Graph ι α) (frames : List Frame) (rounds : List (Round ι α)) : Prop where
  length_eq : rounds.length = Walk.length frames
  targets_eq : ∀ i, Round.targets rounds i = Frame.targetsOf frames i
  node_mem : ∀ r ∈ rounds, r.node ∈ trail frames
  tells : ∀ r ∈ rounds, r.Tells g

namespace WorksOff

variable {g : Graph ι α} {i j : NodeIndex} {pending : List NodeIndex} {f : Frame}
  {path new frames : List Frame} {es : List (Event ι α)} {rounds : List (Round ι α)}

private theorem nil (g : Graph ι α) : WorksOff g [] [] where
  length_eq := rfl
  targets_eq i := rfl
  node_mem := by simp
  tells := by simp

private theorem leave (h : WorksOff g frames rounds) (hround : (Round.mk i none es).Tells g) :
    WorksOff g (⟨i, []⟩ :: frames) (⟨i, none, es⟩ :: rounds) where
  length_eq := by
    simp only [List.length_cons, h.length_eq, Walk.length, List.length_nil]
    omega
  targets_eq k := by
    have hk := h.targets_eq k
    simp only [Round.targets, Frame.targetsOf, List.filter_cons] at hk ⊢
    split <;> simp [hk, Frame.targets]
  node_mem r hr := by
    rcases List.mem_cons.mp hr with rfl | hr
    · exact Walk.head_mem_trail ..
    · exact List.mem_cons_of_mem _ (h.node_mem r hr)
  tells r hr := by
    rcases List.mem_cons.mp hr with rfl | hr
    · exact hround
    · exact h.tells r hr

private theorem look (h : WorksOff g (⟨i, pending⟩ :: frames) rounds)
    (hround : (Round.mk i (some j) es).Tells g) :
    WorksOff g (⟨i, j :: pending⟩ :: frames) (⟨i, some j, es⟩ :: rounds) where
  length_eq := by
    simp only [List.length_cons, h.length_eq, Walk.length]
    omega
  targets_eq k := by
    have hk := h.targets_eq k
    simp only [Round.targets, Frame.targetsOf, List.filter_cons] at hk ⊢
    split <;> simp_all [Frame.targets]
  node_mem r hr := by
    rcases List.mem_cons.mp hr with rfl | hr
    · exact Walk.head_mem_trail ..
    · exact h.node_mem r hr
  tells r hr := by
    rcases List.mem_cons.mp hr with rfl | hr
    · exact hround
    · exact h.tells r hr

private theorem defer (h : WorksOff g (f :: path ++ new) rounds) (hf : f.index ∉ trail path) :
    WorksOff g (path ++ f :: new) rounds where
  length_eq := by
    simp only [h.length_eq, List.cons_append, Walk.length, Walk.length_append]
    omega
  targets_eq k := by
    rw [h.targets_eq]
    simp only [Frame.targetsOf, List.cons_append, List.filter_append, List.filter_cons]
    split
    · next hk =>
      -- The frames in between are of other nodes.
      have hnone : path.filter (·.index == k) = [] := by
        rw [List.filter_eq_nil_iff]
        intro f' hf' hk'
        rw [beq_iff_eq] at hk hk'
        exact hf (List.mem_map.mpr ⟨f', hf', hk'.trans hk.symm⟩)
      simp only [hnone, List.nil_append]
    · rfl
  node_mem r hr := by
    have hmem := h.node_mem r hr
    simp only [trail, List.cons_append, List.map_append, List.map_cons, List.mem_cons,
      List.mem_append] at hmem ⊢
    tauto
  tells := h.tells

end WorksOff

namespace Walk

section
variable {o : Observer ι α σ ε} {g : Graph ι α} {s s' s'' : σ} {i j : NodeIndex}
  {pending : List NodeIndex} {path : List Frame} {n source target : Node ι α} {kind : EdgeKind}

private theorem told_leave (hi : g.nodes[i]? = some n)
    (hn : o.notice (.leave i (n.leave g.clock)) s = (s', none)) :
    told o ⟨g, s, ⟨i, []⟩ :: path⟩ = [.leave i (n.leave g.clock)] :=
  told_of_moves (.leave hi (o.notice_traced hn [])) rfl

private theorem told_pass (hi : g.nodes[i]? = some source) (hj : g.nodes[j]? = some target)
    (hk : EdgeKind.between g.directed source j target = none) :
    told o ⟨g, s, ⟨i, j :: pending⟩ :: path⟩ = [] :=
  told_of_moves (.pass hi hj hk) rfl

private theorem told_report (hi : g.nodes[i]? = some source) (hj : g.nodes[j]? = some target)
    (hk : EdgeKind.between g.directed source j target = some kind) (ht : kind ≠ .tree)
    (hn : o.notice (.edge source target kind) s = (s', none)) :
    told o ⟨g, s, ⟨i, j :: pending⟩ :: path⟩ = [.edge source target kind] :=
  told_of_moves (.report hi hj hk ht (o.notice_traced hn [])) rfl

private theorem told_descend (hi : g.nodes[i]? = some source) (hj : g.nodes[j]? = some target)
    (hv : target.visit = .undiscovered)
    (he : o.notice (.edge source { target with parent := some i } .tree) s = (s', none))
    (hn : o.notice (.enter j ({ target with parent := some i }.enter g.clock)) s' = (s'', none)) :
    told o ⟨g, s, ⟨i, j :: pending⟩ :: path⟩ =
      [.edge source { target with parent := some i } .tree,
        .enter j ({ target with parent := some i }.enter g.clock)] :=
  told_of_moves (.descend hi hj hv (o.notice_traced he []) (o.notice_traced hn _)) rfl

end

section
variable {g : Graph ι α} {o : Observer ι α σ ε} {w w' : Walk ι α σ} {rounds : List (Round ι α)}
  {r : Outcome ι α σ ε}

private theorem Halts.done_of_patient (hh : Halts o w r) (hg : w.graph.Closed) (ho : o.Patient)
    (hs : Steady w.graph w.path) : w.path = [] ∧ r.result = .ok () := by
  cases hh with
  | done => exact ⟨rfl, rfl⟩
  | leave hi hn => cases (congrArg Prod.snd hn).symm.trans (ho _ _)
  | report hi hj hk ht hn => cases (congrArg Prod.snd hn).symm.trans (ho _ _)
  | reach hi hj hv he => cases (congrArg Prod.snd he).symm.trans (ho _ _)
  | enter hi hj hv he hn => cases (congrArg Prod.snd hn).symm.trans (ho _ _)
  | lost hi =>
    obtain ⟨t, ht⟩ := hs.isOpen _ (head_mem_trail ..)
    simp [Graph.visit?, hi] at ht
  | @dangling g _ i j pending path source hi hj =>
    obtain ⟨n, hn⟩ := (g.exists_node_iff j).mpr (hg i j hs.edge)
    cases hj.symm.trans hn

/-- What comes before the frames of the path and of the nodes that later events enter is the round
of one step. -/
theorem Moves.worksOff (hm : Moves o w w') (hreset : w.graph.reset = g.reset)
    (hs : Steady w.graph w.path) {es : List (Event ι α)}
    (h : WorksOff g (w'.path ++ g.opened es) rounds) :
    WorksOff g (w.path ++ g.opened (w.told o ++ es)) ((w.round? o).toList ++ rounds) := by
  have hid := Graph.id?_congr hreset
  cases hm with
  | leave hi hn =>
    rw [round?, told_leave hi hn]
    exact h.leave rfl
  | @pass g' s i j pending path source target hi hj hk =>
    have hdirected : g.directed = false := by
      cases hd : g'.directed with
      | true =>
        have hsome := EdgeKind.isSome_between_directed source j target
        rw [hd] at hk
        rw [hk] at hsome
        cases hsome
      | false => exact (Graph.directed_congr hreset).symm.trans hd
    rw [round?, told_pass hi hj hk]
    exact h.look (.inl ⟨rfl, hdirected⟩)
  | report hi hj hk ht hn =>
    rw [round?, told_report hi hj hk ht hn]
    refine h.look (.inr ⟨_, _, _, rfl, ?_, ?_⟩)
    · rw [← hid, Graph.id?_of_node hi]
    · rw [← hid, Graph.id?_of_node hj]
  | @descend g' _ _ _ i j pending path source target hi hj hv he hn =>
    rw [round?, told_descend hi hj hv he hn]
    have hnot : j ∉ trail (⟨i, pending⟩ :: path) := fun hmem =>
      Graph.not_isEntered_of_node hj hv (hs.isOpen j hmem).isEntered
    have hsuccessors : target.neighbors = g.successors j := by
      rw [← Graph.successors_congr hreset, Graph.successors_of_node hj]
    -- The new frame is on top of the path here and among the opened ones there.
    rw [hsuccessors] at h
    refine (h.defer hnot).look (.inr ⟨source, _, .tree, rfl, ?_, ?_⟩)
    · rw [← hid, Graph.id?_of_node hi]
    · rw [← hid, Graph.id?_of_node hj]

/-- A walk that nobody stops works off its path and the frames of the nodes that it enters. -/
theorem Course.worksOff (h : Course o w rounds r) (hg : g.Closed) (ho : o.Patient)
    (hreset : w.graph.reset = g.reset) (hs : Steady w.graph w.path) :
    r.result = .ok () ∧ WorksOff g (w.path ++ g.opened (Round.events rounds)) rounds := by
  induction h with
  | @halts w r hstep =>
    obtain ⟨hpath, hok⟩ := (step_eq_halted_iff.mp hstep).done_of_patient (hg.congr hreset) ho hs
    refine ⟨hok, ?_⟩
    obtain ⟨g', s, path⟩ := w
    cases hpath
    exact .nil g
  | @moves w w' rounds r hstep rest ih =>
    have hm := step_eq_running_iff.mp hstep
    obtain ⟨hok, hrest⟩ := ih (hm.reset_eq.trans hreset) (hs.moves hm)
    rw [events_round?_append]
    exact ⟨hok, hm.worksOff hreset hs hrest⟩

end

end Walk

namespace Graph

/-! ### The course of a call -/

/-- The rounds of a call that walks from a start and comes to an end, and what it leaves behind. -/
inductive Course (g : Graph ι α) (o : Observer ι α σ ε) (s : σ) (start : NodeIndex) :
    List (Round ι α) → Outcome ι α σ ε → Prop where
  /-- The call is over before the first round. -/
  | idle {r : Outcome ι α σ ε} (h : Starts o g s start (.halted r)) : Course g o s start [] r
  | walk {w : Walk ι α σ} {rounds : List (Round ι α)} {r : Outcome ι α σ ε}
      (h : Starts o g s start (.running w)) (hrest : w.Course o rounds r) :
      Course g o s start rounds r

/-- What the rounds of a call do that tells of some events and that nobody stops. -/
structure Worked (g : Graph ι α) (es : List (Event ι α)) (rounds : List (Round ι α)) : Prop where
  /-- No node is entered twice. -/
  nodup : (entries es).Nodup
  /-- There is one round for each edge of each node that is entered, and one for its exit. -/
  length_eq : rounds.length = ((entries es).map fun i => (g.successors i).length + 1).sum
  /-- The rounds of a node look at each of its edges in order, and then the node is left. -/
  targets_eq : ∀ i ∈ entries es, Round.targets rounds i = (g.successors i).map some ++ [none]
  node_mem : ∀ r ∈ rounds, r.node ∈ entries es
  tells : ∀ r ∈ rounds, r.Tells g

section
variable {g : Graph ι α} {o : Observer ι α σ ε} {s : σ} {start : NodeIndex}

/-- Every call comes to an end. -/
theorem exists_course (g : Graph ι α) (o : Observer ι α σ ε) (s : σ) (start : NodeIndex) :
    ∃ rounds, g.Course o s start rounds (g.walkFrom o s start) := by
  obtain ⟨p, hp, hw⟩ := exists_starts o g s start
  rw [hw]
  cases p with
  | halted r => exact ⟨[], .idle hp⟩
  | running w =>
    obtain ⟨rounds, hrest⟩ := w.exists_course o
    exact ⟨rounds, .walk hp hrest⟩

/-- The first step leaves no choice. -/
theorem Starts.unique {p p' : Progress ι α σ ε} (h : Starts o g s start p)
    (h' : Starts o g s start p') : p' = p := by
  cases h <;> cases h' <;> simp_all

/-- A call comes to its end in one way only. -/
theorem Course.unique {rounds rounds' : List (Round ι α)} {r r' : Outcome ι α σ ε}
    (h : g.Course o s start rounds r) (h' : g.Course o s start rounds' r') :
    rounds' = rounds ∧ r' = r := by
  cases h with
  | idle hp =>
    cases h' with
    | idle hp' =>
      cases hp.unique hp'
      exact ⟨rfl, rfl⟩
    | walk hp' hrest' => cases hp.unique hp'
  | walk hp hrest =>
    cases h' with
    | idle hp' => cases hp.unique hp'
    | walk hp' hrest' =>
      cases hp.unique hp'
      exact hrest.unique hrest'

private theorem events_of_starts {p : Progress ι α (σ × List (Event ι α)) ε}
    (h : Starts o.traced g (s, []) start p) :
    g.events o s (.node start) = (p.outcome o.traced).observed.2 :=
  congrArg (·.observed.2) (walkFrom_eq_of_starts h)

private theorem events_of_enter {n : Node ι α} {s' : σ} {rounds : List (Round ι α)}
    {r : Outcome ι α σ ε} (hi : g.nodes[start]? = some n) (hv : n.visit = .undiscovered)
    (hn : o.notice (.enter start (n.enter g.clock)) (o.start start g.directed s) = (s', none))
    (hrest : Walk.Course o
      ⟨g.stamp start (n.enter g.clock), s', [⟨start, n.neighbors⟩]⟩ rounds r) :
    g.events o s (.node start) = .enter start (n.enter g.clock) :: Round.events rounds := by
  rw [events_of_starts (.enter hi hv (o.notice_traced hn []))]
  exact congrArg (·.observed.2) (hrest.run_withEvents [.enter start (n.enter g.clock)])

private theorem Course.exists_events_eq {rounds : List (Round ι α)} {r : Outcome ι α σ ε}
    (h : g.Course o s start rounds r) :
    ∃ n : Option (Node ι α), g.events o s (.node start) =
      (n.map (Event.enter start)).toList ++ Round.events rounds := by
  cases h with
  | idle hp =>
    cases hp with
    | lost hi => exact ⟨none, events_of_starts (.lost hi)⟩
    | known hi hv => exact ⟨none, events_of_starts (.known hi hv)⟩
    | @refused n _ _ hi hv hn =>
      exact ⟨some (n.enter g.clock), events_of_starts (.refused hi hv (o.notice_traced hn []))⟩
  | walk hp hrest =>
    cases hp with
    | @enter n _ hi hv hn => exact ⟨some (n.enter g.clock), events_of_enter hi hv hn hrest⟩

private theorem worked_of_worksOff {es : List (Event ι α)} {rounds : List (Round ι α)}
    (h : WorksOff g (g.opened es) rounds) (hnodup : (entries es).Nodup) : g.Worked es rounds where
  nodup := hnodup
  length_eq := by
    rw [h.length_eq, opened]
    induction entries es with
    | nil => rfl
    | cons i is ih =>
      simp only [List.map_cons, Walk.length, ih, List.sum_cons]
  targets_eq i hi := by
    have hone : (entries es).filter (· == i) = [i] := by
      rw [List.filter_beq, List.count_eq_one_of_mem hnodup hi]
      rfl
    rw [h.targets_eq, Frame.targetsOf, opened, List.filter_map]
    have hcomp : (fun f : Frame => f.index == i) ∘ (fun j => ⟨j, g.successors j⟩) = (· == i) := rfl
    rw [hcomp, hone]
    simp [Frame.targets]
  node_mem r hr := by
    have hmem := h.node_mem r hr
    simpa [trail, opened] using hmem
  tells := h.tells

/-- A call that nobody stops works off the nodes that it enters. -/
theorem Course.worked (hg : g.Closed) (hstart : start < g.size) (ho : o.Patient)
    {rounds : List (Round ι α)} {r : Outcome ι α σ ε} (h : g.Course o s start rounds r) :
    r.result = .ok () ∧ g.Worked (g.events o s (.node start)) rounds := by
  have hnodup : (entries (g.events o s (.node start))).Nodup := by
    have hend := (ensures_visits hg hstart).of_patient ho s
    rw [← script_node, ← walk_eq_perform, ← events_eq] at hend
    rw [List.nodup_iff_count_le_one]
    intro i
    by_cases hi : i ∈ entries (g.events o s (.node start))
    · exact (hend.2.entered_once i (hend.2.of_mem_entries i hi)).le
    · rw [List.count_eq_zero.mpr hi]
      exact Nat.zero_le 1
  cases h with
  | idle hp =>
    cases hp with
    | lost hi =>
      obtain ⟨n, hn⟩ := (g.exists_node_iff start).mpr hstart
      cases hi.symm.trans hn
    | known hi hv =>
      have hevents : g.events o s (.node start) = [] := events_of_starts (.known hi hv)
      rw [hevents] at hnodup ⊢
      exact ⟨rfl, worked_of_worksOff (.nil g) hnodup⟩
    | refused hi hv hn => cases (congrArg Prod.snd hn).symm.trans (ho _ _)
  | walk hp hrest =>
    cases hp with
    | @enter n s' hi hv hn =>
      rw [events_of_enter hi hv hn hrest] at hnodup ⊢
      have hsteady := (Walk.steady_nil g).push (n := n.enter g.clock) hi hv rfl rfl (by simp)
      obtain ⟨hok, hwork⟩ := hrest.worksOff hg ho (reset_stamp hi rfl) hsteady
      refine ⟨hok, worked_of_worksOff ?_ hnodup⟩
      rw [← successors_of_node hi] at hwork
      exact hwork

end

/-- In every graph, whatever walks have left there, and for every observer, a call comes to its end
after a number of rounds, and in one way only. All events are told in the rounds, but for the entry
of the start. If no edge leads out of the arena and nobody stops the call, each node that it enters
has one round for each of its edges, in order, and one in which it is left. -/
theorem worked_walk (g : Graph ι α) (o : Observer ι α σ ε) (s : σ) (start : NodeIndex) :
    ∃ rounds, (∀ rounds' r, g.Course o s start rounds' r ↔
        rounds' = rounds ∧ r = g.walk o s (.node start)) ∧
      (∃ n : Option (Node ι α), g.events o s (.node start) =
        (n.map (Event.enter start)).toList ++ Round.events rounds) ∧
      (g.Closed → start < g.size → o.Patient →
        (g.walk o s (.node start)).result = .ok () ∧
          g.Worked (g.events o s (.node start)) rounds) := by
  obtain ⟨rounds, hcourse⟩ := exists_course g o s start
  refine ⟨rounds, ?_, hcourse.exists_events_eq, fun hg hstart ho => hcourse.worked hg hstart ho⟩
  intro rounds' r
  constructor
  · exact hcourse.unique
  · rintro ⟨rfl, rfl⟩
    exact hcourse

/-- An earlier walk was stopped with one node under way and one finished. The walk looks at all edges
of the two nodes that it enters, one of which has an edge to itself. -/
theorem worked_walk_stale :
    let g : Graph String Unit := ⟨#[⟨"app", none, .discovered 0, [3, 1], none⟩,
      ⟨"lib", none, .undiscovered, [0, 2, 3], some 0⟩, ⟨"core", none, .undiscovered, [1, 2], none⟩,
      ⟨"base", none, .finished 1 2, [], some 0⟩], ∅, true, 3⟩
    let o : Observer String Unit Unit Unit := .silent
    g.Closed ∧ 1 < g.size ∧ o.Patient ∧ ∃ rounds,
      g.Course o () 1 rounds (g.walk o () (.node 1)) ∧
      g.Worked (g.events o () (.node 1)) rounds ∧ rounds.length = 7 ∧
      Round.targets rounds 1 = [some 0, some 2, some 3, none] ∧
      Round.targets rounds 2 = [some 1, some 2, none] := by
  intro g o
  have hg : g.Closed := by decide
  have hstart : 1 < g.size := by decide
  have ho : o.Patient := Observer.patient_silent
  have hentries : entries (g.events o () (.node 1)) = [1, 2] := by cbv
  obtain ⟨rounds, hcourse, -, hworked⟩ := worked_walk g o () 1
  obtain ⟨-, hwork⟩ := hworked hg hstart ho
  refine ⟨hg, hstart, ho, rounds, (hcourse _ _).mpr ⟨rfl, rfl⟩, hwork, ?_, ?_, ?_⟩
  · rw [hwork.length_eq, hentries]
    rfl
  · exact hwork.targets_eq 1 (by simp [hentries])
  · exact hwork.targets_eq 2 (by simp [hentries])

end Graph

end Precedence
