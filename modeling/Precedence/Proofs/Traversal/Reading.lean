import Precedence.Proofs.Traversal.Move
import Precedence.Traversal.Call
import Precedence.Traversal.Script

/-!
# Walks read off their scripts

Every walk is its script, read to the observer (`Graph.walk_eq_perform`): the observer has no part
in what lies ahead, only in how much of it is told. `Walk.Ahead` has one rule for each way in which
a script goes on, and proofs about scripts split into these rules.
-/

namespace Precedence

variable {ι α σ τ ε δ : Type} [BEq ι] [Hashable ι]

/-! ### The rules of a script -/

namespace Walk

/-- What lies ahead of a walk, by the next step it takes. -/
inductive Ahead : Graph ι α → List Frame → Script ι α → Prop where
  /-- The path is empty. -/
  | ended {g : Graph ι α} : Ahead g [] (.ended g none)
  /-- The path is at an index past the end of the arena. -/
  | lost {g : Graph ι α} {i : NodeIndex} {pending : List NodeIndex} {path : List Frame}
      (hi : g.nodes[i]? = none) : Ahead g (⟨i, pending⟩ :: path) (.ended g (some ⟨g.size, i⟩))
  /-- The next edge leads past the end of the arena. -/
  | dangling {g : Graph ι α} {i j : NodeIndex} {pending : List NodeIndex} {path : List Frame}
      {source : Node ι α} (hi : g.nodes[i]? = some source) (hj : g.nodes[j]? = none) :
      Ahead g (⟨i, j :: pending⟩ :: path) (.ended g (some ⟨g.size, j⟩))
  /-- No edge is left: the innermost node is left. -/
  | leave {g : Graph ι α} {i : NodeIndex} {path : List Frame} {n : Node ι α}
      {rest : Script ι α} (hi : g.nodes[i]? = some n)
      (h : Ahead (g.stamp i (n.leave g.clock)) path rest) :
      Ahead g (⟨i, []⟩ :: path)
        (.told (.leave i (n.leave g.clock)) (g.stamp i (n.leave g.clock)) rest)
  /-- The next edge is passed over. -/
  | pass {g : Graph ι α} {i j : NodeIndex} {pending : List NodeIndex} {path : List Frame}
      {source target : Node ι α} {rest : Script ι α} (hi : g.nodes[i]? = some source)
      (hj : g.nodes[j]? = some target)
      (hk : EdgeKind.between g.directed source j target = none)
      (h : Ahead g (⟨i, pending⟩ :: path) rest) : Ahead g (⟨i, j :: pending⟩ :: path) rest
  /-- The next edge leads to a node that has been entered before. -/
  | report {g : Graph ι α} {i j : NodeIndex} {pending : List NodeIndex} {path : List Frame}
      {source target : Node ι α} {kind : EdgeKind} {rest : Script ι α}
      (hi : g.nodes[i]? = some source) (hj : g.nodes[j]? = some target)
      (hk : EdgeKind.between g.directed source j target = some kind) (ht : kind ≠ .tree)
      (h : Ahead g (⟨i, pending⟩ :: path) rest) :
      Ahead g (⟨i, j :: pending⟩ :: path) (.told (.edge source target kind) g rest)
  /-- The next edge leads to a new node, which is entered. -/
  | descend {g : Graph ι α} {i j : NodeIndex} {pending : List NodeIndex} {path : List Frame}
      {source target : Node ι α} {rest : Script ι α} (hi : g.nodes[i]? = some source)
      (hj : g.nodes[j]? = some target) (hv : target.visit = .undiscovered)
      (h : Ahead (g.stamp j ({ target with parent := some i }.enter g.clock))
        (⟨j, target.neighbors⟩ :: ⟨i, pending⟩ :: path) rest) :
      Ahead g (⟨i, j :: pending⟩ :: path)
        (.told (.edge source { target with parent := some i } .tree)
          (g.put j { target with parent := some i })
          (.told (.enter j ({ target with parent := some i }.enter g.clock))
            (g.stamp j ({ target with parent := some i }.enter g.clock)) rest))

private theorem ahead_script (g : Graph ι α) (path : List Frame) :
    Ahead g path (script g path) := by
  fun_induction script g path with
  | case1 g => exact .ended
  | case2 g i path hi => exact .lost hi
  | case3 g i path n hi left ih => exact .leave hi ih
  | case4 g i j pending path hi => exact .lost hi
  | case5 g i j pending path source hj hi => exact .dangling hi hj
  | case6 g i j pending path source target hj hi hk ih => exact .pass hi hj hk ih
  | case7 g i j pending path source target hj hi hk child entered ih =>
    exact .descend hi hj ((EdgeKind.between_eq_tree_iff ..).mp hk) ih
  | case8 g i j pending path source target hj hi kind ht hk ih => exact .report hi hj hk ht ih

private theorem Ahead.run_eq {g : Graph ι α} {path : List Frame} {script : Script ι α}
    (h : Ahead g path script) (o : Observer ι α σ ε) (s : σ) :
    run o ⟨g, s, path⟩ = script.perform o s := by
  induction h generalizing s with
  | ended => exact run_of_halted (step_eq_halted_iff.mpr .done)
  | lost hi => exact run_of_halted (step_eq_halted_iff.mpr (.lost hi))
  | dangling hi hj => exact run_of_halted (step_eq_halted_iff.mpr (.dangling hi hj))
  | @leave g i path n rest hi _ ih =>
    cases hn : o.notice (.leave i (n.leave g.clock)) s with
    | mk s' reason =>
      cases reason with
      | none =>
        rw [run_of_running (step_eq_running_iff.mpr (.leave hi hn)), ih]
        simp only [Script.perform, hn]
      | some reason =>
        rw [run_of_halted (step_eq_halted_iff.mpr (.leave hi hn))]
        simp only [Script.perform, hn]
  | pass hi hj hk _ ih => rw [run_of_running (step_eq_running_iff.mpr (.pass hi hj hk)), ih]
  | @report g i j pending path source target kind rest hi hj hk ht _ ih =>
    cases hn : o.notice (.edge source target kind) s with
    | mk s' reason =>
      cases reason with
      | none =>
        rw [run_of_running (step_eq_running_iff.mpr (.report hi hj hk ht hn)), ih]
        simp only [Script.perform, hn]
      | some reason =>
        rw [run_of_halted (step_eq_halted_iff.mpr (.report hi hj hk ht hn))]
        simp only [Script.perform, hn]
  | @descend g i j pending path source target rest hi hj hv _ ih =>
    cases he : o.notice (.edge source { target with parent := some i } .tree) s with
    | mk s' reason =>
      cases reason with
      | none =>
        cases hn : o.notice (.enter j ({ target with parent := some i }.enter g.clock)) s' with
        | mk s'' reason =>
          cases reason with
          | none =>
            rw [run_of_running (step_eq_running_iff.mpr (.descend hi hj hv he hn)), ih]
            simp only [Script.perform, he, hn]
          | some reason =>
            rw [run_of_halted (step_eq_halted_iff.mpr (.enter hi hj hv he hn))]
            simp only [Script.perform, he, hn]
      | some reason =>
        rw [run_of_halted (step_eq_halted_iff.mpr (.reach hi hj hv he))]
        simp only [Script.perform, he]

end Walk

/-! ### Calls are scripts -/

namespace Graph

/-- What lies ahead of a walk from a start. -/
inductive Begins (g : Graph ι α) (start : NodeIndex) : Script ι α → Prop where
  /-- The start is past the end of the arena. -/
  | lost (hi : g.nodes[start]? = none) : Begins g start (.ended g (some ⟨g.size, start⟩))
  /-- The start has been entered before. -/
  | known {n : Node ι α} (hi : g.nodes[start]? = some n) (hv : n.visit ≠ .undiscovered) :
      Begins g start (.ended g none)
  /-- The start is new and is entered. -/
  | new {n : Node ι α} {rest : Script ι α} (hi : g.nodes[start]? = some n)
      (hv : n.visit = .undiscovered)
      (h : Walk.Ahead (g.stamp start (n.enter g.clock)) [⟨start, n.neighbors⟩] rest) :
      Begins g start
        (.begun start g.directed
          (.told (.enter start (n.enter g.clock)) (g.stamp start (n.enter g.clock)) rest))

/-- A script from a start begins by the rules. -/
theorem begins_scriptFrom (g : Graph ι α) (start : NodeIndex) :
    g.Begins start (g.scriptFrom start) := by
  unfold scriptFrom
  split
  · next hi => exact .lost hi
  · next n hi =>
    split
    · next hd => exact .known hi (n.isDiscovered_eq_true_iff.mp hd)
    · next hd =>
      rw [Bool.not_eq_true] at hd
      exact .new hi (n.isDiscovered_eq_false_iff.mp hd) (Walk.ahead_script _ _)

/-- A walk from a start is what lies ahead of it, read to the observer. -/
theorem Begins.walkFrom_eq {g : Graph ι α} {start : NodeIndex} {script : Script ι α}
    (h : g.Begins start script) (o : Observer ι α σ ε) (s : σ) :
    g.walkFrom o s start = script.perform o s := by
  cases h with
  | lost hi => exact walkFrom_eq_of_starts (.lost hi)
  | known hi hv => exact walkFrom_eq_of_starts (.known hi hv)
  | @new n rest hi hv h =>
    cases hn : o.notice (.enter start (n.enter g.clock)) (o.start start g.directed s) with
    | mk s' reason =>
      cases reason with
      | none =>
        rw [walkFrom_eq_of_starts (.enter hi hv hn)]
        simp only [Script.perform, hn]
        exact h.run_eq o s'
      | some reason =>
        rw [walkFrom_eq_of_starts (.refused hi hv hn)]
        simp only [Script.perform, hn]
        rfl

/-- A walk from a start is its script, read to the observer. -/
theorem walkFrom_eq_perform (g : Graph ι α) (o : Observer ι α σ ε) (s : σ) (start : NodeIndex) :
    g.walkFrom o s start = (g.scriptFrom start).perform o s :=
  (g.begins_scriptFrom start).walkFrom_eq o s

end Graph

namespace Script

private theorem perform_andThen (script : Script ι α) (next : Graph ι α → Script ι α)
    (o : Observer ι α σ ε) (s : σ) :
    (script.andThen next).perform o s =
      match script.perform o s with
      | ⟨g, s, .ok ()⟩ => (next g).perform o s
      | ⟨g, s, .error e⟩ => ⟨g, s, .error e⟩ := by
  induction script generalizing s with
  | ended g fault => cases fault <;> rfl
  | begun start directed rest ih => exact ih _
  | told event g rest ih =>
    cases hn : o.notice event s with
    | mk s' reason => cases reason <;> simp only [andThen, perform, hn, ih]

private theorem perform_answered (script : Script ι α) (o : Observer ι α σ ε) (s : σ)
    (calls : List (Event ι α × Option ε)) :
    script.perform o.answered (s, calls) =
      ⟨(script.perform o s).graph, ((script.perform o s).observed, calls ++ script.calls o s),
        (script.perform o s).result⟩ := by
  induction script generalizing s calls with
  | ended g fault => simp [perform, Script.calls]
  | begun start directed rest ih => exact ih _ calls
  | told event g rest ih =>
    cases hn : o.notice event s with
    | mk s' reason =>
      cases reason with
      | none =>
        have hrest := ih s' (calls ++ [(event, none)])
        rw [List.append_assoc, List.singleton_append] at hrest
        simpa only [perform, Script.calls, Observer.answered, hn] using hrest
      | some reason => simp [perform, Script.calls, Observer.answered, hn]

private theorem perform_traced (script : Script ι α) (o : Observer ι α σ ε) (s : σ)
    (events : List (Event ι α)) :
    script.perform o.traced (s, events) =
      ⟨(script.perform o s).graph,
        ((script.perform o s).observed, events ++ (script.calls o s).map Prod.fst),
        (script.perform o s).result⟩ := by
  induction script generalizing s events with
  | ended g fault => simp [perform, Script.calls]
  | begun start directed rest ih => exact ih _ events
  | told event g rest ih =>
    cases hn : o.notice event s with
    | mk s' reason =>
      cases reason with
      | none =>
        have hrest := ih s' (events ++ [event])
        rw [List.append_assoc, List.singleton_append] at hrest
        simpa only [perform, Script.calls, Observer.traced, hn, List.map_cons] using hrest
      | some reason => simp [perform, Script.calls, Observer.traced, hn]

end Script

/-! ### How far a script is read -/

namespace Script

/-- A patient observer is told the whole script. -/
theorem map_fst_calls_of_patient {o : Observer ι α σ ε} (ho : o.Patient) (script : Script ι α)
    (s : σ) : (script.calls o s).map Prod.fst = script.events := by
  induction script generalizing s with
  | ended g fault => rfl
  | begun start directed rest ih => exact ih _
  | told event g rest ih =>
    cases hn : o.notice event s with
    | mk s' reason =>
      have hreason : reason = none := by simpa [hn] using ho event s
      subst hreason
      simp only [Script.calls, hn, events, List.map_cons, ih]

/-- A patient observer has no reason to stop at any event. -/
theorem snd_calls_of_patient {o : Observer ι α σ ε} (ho : o.Patient) (script : Script ι α)
    (s : σ) : ∀ call ∈ script.calls o s, call.2 = none := by
  induction script generalizing s with
  | ended g fault => simp [Script.calls]
  | begun start directed rest ih => exact ih _
  | told event g rest ih =>
    cases hn : o.notice event s with
    | mk s' reason =>
      have hreason : reason = none := by simpa [hn] using ho event s
      subst hreason
      simpa [Script.calls, hn] using ih s'

/-- Every observer is told the script from its beginning. -/
theorem map_fst_calls_isPrefix (script : Script ι α) (o : Observer ι α σ ε) (s : σ) :
    (script.calls o s).map Prod.fst <+: script.events := by
  induction script generalizing s with
  | ended g fault => exact List.nil_prefix
  | begun start directed rest ih => exact ih _
  | told event g rest ih =>
    cases hn : o.notice event s with
    | mk s' reason =>
      cases reason with
      | none => simpa [Script.calls, hn, events, List.cons_prefix_cons] using ih s'
      | some reason => simp [Script.calls, hn, events, List.cons_prefix_cons]

/-- At every event of a script, `P` holds of the events before it, of the event itself and of the
graph that whoever stops there leaves; and `Q` holds of all events, of the graph at the end and of
the fault there. -/
def Ensures (P : List (Event ι α) → Event ι α → Graph ι α → Prop)
    (Q : List (Event ι α) → Graph ι α → Option OutOfRange → Prop) (es : List (Event ι α)) :
    Script ι α → Prop
  | ended g fault => Q es g fault
  | begun _ _ rest => rest.Ensures P Q es
  | told event g rest => P es event g ∧ rest.Ensures P Q (es ++ [event])

/-- How a script has been read: through to its end or to its fault, or up to an event at which the
observer gave a reason to stop. -/
inductive Reading (P : List (Event ι α) → Event ι α → Graph ι α → Prop)
    (Q : List (Event ι α) → Graph ι α → Option OutOfRange → Prop) (es : List (Event ι α)) :
    List (Event ι α × Option ε) → Outcome ι α σ ε → Prop where
  | through {calls : List (Event ι α × Option ε)} {g : Graph ι α} {s : σ}
      (hcalls : ∀ call ∈ calls, call.2 = none) (h : Q (es ++ calls.map Prod.fst) g none) :
      Reading P Q es calls ⟨g, s, .ok ()⟩
  | faulted {calls : List (Event ι α × Option ε)} {g : Graph ι α} {s : σ} {fault : OutOfRange}
      (hcalls : ∀ call ∈ calls, call.2 = none)
      (h : Q (es ++ calls.map Prod.fst) g (some fault)) :
      Reading P Q es calls ⟨g, s, .error (.outOfRange fault)⟩
  | stopped {before : List (Event ι α × Option ε)} {event : Event ι α} {reason : ε}
      {g : Graph ι α} {s : σ} (hbefore : ∀ call ∈ before, call.2 = none)
      (h : P (es ++ before.map Prod.fst) event g) :
      Reading P Q es (before ++ [(event, some reason)]) ⟨g, s, .error (.stopped reason)⟩

variable {P : List (Event ι α) → Event ι α → Graph ι α → Prop}
  {Q : List (Event ι α) → Graph ι α → Option OutOfRange → Prop} {es : List (Event ι α)}

/-- A reading may begin with events that stopped nobody. -/
theorem Reading.after {before calls : List (Event ι α × Option ε)} {r : Outcome ι α σ ε}
    (hbefore : ∀ call ∈ before, call.2 = none)
    (h : Reading P Q (es ++ before.map Prod.fst) calls r) :
    Reading P Q es (before ++ calls) r := by
  cases h with
  | through hcalls h =>
    rw [List.append_assoc, ← List.map_append] at h
    exact .through (List.forall_mem_append.mpr ⟨hbefore, hcalls⟩) h
  | faulted hcalls h =>
    rw [List.append_assoc, ← List.map_append] at h
    exact .faulted (List.forall_mem_append.mpr ⟨hbefore, hcalls⟩) h
  | stopped hinit h =>
    rw [List.append_assoc, ← List.map_append] at h
    rw [← List.append_assoc]
    exact .stopped (List.forall_mem_append.mpr ⟨hbefore, hinit⟩) h

theorem Reading.mono {P' : List (Event ι α) → Event ι α → Graph ι α → Prop}
    {calls : List (Event ι α × Option ε)} {r : Outcome ι α σ ε}
    (hP : ∀ es event g, P es event g → P' es event g) (h : Reading P Q es calls r) :
    Reading P' Q es calls r := by
  cases h with
  | through hcalls h => exact .through hcalls h
  | faulted hcalls h => exact .faulted hcalls h
  | stopped hbefore h => exact .stopped hbefore (hP _ _ _ h)

section
variable {calls : List (Event ι α × Option ε)} {r : Outcome ι α σ ε} (h : Reading P Q es calls r)
include h

/-- A reading ends with a reason exactly when an event was answered with it. -/
theorem Reading.stopped_iff (reason : ε) :
    r.result = .error (.stopped reason) ↔ ∃ event, (event, some reason) ∈ calls := by
  cases h with
  | through hcalls h =>
    constructor
    · intro hr
      cases hr
    · rintro ⟨event, hevent⟩
      cases hcalls _ hevent
  | faulted hcalls h =>
    constructor
    · intro hr
      cases hr
    · rintro ⟨event, hevent⟩
      cases hcalls _ hevent
  | @stopped before event reason' g s hbefore h =>
    constructor
    · intro hr
      cases hr
      exact ⟨event, by simp⟩
    · rintro ⟨event', hevent⟩
      rcases List.mem_append.mp hevent with hevent | hevent
      · cases hbefore _ hevent
      · rw [List.mem_singleton] at hevent
        cases hevent
        rfl

/-- Where a script cannot end with a fault, no reading does. -/
theorem Reading.not_outOfRange (hQ : ∀ es g fault, Q es g fault → fault = none)
    (fault : OutOfRange) : r.result ≠ .error (.outOfRange fault) := by
  cases h with
  | through hcalls h => simp
  | faulted hcalls h => cases hQ _ _ _ h
  | stopped hbefore h => simp

/-- Nothing is told after an event that was answered with a reason. -/
theorem Reading.eq_nil_of_stopped {before after : List (Event ι α × Option ε)} {event : Event ι α}
    {reason : ε} (hcalls : calls = before ++ (event, some reason) :: after) : after = [] := by
  cases h with
  | through hnone h => cases hnone (event, some reason) (by simp [hcalls])
  | faulted hnone h => cases hnone (event, some reason) (by simp [hcalls])
  | @stopped init event' reason' g s hinit h =>
    rcases List.eq_nil_or_concat after with rfl | ⟨rest, last, rfl⟩
    · rfl
    · rw [List.concat_eq_append, ← List.cons_append, ← List.append_assoc] at hcalls
      have hmem : (event, some reason) ∈ init := by
        rw [(List.append_inj' hcalls rfl).1]
        simp
      cases hinit _ hmem

end

/-- What a script ensures holds wherever its reading ends. -/
theorem Ensures.reading {script : Script ι α} (h : script.Ensures P Q es)
    (o : Observer ι α σ ε) (s : σ) :
    Reading P Q es (script.calls o s) (script.perform o s) := by
  induction script generalizing es s with
  | ended g fault =>
    have hQ : Q (es ++ ([] : List (Event ι α × Option ε)).map Prod.fst) g fault := by
      simpa [Ensures] using h
    cases fault with
    | none => exact .through (by simp [Script.calls]) hQ
    | some fault => exact .faulted (by simp [Script.calls]) hQ
  | begun start directed rest ih => exact ih h _
  | told event g rest ih =>
    obtain ⟨hP, hrest⟩ := h
    cases hn : o.notice event s with
    | mk s' reason =>
      cases reason with
      | none =>
        have hread : Reading P Q es ([(event, none)] ++ rest.calls o s') (rest.perform o s') :=
          .after (by simp) (ih hrest s')
        simpa only [Script.calls, perform, hn, List.singleton_append] using hread
      | some reason =>
        have hread : Reading P Q es ([] ++ [(event, some reason)])
            ⟨g, s', .error (.stopped reason)⟩ := .stopped (by simp) (by simpa using hP)
        simpa only [Script.calls, perform, hn, List.nil_append] using hread

private theorem Ensures.of_events {script : Script ι α} (h : script.Ensures P Q es)
    {before after : List (Event ι α)} {event : Event ι α}
    (hevents : script.events = before ++ event :: after) : ∃ g, P (es ++ before) event g := by
  induction script generalizing es before with
  | ended g fault => simp [events] at hevents
  | begun start directed rest ih => exact ih h hevents
  | told event' g rest ih =>
    cases before with
    | nil =>
      cases hevents
      exact ⟨g, by simpa using h.1⟩
    | cons first before =>
      obtain ⟨rfl, hrest⟩ := List.cons.inj hevents
      obtain ⟨g', hg'⟩ := ih h.2 hrest
      exact ⟨g', by simpa using hg'⟩

/-- A script may go on at its end, where its end ensures what is needed there. -/
theorem Ensures.andThen {R : List (Event ι α) → Graph ι α → Option OutOfRange → Prop}
    {script : Script ι α} {next : Graph ι α → Script ι α} (h : script.Ensures P R es)
    (hfault : ∀ es g fault, R es g (some fault) → Q es g (some fault))
    (hnext : ∀ es g, R es g none → (next g).Ensures P Q es) :
    (script.andThen next).Ensures P Q es := by
  induction script generalizing es with
  | ended g fault =>
    cases fault with
    | none => exact hnext es g h
    | some fault => exact hfault es g fault h
  | begun start directed rest ih => exact ih h
  | told event g rest ih => exact ⟨h.1, ih h.2⟩

/-- Between its events a script does not change the graph, from `g` on. -/
def Continues (g : Graph ι α) : Script ι α → Prop
  | ended g' _ => g' = g
  | begun _ _ rest => rest.Continues g
  | told _ g' rest => rest.Continues g'

/-- The graph after as many events of a script, from `g` on. -/
def graphAfter (g : Graph ι α) : Nat → Script ι α → Graph ι α
  | _, ended g' _ => g'
  | k, begun _ _ rest => rest.graphAfter g k
  | 0, told _ _ _ => g
  | k + 1, told _ g' rest => rest.graphAfter g' k

private theorem Continues.graphAfter_zero {g : Graph ι α} {script : Script ι α}
    (h : script.Continues g) : script.graphAfter g 0 = g := by
  induction script with
  | ended g' fault => exact h
  | begun start directed rest ih => exact ih h
  | told event g' rest => rfl

/-- How many events an observer is told settles which graph is left behind. -/
theorem Continues.graph_perform {g : Graph ι α} {script : Script ι α} (h : script.Continues g)
    (o : Observer ι α σ ε) (s : σ) :
    (script.perform o s).graph = script.graphAfter g (script.calls o s).length := by
  induction script generalizing g s with
  | ended g' fault => rfl
  | begun start directed rest ih => exact ih h _
  | told event g' rest ih =>
    cases hn : o.notice event s with
    | mk s' reason =>
      cases reason with
      | none => simp only [perform, Script.calls, hn, List.length_cons, graphAfter, ih h]
      | some reason =>
        have hrest : rest.Continues g' := h
        simp only [perform, Script.calls, hn, List.length_singleton, graphAfter,
          hrest.graphAfter_zero]

/-- A script that goes on at its end does not change the graph in between either. -/
theorem Continues.andThen {g : Graph ι α} {script : Script ι α} {next : Graph ι α → Script ι α}
    (h : script.Continues g) (hnext : ∀ g, (next g).Continues g) :
    (script.andThen next).Continues g := by
  induction script generalizing g with
  | ended g' fault =>
    cases fault with
    | none =>
      have hg : g' = g := h
      subst hg
      exact hnext g'
    | some fault => exact h
  | begun start directed rest ih => exact ih h
  | told event g' rest ih => exact ih h

/-- When a script goes on at its end, what is told goes on, unless the reading ended before. -/
theorem calls_andThen (script : Script ι α) (next : Graph ι α → Script ι α)
    (o : Observer ι α σ ε) (s : σ) :
    (script.andThen next).calls o s = script.calls o s ++
      match script.perform o s with
      | ⟨g, s, .ok ()⟩ => (next g).calls o s
      | ⟨_, _, .error _⟩ => [] := by
  induction script generalizing s with
  | ended g fault => cases fault <;> rfl
  | begun start directed rest ih => exact ih _
  | told event g rest ih =>
    cases hn : o.notice event s with
    | mk s' reason =>
      cases reason <;> simp only [andThen, Script.calls, perform, hn, ih, List.cons_append,
        List.append_nil]

end Script

private theorem Walk.Ahead.continues {g : Graph ι α} {path : List Frame} {script : Script ι α}
    (h : Ahead g path script) : script.Continues g := by
  induction h with
  | ended => rfl
  | lost hi => rfl
  | dangling hi hj => rfl
  | leave hi _ ih => exact ih
  | pass hi hj hk _ ih => exact ih
  | report hi hj hk ht _ ih => exact ih
  | descend hi hj hv _ ih => exact ih

namespace Graph

private theorem continues_scriptFrom (g : Graph ι α) (start : NodeIndex) :
    (g.scriptFrom start).Continues g := by
  have hb := g.begins_scriptFrom start
  generalize g.scriptFrom start = script at hb
  cases hb with
  | lost hi => rfl
  | known hi hv => rfl
  | new hi hv h => exact h.continues

theorem continues_scriptEach (g : Graph ι α) (starts : List NodeIndex) :
    (g.scriptEach starts).Continues g := by
  induction starts generalizing g with
  | nil => rfl
  | cons start starts ih => exact (g.continues_scriptFrom start).andThen ih

/-- Walks from a list of starts are their script, read to the observer. -/
theorem walkEach_eq_perform (g : Graph ι α) (o : Observer ι α σ ε) (s : σ)
    (starts : List NodeIndex) : g.walkEach o s starts = (g.scriptEach starts).perform o s := by
  induction starts generalizing g s with
  | nil => rfl
  | cons start starts ih =>
    rw [walkEach, scriptEach, Script.perform_andThen, ← walkFrom_eq_perform]
    obtain ⟨g', s', result⟩ := g.walkFrom o s start
    cases result with
    | ok => exact ih g' s'
    | error e => rfl

/-- What lies ahead of a call. -/
def script (g : Graph ι α) (c : Call) : Script ι α := g.scriptEach (g.starts c)

/-- A call is its script, read to the observer. -/
theorem walk_eq_perform (g : Graph ι α) (o : Observer ι α σ ε) (s : σ) (c : Call) :
    g.walk o s c = (g.script c).perform o s := by
  rw [walk_eq_walkEach, walkEach_eq_perform, script]

/-- An observer is told the script of a call, as far as it is read. -/
theorem calls_eq (g : Graph ι α) (o : Observer ι α σ ε) (s : σ) (c : Call) :
    g.calls o s c = (g.script c).calls o s := by
  rw [calls, walk_eq_perform, Script.perform_answered, List.nil_append]

/-- An observer is told the script of a call, as far as it is read. -/
theorem events_eq (g : Graph ι α) (o : Observer ι α σ ε) (s : σ) (c : Call) :
    g.events o s c = ((g.script c).calls o s).map Prod.fst := by
  rw [events, walk_eq_perform, Script.perform_traced, List.nil_append]

/-- What the script of a call ensures holds at each event that an observer is told. -/
theorem exists_of_events {P : List (Event ι α) → Event ι α → Graph ι α → Prop}
    {Q : List (Event ι α) → Graph ι α → Option OutOfRange → Prop} {g : Graph ι α} {c : Call}
    (h : (g.script c).Ensures P Q []) {o : Observer ι α σ ε} {s : σ}
    {before after : List (Event ι α)} {event : Event ι α}
    (hevents : g.events o s c = before ++ event :: after) : ∃ g', P before event g' := by
  obtain ⟨rest, hrest⟩ := (g.script c).map_fst_calls_isPrefix o s
  rw [← events_eq, hevents, List.append_assoc, List.cons_append] at hrest
  exact h.of_events hrest.symm

private theorem walkEach_of_ensures {I : List (Event ι α) → Graph ι α → Prop}
    (hI : ∀ es g start, I es g → (g.scriptFrom start).Ensures (fun _ _ _ => True)
      (fun es g fault => fault = none → I es g) es)
    {es : List (Event ι α)} {g : Graph ι α} (h : I es g) (o : Observer ι α σ ε) (s : σ)
    (starts : List NodeIndex) (hok : (g.walkEach o s starts).result = .ok ()) :
    I (es ++ ((g.scriptEach starts).calls o s).map Prod.fst) (g.walkEach o s starts).graph := by
  induction starts generalizing es g s with
  | nil => simpa [scriptEach, Script.calls, walkEach] using h
  | cons start starts ih =>
    have hfirst := (hI es g start h).reading o s
    rw [scriptEach, Script.calls_andThen]
    rw [walkEach] at hok ⊢
    rw [← walkFrom_eq_perform] at hfirst ⊢
    generalize (g.scriptFrom start).calls o s = calls at hfirst ⊢
    generalize g.walkFrom o s start = r at hfirst hok ⊢
    cases hfirst with
    | through hcalls h =>
      rw [List.map_append, ← List.append_assoc]
      exact ih (h rfl) _ hok
    | faulted hcalls h => cases hok
    | stopped hbefore h => cases hok

/-- What each walk that goes through keeps, a call that goes through keeps. -/
theorem walk_of_ensures {I : List (Event ι α) → Graph ι α → Prop}
    (hI : ∀ es g start, I es g → (g.scriptFrom start).Ensures (fun _ _ _ => True)
      (fun es g fault => fault = none → I es g) es)
    {es : List (Event ι α)} {g : Graph ι α} (h : I es g) (o : Observer ι α σ ε) (s : σ) (c : Call)
    (hok : (g.walk o s c).result = .ok ()) : I (es ++ g.events o s c) (g.walk o s c).graph := by
  rw [events_eq, script]
  rw [walk_eq_walkEach] at hok ⊢
  exact walkEach_of_ensures hI h o s (g.starts c) hok

end Graph

end Precedence
