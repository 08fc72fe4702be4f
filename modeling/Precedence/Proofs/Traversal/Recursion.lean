import Precedence.Proofs.Traversal.Projection
import Precedence.Traversal.Search

/-!
# The stack and the recursion

A walk keeps its way back on a stack, a search in its open calls. Here they are shown to do the
same: what is left of a call (`Search.proceed`) is what the walk does with the frame of that call
until the frame is gone, whatever stands below it on the stack.
-/

namespace Precedence

open Relation (ReflTransGen)

variable {ι α σ ε : Type} [BEq ι] [Hashable ι]

namespace Search

/-! ### Running the programs -/

private theorem runOn_bind {β γ : Type} (m : Search ι α σ ε β) (f : β → Search ι α σ ε γ)
    (g : Graph ι α) (s : σ) :
    (m >>= f).runOn g s = (m.runOn g s).bind fun
      | (.ok b, g, s) => (f b).runOn g s
      | (.error e, g, s) => some (.error e, g, s) := by
  simp only [runOn, ExceptT.run_bind, StateT.run_bind]
  cases m.run.run (g, s) with
  | none => rfl
  | some r =>
    obtain ⟨r, g, s⟩ := r
    cases r <;> rfl

private theorem runOn_tick (g : Graph ι α) (s : σ) :
    (tick : Search ι α σ ε Nat).runOn g s =
      some (.ok g.clock, { g with clock := g.clock + 1 }, s) := rfl

private theorem runOn_store (i : NodeIndex) (n : Node ι α) (g : Graph ι α) (s : σ) :
    (store i n : Search ι α σ ε Unit).runOn g s = some (.ok (), g.put i n, s) := rfl

private theorem runOn_directed (g : Graph ι α) (s : σ) :
    (directed : Search ι α σ ε Bool).runOn g s = some (.ok g.directed, g, s) := rfl

private theorem runOn_node (g : Graph ι α) (i : NodeIndex) (s : σ) :
    (node i : Search ι α σ ε (Node ι α)).runOn g s =
      match g.nodes[i]? with
      | some n => some (.ok n, g, s)
      | none => some (.error (.outOfRange ⟨g.size, i⟩), g, s) := by
  change (match g.nodes[i]? with
    | some n => (pure n : Search ι α σ ε (Node ι α))
    | none => throw (Interruption.outOfRange ⟨g.size, i⟩)).runOn g s = _
  cases g.nodes[i]? <;> rfl

private theorem runOn_tell (o : Observer ι α σ ε) (event : Event ι α) (g : Graph ι α) (s : σ) :
    (tell o event).runOn g s =
      match o.notice event s with
      | (s', none) => some (.ok (), g, s')
      | (s', some reason) => some (.error (.stopped reason), g, s') := by
  have hget : (get : Search ι α σ ε (Graph ι α × σ)).runOn g s = some (.ok (g, s), g, s) := rfl
  have hset (t : σ) : (set (g, t) : Search ι α σ ε Unit).runOn g s = some (.ok (), g, t) := rfl
  cases hn : o.notice event s with
  | mk s' reason =>
    cases reason <;> simp only [tell, runOn_bind, hget, Option.bind_some, hn, hset] <;> rfl

/-! ### What is left of a call -/

/-- Look at the edge from one index to another. -/
def look (o : Observer ι α σ ε) (i j : NodeIndex) : Search ι α σ ε Unit := do
  let source ← node i
  let target ← node j
  match target.visit with
  | .undiscovered =>
    let child := { target with parent := some i }
    store j child
    tell o (.edge source child .tree)
    o.visit j
  | .discovered _ =>
    unless !(← directed) && source.parent == some j do
      tell o (.edge source target .back)
  | .finished .. =>
    if ← directed then
      if Option.lt (· < ·) source.entryTime? target.entryTime? then
        tell o (.edge source target .forward)
      else
        tell o (.edge source target .cross)

/-- Look at the edges that are left, and leave the node. -/
def proceed (o : Observer ι α σ ε) (i : NodeIndex) : List NodeIndex → Search ι α σ ε Unit
  | [] => do
    let left := (← node i).leave (← tick)
    store i left
    tell o (.leave i left)
  | j :: pending => do
    look o i j
    proceed o i pending

private theorem visit_eq (o : Observer ι α σ ε) (i : NodeIndex) :
    o.visit i = (do
      let entered := (← node i).enter (← tick)
      store i entered
      tell o (.enter i entered)
      proceed o i entered.neighbors) := by
  rw [Observer.visit]
  refine bind_congr fun n => bind_congr fun t => bind_congr fun _ => bind_congr fun _ => ?_
  dsimp only
  induction (n.enter t).neighbors with
  | nil => simp [proceed]
  | cons j pending ih =>
    rw [List.forIn_cons, proceed, ← ih]
    simp only [look, bind_assoc]
    refine bind_congr fun source => bind_congr fun target => ?_
    cases target.visit with
    | undiscovered => simp
    | discovered entry =>
      simp only [bind_assoc]
      refine bind_congr fun d => ?_
      split <;> simp
    | finished entry exit =>
      simp only [bind_assoc]
      refine bind_congr fun d => ?_
      split
      · split <;> simp
      · simp

private theorem runOn_look (o : Observer ι α σ ε) {g : Graph ι α} {i j : NodeIndex}
    {source target : Node ι α} (hi : g.nodes[i]? = some source) (hj : g.nodes[j]? = some target)
    (s : σ) :
    (look o i j).runOn g s =
      match EdgeKind.between g.directed source j target with
      | none => some (.ok (), g, s)
      | some .tree =>
        match o.notice (.edge source { target with parent := some i } .tree) s with
        | (s', none) => (o.visit j).runOn (g.put j { target with parent := some i }) s'
        | (s', some reason) =>
          some (.error (.stopped reason), g.put j { target with parent := some i }, s')
      | some kind => (tell o (.edge source target kind)).runOn g s := by
  simp only [look, runOn_bind, runOn_node, hi, hj, Option.bind_some]
  cases hv : target.visit with
  | undiscovered =>
    simp only [EdgeKind.between, hv, runOn_bind, runOn_store, runOn_tell, Option.bind_some]
    rw [← hv]
    obtain ⟨s', reason⟩ := o.notice (.edge source { target with parent := some i } .tree) s
    cases reason <;> rfl
  | discovered entry =>
    simp only [EdgeKind.between, hv, runOn_bind, runOn_directed, Option.bind_some]
    split <;> rfl
  | finished entry exit =>
    simp only [EdgeKind.between, hv, runOn_bind, runOn_directed, Option.bind_some]
    cases g.directed with
    | false => rfl
    | true =>
      have ht : target.entryTime? = some entry := by simp [Node.entryTime?, hv, Visit.entryTime?]
      cases hs : source.entryTime? with
      | none => simp [ht, Option.lt]
      | some time => by_cases hlt : time < entry <;> simp [ht, hlt, Option.lt]

private theorem runOn_visit (o : Observer ι α σ ε) {g : Graph ι α} {i : NodeIndex} {n : Node ι α}
    (hi : g.nodes[i]? = some n) (s : σ) :
    (o.visit i).runOn g s =
      match o.notice (.enter i (n.enter g.clock)) s with
      | (s', none) => (proceed o i n.neighbors).runOn (g.stamp i (n.enter g.clock)) s'
      | (s', some reason) =>
        some (.error (.stopped reason), g.stamp i (n.enter g.clock), s') := by
  rw [visit_eq]
  simp only [runOn_bind, runOn_node, hi, runOn_tick, runOn_store, runOn_tell, Option.bind_some]
  obtain ⟨s', reason⟩ := o.notice (.enter i (n.enter g.clock)) s
  cases reason <;> rfl

private theorem runOn_proceed_nil (o : Observer ι α σ ε) {g : Graph ι α} {i : NodeIndex}
    {n : Node ι α}
    (hi : g.nodes[i]? = some n) (s : σ) :
    (proceed o i []).runOn g s =
      (tell o (.leave i (n.leave g.clock))).runOn (g.stamp i (n.leave g.clock)) s := by
  simp only [proceed, runOn_bind, runOn_node, hi, runOn_tick, runOn_store, Option.bind_some]
  rfl

/-! ### The frame of a call -/

/-- The walk gets from `w` to the graph, state and path given, or halts there with the
interruption that is the result. -/
def Ends (o : Observer ι α σ ε) (w : Walk ι α σ) (r : Except (Interruption ε) Unit)
    (g : Graph ι α) (s : σ) (path : List Frame) : Prop :=
  match r with
  | .ok () => ReflTransGen (Walk.Moves o) w ⟨g, s, path⟩
  | .error e => ∃ w', ReflTransGen (Walk.Moves o) w w' ∧ Walk.Halts o w' ⟨g, s, .error e⟩

private theorem Ends.after_moves {o : Observer ι α σ ε} {w w' : Walk ι α σ}
    {r : Except (Interruption ε) Unit} {g : Graph ι α} {s : σ} {path : List Frame}
    (hm : ReflTransGen (Walk.Moves o) w w') (he : Ends o w' r g s path) :
    Ends o w r g s path := by
  cases r with
  | ok => exact hm.trans he
  | error e =>
    obtain ⟨v, hv, hh⟩ := he
    exact ⟨v, hm.trans hv, hh⟩

/-- A program comes to an end, and does what the walk does while the frames `before` on top of its
path become the frames `after`. -/
def Mimics (o : Observer ι α σ ε) (m : Search ι α σ ε Unit) (g : Graph ι α) (s : σ)
    (before after : List Frame) : Prop :=
  ∃ r g' s', m.runOn g s = some (r, g', s') ∧
    ∀ path, Ends o ⟨g, s, before ++ path⟩ r g' s' (after ++ path)

private theorem Mimics.of_halts {o : Observer ι α σ ε} {m : Search ι α σ ε Unit} {g g' : Graph ι α}
    {s s' : σ} {e : Interruption ε} {before after : List Frame}
    (hm : m.runOn g s = some (.error e, g', s'))
    (hh : ∀ path, Walk.Halts o ⟨g, s, before ++ path⟩ ⟨g', s', .error e⟩) :
    Mimics o m g s before after :=
  ⟨_, _, _, hm, fun path => ⟨_, .refl, hh path⟩⟩

private theorem Mimics.of_moves {o : Observer ι α σ ε} {m : Search ι α σ ε Unit} {g g' : Graph ι α}
    {s s' : σ} {before after : List Frame} (hm : m.runOn g s = some (.ok (), g', s'))
    (hh : ∀ path, Walk.Moves o ⟨g, s, before ++ path⟩ ⟨g', s', after ++ path⟩) :
    Mimics o m g s before after :=
  ⟨_, _, _, hm, fun path => .single (hh path)⟩

private theorem proceed_nil_mimics (o : Observer ι α σ ε) (i : NodeIndex) (g : Graph ι α)
    (s : σ) : Mimics o (proceed o i []) g s [⟨i, []⟩] [] := by
  cases hi : g.nodes[i]? with
  | none =>
    refine Mimics.of_halts ?_ fun path => .lost hi
    simp only [proceed, runOn_bind, runOn_node, hi, Option.bind_some]
  | some n =>
    cases hn : o.notice (.leave i (n.leave g.clock)) s with
    | mk s' reason =>
      cases reason with
      | none =>
        refine Mimics.of_moves ?_ fun path => .leave hi hn
        rw [runOn_proceed_nil o hi, runOn_tell, hn]
      | some reason =>
        refine Mimics.of_halts ?_ fun path => .leave hi hn
        rw [runOn_proceed_nil o hi, runOn_tell, hn]

section
variable {o : Observer ι α σ ε} {g : Graph ι α}
  (ih : ∀ (i : NodeIndex) (pending : List NodeIndex) (g' : Graph ι α) (s : σ),
    g'.toll + pending.length < g.toll → Mimics o (proceed o i pending) g' s [⟨i, pending⟩] [])
include ih

-- A new target is stamped first, so the call for it is on a graph of smaller toll.
private theorem look_new_mimics {i j : NodeIndex} {source target : Node ι α}
    (hi : g.nodes[i]? = some source) (hj : g.nodes[j]? = some target)
    (hv : target.visit = .undiscovered) (s : σ) (pending : List NodeIndex) :
    Mimics o (look o i j) g s [⟨i, j :: pending⟩] [⟨i, pending⟩] := by
  have hk := (EdgeKind.between_eq_tree_iff g.directed source j target).mpr hv
  cases he : o.notice (.edge source { target with parent := some i } .tree) s with
  | mk s' reason =>
    cases reason with
    | some reason =>
      refine Mimics.of_halts ?_ fun path => .reach hi hj hv he
      simp only [runOn_look o hi hj, hk, he]
    | none =>
      have hlt : j < g.nodes.size := (Array.getElem?_eq_some_iff.mp hj).1
      have hc : (g.put j { target with parent := some i }).nodes[j]? =
          some { target with parent := some i } := by
        simp [Graph.put, hlt]
      have hp (n : Node ι α) :
          (g.put j { target with parent := some i }).stamp j n = g.stamp j n := by
        simp [Graph.put, Graph.stamp, Array.setIfInBounds_setIfInBounds]
      have hrun := runOn_visit o hc s'
      simp only [hp] at hrun
      cases hn : o.notice (.enter j ({ target with parent := some i }.enter g.clock)) s' with
      | mk s'' reason =>
        have hn' : o.notice (.enter j ({ target with parent := some i }.enter
            (g.put j { target with parent := some i }).clock)) s' = (s'', reason) := hn
        rw [hn'] at hrun
        have hlook : (look o i j).runOn g s =
            (o.visit j).runOn (g.put j { target with parent := some i }) s' := by
          simp only [runOn_look o hi hj, hk, he]
        cases reason with
        | some reason =>
          refine Mimics.of_halts ?_ fun path => .enter hi hj hv he hn
          rw [hlook, hrun]
          rfl
        | none =>
          have htoll := g.toll_stamp j target ({ target with parent := some i }.enter g.clock) hj
          rw [Node.toll_of_undiscovered hv, Node.toll_enter] at htoll
          obtain ⟨r, g', s₃, hr, hw⟩ := ih j target.neighbors
            (g.stamp j ({ target with parent := some i }.enter g.clock)) s'' (by omega)
          refine ⟨r, g', s₃, ?_, fun path => ?_⟩
          · rw [hlook, hrun]
            exact hr
          · exact .after_moves (.single (.descend hi hj hv he hn)) (hw (⟨i, pending⟩ :: path))

private theorem look_mimics (i j : NodeIndex) (s : σ) (pending : List NodeIndex) :
    Mimics o (look o i j) g s [⟨i, j :: pending⟩] [⟨i, pending⟩] := by
  cases hi : g.nodes[i]? with
  | none =>
    refine Mimics.of_halts ?_ fun path => .lost hi
    simp only [look, runOn_bind, runOn_node, hi, Option.bind_some]
  | some source =>
    cases hj : g.nodes[j]? with
    | none =>
      refine Mimics.of_halts ?_ fun path => .dangling hi hj
      simp only [look, runOn_bind, runOn_node, hi, hj, Option.bind_some]
    | some target =>
      have hrun := runOn_look o hi hj s
      cases hk : EdgeKind.between g.directed source j target with
      | none =>
        refine Mimics.of_moves ?_ fun path => .pass hi hj hk
        rw [hrun, hk]
      | some kind =>
        by_cases ht : kind = .tree
        · subst ht
          exact look_new_mimics ih hi hj ((EdgeKind.between_eq_tree_iff ..).mp hk) s pending
        · have htell : (look o i j).runOn g s = (tell o (.edge source target kind)).runOn g s := by
            rw [hrun, hk]
            cases kind <;> first | rfl | exact absurd rfl ht
          rw [runOn_tell] at htell
          cases hn : o.notice (.edge source target kind) s with
          | mk s' reason =>
            cases reason with
            | none =>
              refine Mimics.of_moves ?_ fun path => .report hi hj hk ht hn
              rw [htell, hn]
            | some reason =>
              refine Mimics.of_halts ?_ fun path => .report hi hj hk ht hn
              rw [htell, hn]

end

/-- What is left of a call does what the walk does with the frame of the call. -/
theorem proceed_mimics (o : Observer ι α σ ε) (i : NodeIndex) (pending : List NodeIndex)
    (g : Graph ι α) (s : σ) : Mimics o (proceed o i pending) g s [⟨i, pending⟩] [] := by
  -- A call opened by this one has a smaller toll, the next edge of this one a shorter list.
  induction hk : g.toll + pending.length using Nat.strongRecOn generalizing i pending g s with
  | ind k ih =>
    cases pending with
    | nil => exact proceed_nil_mimics o i g s
    | cons j pending =>
      have hlook : Mimics o (look o i j) g s [⟨i, j :: pending⟩] [⟨i, pending⟩] := by
        apply look_mimics
        intro i' pending' g' s' hlt
        exact ih _ (by simp only [List.length_cons] at hk; omega) i' pending' g' s' rfl
      obtain ⟨r, g₁, s₁, hr, hw⟩ := hlook
      cases r with
      | error e =>
        refine ⟨.error e, g₁, s₁, ?_, hw⟩
        rw [proceed, runOn_bind, hr]
        rfl
      | ok =>
        have htoll : g₁.toll ≤ g.toll := Walk.toll_le_of_moves (hw [])
        obtain ⟨r, g₂, s₂, hr₂, hw₂⟩ := ih (g₁.toll + pending.length)
          (by simp only [List.length_cons] at hk; omega) i pending g₁ s₁ rfl
        refine ⟨r, g₂, s₂, ?_, fun path => .after_moves (hw path) (hw₂ path)⟩
        rw [proceed, runOn_bind, hr]
        exact hr₂

/-! ### Whole searches -/

private theorem Ends.run_eq {o : Observer ι α σ ε} {w : Walk ι α σ}
    {r : Except (Interruption ε) Unit}
    {g : Graph ι α} {s : σ} (h : Ends o w r g s []) : Walk.run o w = ⟨g, s, r⟩ := by
  cases r with
  | ok => rw [Walk.run_eq_of_moves h, Walk.run_of_halted (Walk.step_eq_halted_iff.mpr .done)]
  | error e =>
    obtain ⟨v, hv, hh⟩ := h
    rw [Walk.run_eq_of_moves hv, Walk.run_of_halted (Walk.step_eq_halted_iff.mpr hh)]

private theorem runOn_explore_new (o : Observer ι α σ ε) {g : Graph ι α} {start : NodeIndex}
    {n : Node ι α} (hi : g.nodes[start]? = some n) (hv : n.visit = .undiscovered) (s : σ) :
    (o.explore start).runOn g s = (o.visit start).runOn g (o.start start g.directed s) := by
  have hd := n.isDiscovered_eq_false_iff.mpr hv
  simp only [Observer.explore, runOn_bind, runOn_node, hi, hd, Option.bind_some]
  rfl

private theorem outcome?_explore (o : Observer ι α σ ε) (start : NodeIndex) (g : Graph ι α)
    (s : σ) :
    (o.explore start).outcome? g s = some (g.walkFrom o s start) := by
  obtain ⟨p, hp, hw⟩ := Graph.exists_starts o g s start
  rw [hw, outcome?]
  cases hp with
  | lost hi =>
    rw [Observer.explore, runOn_bind, runOn_node, hi]
    rfl
  | @known n hi hv =>
    have hd := n.isDiscovered_eq_true_iff.mpr hv
    rw [Observer.explore, runOn_bind, runOn_node, hi]
    simp only [hd, Option.bind_some]
    rfl
  | @enter n s' hi hv hn =>
    rw [runOn_explore_new o hi hv, runOn_visit o hi, hn]
    obtain ⟨r, g', s'', hr, he⟩ :=
      proceed_mimics o start n.neighbors (g.stamp start (n.enter g.clock)) s'
    have hrun := (he []).run_eq
    simp only [hr, Option.map_some, Progress.outcome]
    exact congrArg some hrun.symm
  | refused hi hv hn =>
    rw [runOn_explore_new o hi hv, runOn_visit o hi, hn]
    rfl

/-- A walk with an explicit stack is the search of the textbooks. Whatever has been entered before
and whatever the observer does, the search comes to an end, with the result, the graph and the
state of the observer that the walk has, after the same events, told in the same order and with
the same nodes. -/
theorem explore_eq_walkFrom (o : Observer ι α σ ε) (start : NodeIndex) (g : Graph ι α) (s : σ) :
    (o.explore start).outcome? g s = some (g.walkFrom o s start) ∧
      ∃ events,
        (o.traced.explore start).outcome? g (s, []) =
            some ((g.walkFrom o s start).withEvents events) ∧
          g.walkFrom o.traced (s, []) start = (g.walkFrom o s start).withEvents events := by
  obtain ⟨events, he⟩ := g.exists_walkFrom_traced o s start
  refine ⟨outcome?_explore o start g s, events, ?_, he⟩
  rw [outcome?_explore, he]

end Search

end Precedence
