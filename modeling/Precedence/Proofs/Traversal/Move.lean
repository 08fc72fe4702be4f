import Precedence.Proofs.Graph.Skeleton

/-!
# The moves of a walk

`Walk.step` read as rules: `Moves` has one rule for each way in which a walk goes on, `Halts` one
for each way in which it is over. A property that every move keeps therefore holds where the walk
halts (`run_of_invariant`), and proofs about walks split into these rules and nothing else.
-/

namespace Precedence

variable {ι α σ ε : Type} [BEq ι] [Hashable ι]

namespace Walk

/-- A step after which the walk is still under way. -/
inductive Moves (o : Observer ι α σ ε) : Walk ι α σ → Walk ι α σ → Prop where
  /-- No edge is left: the innermost node is stamped and left. -/
  | leave {g : Graph ι α} {s s' : σ} {i : NodeIndex} {path : List Frame} {n : Node ι α}
      (hi : g.nodes[i]? = some n)
      (hn : o.notice (.leave i (n.leave g.clock)) s = (s', none)) :
      Moves o ⟨g, s, ⟨i, []⟩ :: path⟩ ⟨g.stamp i (n.leave g.clock), s', path⟩
  /-- The next edge is passed over. -/
  | pass {g : Graph ι α} {s : σ} {i j : NodeIndex} {pending : List NodeIndex} {path : List Frame}
      {source target : Node ι α} (hi : g.nodes[i]? = some source) (hj : g.nodes[j]? = some target)
      (hk : EdgeKind.between g.directed source j target = none) :
      Moves o ⟨g, s, ⟨i, j :: pending⟩ :: path⟩ ⟨g, s, ⟨i, pending⟩ :: path⟩
  /-- The next edge leads to a node that has been entered before. -/
  | report {g : Graph ι α} {s s' : σ} {i j : NodeIndex} {pending : List NodeIndex}
      {path : List Frame} {source target : Node ι α} {kind : EdgeKind}
      (hi : g.nodes[i]? = some source) (hj : g.nodes[j]? = some target)
      (hk : EdgeKind.between g.directed source j target = some kind) (ht : kind ≠ .tree)
      (hn : o.notice (.edge source target kind) s = (s', none)) :
      Moves o ⟨g, s, ⟨i, j :: pending⟩ :: path⟩ ⟨g, s', ⟨i, pending⟩ :: path⟩
  /-- The next edge leads to a new node, which is entered. -/
  | descend {g : Graph ι α} {s s' s'' : σ} {i j : NodeIndex} {pending : List NodeIndex}
      {path : List Frame} {source target : Node ι α}
      (hi : g.nodes[i]? = some source) (hj : g.nodes[j]? = some target)
      (hv : target.visit = .undiscovered)
      (he : o.notice (.edge source { target with parent := some i } .tree) s = (s', none))
      (hn : o.notice (.enter j ({ target with parent := some i }.enter g.clock)) s' =
        (s'', none)) :
      Moves o ⟨g, s, ⟨i, j :: pending⟩ :: path⟩
        ⟨g.stamp j ({ target with parent := some i }.enter g.clock), s'',
          ⟨j, target.neighbors⟩ :: ⟨i, pending⟩ :: path⟩

/-- A step that ends the walk. -/
inductive Halts (o : Observer ι α σ ε) : Walk ι α σ → Outcome ι α σ ε → Prop where
  /-- The path is empty. -/
  | done {g : Graph ι α} {s : σ} : Halts o ⟨g, s, []⟩ ⟨g, s, .ok ()⟩
  /-- The observer stops the walk at the node that is left. -/
  | leave {g : Graph ι α} {s s' : σ} {i : NodeIndex} {path : List Frame} {n : Node ι α}
      {reason : ε} (hi : g.nodes[i]? = some n)
      (hn : o.notice (.leave i (n.leave g.clock)) s = (s', some reason)) :
      Halts o ⟨g, s, ⟨i, []⟩ :: path⟩
        ⟨g.stamp i (n.leave g.clock), s', .error (.stopped reason)⟩
  /-- The observer stops the walk at an edge to a node that has been entered before. -/
  | report {g : Graph ι α} {s s' : σ} {i j : NodeIndex} {pending : List NodeIndex}
      {path : List Frame} {source target : Node ι α} {kind : EdgeKind} {reason : ε}
      (hi : g.nodes[i]? = some source) (hj : g.nodes[j]? = some target)
      (hk : EdgeKind.between g.directed source j target = some kind) (ht : kind ≠ .tree)
      (hn : o.notice (.edge source target kind) s = (s', some reason)) :
      Halts o ⟨g, s, ⟨i, j :: pending⟩ :: path⟩ ⟨g, s', .error (.stopped reason)⟩
  /-- The observer stops the walk at the edge to a new node, which has its parent by then. -/
  | reach {g : Graph ι α} {s s' : σ} {i j : NodeIndex} {pending : List NodeIndex}
      {path : List Frame} {source target : Node ι α} {reason : ε}
      (hi : g.nodes[i]? = some source) (hj : g.nodes[j]? = some target)
      (hv : target.visit = .undiscovered)
      (he : o.notice (.edge source { target with parent := some i } .tree) s =
        (s', some reason)) :
      Halts o ⟨g, s, ⟨i, j :: pending⟩ :: path⟩
        ⟨g.put j { target with parent := some i }, s', .error (.stopped reason)⟩
  /-- The observer stops the walk at a new node that has just been entered. -/
  | enter {g : Graph ι α} {s s' s'' : σ} {i j : NodeIndex} {pending : List NodeIndex}
      {path : List Frame} {source target : Node ι α} {reason : ε}
      (hi : g.nodes[i]? = some source) (hj : g.nodes[j]? = some target)
      (hv : target.visit = .undiscovered)
      (he : o.notice (.edge source { target with parent := some i } .tree) s = (s', none))
      (hn : o.notice (.enter j ({ target with parent := some i }.enter g.clock)) s' =
        (s'', some reason)) :
      Halts o ⟨g, s, ⟨i, j :: pending⟩ :: path⟩
        ⟨g.stamp j ({ target with parent := some i }.enter g.clock), s'',
          .error (.stopped reason)⟩
  /-- The path is at an index past the end of the arena. -/
  | lost {g : Graph ι α} {s : σ} {i : NodeIndex} {pending : List NodeIndex} {path : List Frame}
      (hi : g.nodes[i]? = none) :
      Halts o ⟨g, s, ⟨i, pending⟩ :: path⟩ ⟨g, s, .error (.outOfRange ⟨g.size, i⟩)⟩
  /-- The next edge leads past the end of the arena. -/
  | dangling {g : Graph ι α} {s : σ} {i j : NodeIndex} {pending : List NodeIndex}
      {path : List Frame} {source : Node ι α} (hi : g.nodes[i]? = some source)
      (hj : g.nodes[j]? = none) :
      Halts o ⟨g, s, ⟨i, j :: pending⟩ :: path⟩ ⟨g, s, .error (.outOfRange ⟨g.size, j⟩)⟩

/-- A progress that the rules allow. -/
def Follows (o : Observer ι α σ ε) (w : Walk ι α σ) : Progress ι α σ ε → Prop
  | .running w' => Moves o w w'
  | .halted outcome => Halts o w outcome

private theorem follows_leave (o : Observer ι α σ ε) (g : Graph ι α) (s : σ) (i : NodeIndex)
    (path : List Frame) : Follows o ⟨g, s, ⟨i, []⟩ :: path⟩ (leave o g s path i) := by
  unfold leave
  split
  · next hi => exact .lost hi
  · next n hi =>
    dsimp only
    split
    · next hn => exact .leave hi hn
    · next hn => exact .leave hi hn

private theorem follows_examine (o : Observer ι α σ ε) (g : Graph ι α) (s : σ) (i j : NodeIndex)
    (pending : List NodeIndex) (path : List Frame) :
    Follows o ⟨g, s, ⟨i, j :: pending⟩ :: path⟩
      (examine o g s (⟨i, pending⟩ :: path) i j) := by
  unfold examine
  split
  · next hi => exact .lost hi
  · next hi hj => exact .dangling hi hj
  · next source target hi hj =>
    split
    · next hk => exact .pass hi hj hk
    · next hk =>
      have hv := (EdgeKind.between_eq_tree_iff ..).mp hk
      dsimp only
      split
      · next s' he =>
        unfold enter
        dsimp only
        split
        · next hn => exact .descend hi hj hv he hn
        · next hn => exact .enter hi hj hv he hn
      · next he => exact .reach hi hj hv he
    · next kind ht hk =>
      split
      · next hn => exact .report hi hj hk ht hn
      · next hn => exact .report hi hj hk ht hn

/-- A step follows the rules. -/
theorem follows_step (o : Observer ι α σ ε) (w : Walk ι α σ) : Follows o w (w.step o) := by
  unfold step
  split
  · exact .done
  · exact follows_leave ..
  · exact follows_examine ..

omit [BEq ι] [Hashable ι] in
private theorem between_of_new {directed : Bool} {source target : Node ι α} {i : NodeIndex}
    (hv : target.visit = .undiscovered) :
    EdgeKind.between directed source i target = some .tree :=
  (EdgeKind.between_eq_tree_iff ..).mpr hv

/-- The rules leave no choice: what they allow is what the step does. -/
theorem step_eq_of_follows {o : Observer ι α σ ε} {w : Walk ι α σ} {p : Progress ι α σ ε}
    (h : Follows o w p) : w.step o = p := by
  cases p with
  | running w' =>
    cases h with
    | leave hi hn => simp [step, Walk.leave, hi, hn]
    | pass hi hj hk => simp [step, examine, hi, hj, hk]
    | @report _ _ _ _ _ _ _ _ _ kind hi hj hk ht hn =>
      cases kind <;> simp_all [step, examine]
    | descend hi hj hv he hn =>
      simp [step, examine, enter, hi, hj, between_of_new hv, he, hn]
  | halted outcome =>
    cases h with
    | done => rfl
    | leave hi hn => simp [step, Walk.leave, hi, hn]
    | @report _ _ _ _ _ _ _ _ _ kind _ hi hj hk ht hn =>
      cases kind <;> simp_all [step, examine]
    | reach hi hj hv he => simp [step, examine, hi, hj, between_of_new hv, he]
    | enter hi hj hv he hn =>
      simp [step, examine, Walk.enter, hi, hj, between_of_new hv, he, hn]
    | @lost _ _ _ pending _ hi => cases pending <;> simp [step, Walk.leave, examine, hi]
    | dangling hi hj => simp [step, examine, hi, hj]

/-- A walk goes on exactly by a move. -/
theorem step_eq_running_iff {o : Observer ι α σ ε} {w w' : Walk ι α σ} :
    w.step o = .running w' ↔ Moves o w w' := by
  constructor
  · intro h
    have hf := follows_step o w
    rwa [h] at hf
  · intro h
    exact step_eq_of_follows h

/-- A walk is over exactly when it halts. -/
theorem step_eq_halted_iff {o : Observer ι α σ ε} {w : Walk ι α σ} {outcome : Outcome ι α σ ε} :
    w.step o = .halted outcome ↔ Halts o w outcome := by
  constructor
  · intro h
    have hf := follows_step o w
    rwa [h] at hf
  · intro h
    exact step_eq_of_follows h

/-- Moves do not change how a walk ends. -/
theorem run_eq_of_moves {o : Observer ι α σ ε} {w w' : Walk ι α σ}
    (h : Relation.ReflTransGen (Moves o) w w') : run o w = run o w' := by
  induction h with
  | refl => rfl
  | tail _ hm ih => rw [ih, run_of_running (step_eq_running_iff.mpr hm)]

/-- What every move keeps holds where the walk halts. -/
theorem run_of_invariant {o : Observer ι α σ ε} {P : Walk ι α σ → Prop}
    (hP : ∀ w w', P w → Moves o w w' → P w') {w : Walk ι α σ} (hw : P w) :
    ∃ w', P w' ∧ Halts o w' (run o w) := by
  fun_induction run o w with
  | case1 w w' hs ih => exact ih (hP w w' hw (step_eq_running_iff.mp hs))
  | case2 w outcome hs => exact ⟨w, hw, step_eq_halted_iff.mp hs⟩

/-- A walk that goes through ends where its path is empty. -/
theorem Halts.of_ok {o : Observer ι α σ ε} {w : Walk ι α σ} {r : Outcome ι α σ ε}
    (h : Halts o w r) (hok : r.result = .ok ()) : w.path = [] ∧ r.graph = w.graph := by
  cases h with
  | done => exact ⟨rfl, rfl⟩
  | leave => cases hok
  | report => cases hok
  | reach => cases hok
  | enter => cases hok
  | lost => cases hok
  | dangling => cases hok

private theorem Moves.toll_le {o : Observer ι α σ ε} {w w' : Walk ι α σ} (h : Moves o w w') :
    w'.graph.toll ≤ w.graph.toll := by
  cases h with
  | @leave g _ _ i _ n hi hn =>
    have := g.toll_stamp i n (n.leave g.clock) hi
    rw [Node.toll_leave] at this
    dsimp only
    omega
  | pass => exact Nat.le_refl _
  | report => exact Nat.le_refl _
  | @descend g _ _ _ i j _ _ _ target hi hj hv he hn =>
    have := g.toll_stamp j target ({ target with parent := some i }.enter g.clock) hj
    rw [Node.toll_enter] at this
    dsimp only
    omega

/-- Moves never raise the toll of the graph. -/
theorem toll_le_of_moves {o : Observer ι α σ ε} {w w' : Walk ι α σ}
    (h : Relation.ReflTransGen (Moves o) w w') : w'.graph.toll ≤ w.graph.toll := by
  induction h with
  | refl => exact Nat.le_refl _
  | tail _ hm ih => exact Nat.le_trans hm.toll_le ih

end Walk

/-! ### The first step of a tree -/

/-- How an unfinished walk ends. -/
def Progress.outcome (o : Observer ι α σ ε) : Progress ι α σ ε → Outcome ι α σ ε
  | .running w => Walk.run o w
  | .halted outcome => outcome

namespace Graph

/-- What happens to a start before the first edge is looked at. -/
inductive Starts (o : Observer ι α σ ε) (g : Graph ι α) (s : σ) (start : NodeIndex) :
    Progress ι α σ ε → Prop where
  /-- The start is past the end of the arena. -/
  | lost (hi : g.nodes[start]? = none) :
      Starts o g s start (.halted ⟨g, s, .error (.outOfRange ⟨g.size, start⟩)⟩)
  /-- The start has been entered before. -/
  | known {n : Node ι α} (hi : g.nodes[start]? = some n) (hv : n.visit ≠ .undiscovered) :
      Starts o g s start (.halted ⟨g, s, .ok ()⟩)
  /-- The start is new and is entered. -/
  | enter {n : Node ι α} {s' : σ} (hi : g.nodes[start]? = some n) (hv : n.visit = .undiscovered)
      (hn : o.notice (.enter start (n.enter g.clock)) (o.start start g.directed s) = (s', none)) :
      Starts o g s start
        (.running ⟨g.stamp start (n.enter g.clock), s', [⟨start, n.neighbors⟩]⟩)
  /-- The observer stops the walk at its start. -/
  | refused {n : Node ι α} {s' : σ} {reason : ε} (hi : g.nodes[start]? = some n)
      (hv : n.visit = .undiscovered)
      (hn : o.notice (.enter start (n.enter g.clock)) (o.start start g.directed s) =
        (s', some reason)) :
      Starts o g s start
        (.halted ⟨g.stamp start (n.enter g.clock), s', .error (.stopped reason)⟩)

/-- A walk begins by the rules. -/
theorem exists_starts (o : Observer ι α σ ε) (g : Graph ι α) (s : σ) (start : NodeIndex) :
    ∃ p, Starts o g s start p ∧ g.walkFrom o s start = p.outcome o := by
  unfold walkFrom
  split
  · next hi => exact ⟨_, .lost hi, rfl⟩
  · next n hi =>
    cases hd : n.isDiscovered with
    | true => exact ⟨_, .known hi (n.isDiscovered_eq_true_iff.mp hd), rfl⟩
    | false =>
      have hv := n.isDiscovered_eq_false_iff.mp hd
      cases hn : o.notice (.enter start (n.enter g.clock)) (o.start start g.directed s) with
      | mk s' reason =>
        cases reason with
        | none => exact ⟨_, .enter hi hv hn, by simp [Walk.enter, hn, Progress.outcome]⟩
        | some reason => exact ⟨_, .refused hi hv hn, by simp [Walk.enter, hn, Progress.outcome]⟩

/-- The rules of the first step leave no choice. -/
theorem walkFrom_eq_of_starts {o : Observer ι α σ ε} {g : Graph ι α} {s : σ}
    {start : NodeIndex} {p : Progress ι α σ ε} (h : Starts o g s start p) :
    g.walkFrom o s start = p.outcome o := by
  cases h with
  | lost hi => simp [walkFrom, hi, Progress.outcome]
  | @known n hi hv =>
    have hd := n.isDiscovered_eq_true_iff.mpr hv
    simp [walkFrom, hi, hd, Progress.outcome]
  | @enter n s' hi hv hn =>
    have hd := n.isDiscovered_eq_false_iff.mpr hv
    simp [walkFrom, hi, hd, Walk.enter, hn, Progress.outcome]
  | @refused n s' reason hi hv hn =>
    have hd := n.isDiscovered_eq_false_iff.mpr hv
    simp [walkFrom, hi, hd, Walk.enter, hn, Progress.outcome]

end Graph

end Precedence
