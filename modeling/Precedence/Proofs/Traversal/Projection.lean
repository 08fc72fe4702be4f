import Precedence.Proofs.Traversal.Move

/-!
# Observers that see more

An observer may keep more than another and stop a walk in the same places. Walks then go the
same way under both, and what the one keeps shows what the other keeps. An observer that also
keeps a list of all events is the case of interest: its list is the record of a walk.
-/

namespace Precedence

variable {ι α σ τ ε : Type} [BEq ι] [Hashable ι]

/-- `o'` keeps what `o` keeps, seen through `π`, and gives the same reasons to stop. -/
structure Observer.Extends (o' : Observer ι α τ ε) (o : Observer ι α σ ε) (π : τ → σ) :
    Prop where
  start : ∀ i directed t, o.start i directed (π t) = π (o'.start i directed t)
  notice : ∀ event t, o.notice event (π t) = (π (o'.notice event t).1, (o'.notice event t).2)

omit [BEq ι] [Hashable ι] in
private theorem Observer.traced_extends (o : Observer ι α σ ε) : o.traced.Extends o Prod.fst where
  start _ _ _ := rfl
  notice _ _ := rfl

/-- A walk with less kept of it. -/
def Walk.project (π : τ → σ) (w : Walk ι α τ) : Walk ι α σ := ⟨w.graph, π w.observed, w.path⟩

/-- What a walk leaves behind, with less kept of it. -/
def Outcome.project (π : τ → σ) (r : Outcome ι α τ ε) : Outcome ι α σ ε :=
  ⟨r.graph, π r.observed, r.result⟩

/-- What a walk leaves behind, with a list of the events beside it. -/
def Outcome.withEvents (r : Outcome ι α σ ε) (events : List (Event ι α)) :
    Outcome ι α (σ × List (Event ι α)) ε := ⟨r.graph, (r.observed, events), r.result⟩

variable {o' : Observer ι α τ ε} {o : Observer ι α σ ε} {π : τ → σ}

namespace Observer.Extends

variable (h : o'.Extends o π)
include h

omit [BEq ι] [Hashable ι] in
private theorem notice_eq {event : Event ι α} {t t' : τ} {reason : Option ε}
    (hn : o'.notice event t = (t', reason)) : o.notice event (π t) = (π t', reason) := by
  rw [h.notice, hn]

private theorem moves {w w' : Walk ι α τ} (hm : Walk.Moves o' w w') :
    Walk.Moves o (w.project π) (w'.project π) := by
  cases hm with
  | leave hi hn => exact .leave hi (h.notice_eq hn)
  | pass hi hj hk => exact .pass hi hj hk
  | report hi hj hk ht hn => exact .report hi hj hk ht (h.notice_eq hn)
  | descend hi hj hv he hn => exact .descend hi hj hv (h.notice_eq he) (h.notice_eq hn)

private theorem halts {w : Walk ι α τ} {r : Outcome ι α τ ε} (hh : Walk.Halts o' w r) :
    Walk.Halts o (w.project π) (r.project π) := by
  cases hh with
  | done => exact .done
  | leave hi hn => exact .leave hi (h.notice_eq hn)
  | report hi hj hk ht hn => exact .report hi hj hk ht (h.notice_eq hn)
  | reach hi hj hv he => exact .reach hi hj hv (h.notice_eq he)
  | enter hi hj hv he hn => exact .enter hi hj hv (h.notice_eq he) (h.notice_eq hn)
  | lost hi => exact .lost hi
  | dangling hi hj => exact .dangling hi hj

/-- Walks end the same way under both observers. -/
theorem run_project (w : Walk ι α τ) :
    (Walk.run o' w).project π = Walk.run o (w.project π) := by
  fun_induction Walk.run o' w with
  | case1 w w' hs ih =>
    have hm := h.moves (Walk.step_eq_running_iff.mp hs)
    rw [ih]
    exact (Walk.run_of_running (Walk.step_eq_running_iff.mpr hm)).symm
  | case2 w outcome hs =>
    have hh := h.halts (Walk.step_eq_halted_iff.mp hs)
    exact (Walk.run_of_halted (Walk.step_eq_halted_iff.mpr hh)).symm

/-- Walks from a start end the same way under both observers. -/
theorem walkFrom_project (g : Graph ι α) (t : τ) (start : NodeIndex) :
    (g.walkFrom o' t start).project π = g.walkFrom o (π t) start := by
  obtain ⟨p, hp, hw⟩ := Graph.exists_starts o' g t start
  rw [hw]
  cases hp with
  | lost hi => exact (Graph.walkFrom_eq_of_starts (.lost hi)).symm
  | known hi hv => exact (Graph.walkFrom_eq_of_starts (.known hi hv)).symm
  | enter hi hv hn =>
    have hn' := h.notice_eq hn
    rw [← h.start] at hn'
    rw [Graph.walkFrom_eq_of_starts (.enter hi hv hn')]
    exact h.run_project _
  | refused hi hv hn =>
    have hn' := h.notice_eq hn
    rw [← h.start] at hn'
    exact (Graph.walkFrom_eq_of_starts (.refused hi hv hn')).symm

end Observer.Extends

/-- A walk with its events kept is the walk, and its events. -/
theorem Graph.exists_walkFrom_traced (g : Graph ι α) (o : Observer ι α σ ε) (s : σ)
    (start : NodeIndex) :
    ∃ events, g.walkFrom o.traced (s, []) start = (g.walkFrom o s start).withEvents events := by
  refine ⟨(g.walkFrom o.traced (s, []) start).observed.2, ?_⟩
  rw [← o.traced_extends.walkFrom_project g (s, []) start]
  rfl

end Precedence
