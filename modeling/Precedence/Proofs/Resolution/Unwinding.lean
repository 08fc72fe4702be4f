import Precedence.Proofs.Resolution.Collecting
import Precedence.Proofs.Traversal.Postorder

/-!
# The collected order is a postorder

What a walk with the collector has still to do can be read off its path: the rest of each node's
edges, and then the node itself. When the walks from all starts go through, the collected order is
therefore the postorder of the starts, in which marks, clock and stack no longer occur.
-/

namespace Precedence

variable {ι α : Type} [BEq ι] [Hashable ι]

namespace Walk

/-- The list that `order` becomes while a path is gone back along. -/
inductive Unwinds (next : NodeIndex → List NodeIndex) :
    List NodeIndex → List Frame → List NodeIndex → Prop where
  | nil {order : List NodeIndex} : Unwinds next order [] order
  | cons {order mid order' pending : List NodeIndex} {i : NodeIndex} {path : List Frame}
      (h : Postorder next order pending mid) (hpath : Unwinds next (mid ++ [i]) path order') :
      Unwinds next order (⟨i, pending⟩ :: path) order'

section
variable {next : NodeIndex → List NodeIndex} {order order' pending : List NodeIndex}
  {i j : NodeIndex} {path : List Frame}

private theorem Unwinds.single (h : Unwinds next order [⟨i, pending⟩] order') :
    ∃ mid, Postorder next order pending mid ∧ order' = mid ++ [i] := by
  cases h with
  | cons h hpath =>
    cases hpath
    exact ⟨_, h, rfl⟩

private theorem Unwinds.skip (hj : j ∈ order)
    (h : Unwinds next order (⟨i, pending⟩ :: path) order') :
    Unwinds next order (⟨i, j :: pending⟩ :: path) order' := by
  cases h with
  | cons h hpath => exact .cons (.skip hj h) hpath

private theorem Unwinds.visit (hj : j ∉ order)
    (h : Unwinds next order (⟨j, next j⟩ :: ⟨i, pending⟩ :: path) order') :
    Unwinds next order (⟨i, j :: pending⟩ :: path) order' := by
  cases h with
  | cons hnext hrest =>
    cases hrest with
    | cons h hpath => exact .cons (.visit hj hnext h) hpath

end

end Walk

section
variable {g₀ : Graph ι α} {before : List NodeIndex} {start : NodeIndex}

private theorem Underway.unwinds {w : Walk ι α (Collection ι)} (hd : g₀.directed = true)
    (hw : Underway g₀ before start w) (hok : (Walk.run collector w).result = .ok ()) :
    Walk.Unwinds g₀.successors w.observed.order.toList w.path
      (Walk.run collector w).observed.order.toList := by
  fun_induction Walk.run collector w with
  | case2 w outcome hs =>
    have hh := Walk.step_eq_halted_iff.mp hs
    cases hh with
    | done => exact .nil
    | _ => cases hok
  | case1 w w' hs ih =>
    have hm := Walk.step_eq_running_iff.mp hs
    have hrest := ih (hw.moves hd hm) hok
    generalize (Walk.run collector w').observed.order.toList = order' at hrest ⊢
    -- The rest is known from the next step on: what this step did is put in front of it.
    cases hm with
    | leave hi hn =>
      rw [(order_of_leave hn).1, Array.toList_push] at hrest
      exact .cons .nil hrest
    | pass hi hj hk =>
      exact absurd hk (Walk.between_ne_none ((Graph.directed_congr hw.reset_eq).trans hd) _ _ _)
    | @report _ _ _ _ j _ _ _ _ kind hi hj hk ht hn =>
      obtain ⟨horder, hreason⟩ := order_of_edge hn
      have hback : kind ≠ .back := by
        rintro rfl
        cases hreason
      rw [horder] at hrest
      have hfinished := Walk.isFinished_of_between hj hk ht hback
      exact .skip (Array.mem_toList_iff.mpr ((hw.collected.mem_iff j).mpr hfinished)) hrest
    | @descend g _ _ _ _ j _ _ _ target hi hj hv he hn =>
      rw [(eq_of_enter hn).1, (order_of_edge he).1] at hrest
      have hsuccessors : g₀.successors j = target.neighbors := by
        rw [← Graph.successors_congr hw.reset_eq, Graph.successors_of_node hj]
      rw [← hsuccessors] at hrest
      refine .visit ?_ hrest
      rw [Array.mem_toList_iff, hw.collected.mem_iff]
      exact Graph.not_isFinished_of_node hj hv

/-- A walk that goes through lists what its start leads to. -/
theorem postorder_walkFrom {g : Graph ι α} {c : Collection ι} (hd : g₀.directed = true)
    (h : Collecting g₀ before g c.order)
    (hok : (g.walkFrom collector c start).result = .ok ()) :
    Postorder g₀.successors c.order.toList [start]
      (g.walkFrom collector c start).observed.order.toList := by
  obtain ⟨p, hp, hrun⟩ := g.exists_starts collector c start
  rw [hrun] at hok ⊢
  cases hp with
  | lost hi => cases hok
  | @known n hi hv =>
    have hfinished := h.clean.isFinished_of_isEntered ⟨n.visit, Graph.visit?_of_node hi, hv⟩
    exact .skip (Array.mem_toList_iff.mpr ((h.collected.mem_iff start).mpr hfinished)) .nil
  | @enter n c' hi hv hn =>
    obtain ⟨mid, hmid, hlast⟩ := ((h.underway hi hv hn).unwinds hd hok).single
    have hsuccessors : g₀.successors start = n.neighbors := by
      rw [← Graph.successors_congr h.reset_eq, Graph.successors_of_node hi]
    rw [← hsuccessors, (eq_of_enter hn).1, order_start] at hmid
    show Postorder _ _ _ (Walk.run collector _).observed.order.toList
    rw [hlast]
    refine .visit ?_ hmid .nil
    rw [Array.mem_toList_iff, h.collected.mem_iff]
    exact Graph.not_isFinished_of_node hi hv
  | refused hi hv hn => cases hok

/-- Walks that go through list what their starts lead to. -/
theorem postorder_walkEach {g : Graph ι α} {c : Collection ι} (hd : g₀.directed = true)
    (hc : g₀.Closed) (h : Collecting g₀ before g c.order) {starts : List NodeIndex}
    (hstarts : ∀ s ∈ starts, s < g₀.size)
    (hok : (g.walkEach collector c starts).result = .ok ()) :
    Postorder g₀.successors c.order.toList starts
      (g.walkEach collector c starts).observed.order.toList := by
  induction starts generalizing before g c with
  | nil => exact .nil
  | cons start starts ih =>
    have hfrom := collectsFrom_walkFrom hd hc (hstarts start (by simp)) h
    have hfirst (hdone : (g.walkFrom collector c start).result = .ok ()) :=
      postorder_walkFrom hd h hdone
    rw [Graph.walkEach] at hok ⊢
    cases hw : g.walkFrom collector c start with
    | mk g' c' r =>
      rw [hw] at hok hfrom hfirst
      cases hfrom with
      | ok h' =>
        have hrest := ih h' (fun s hs => hstarts s (List.mem_cons_of_mem _ hs)) hok
        exact (hfirst rfl).append hrest
      | cycle => cases hok

end

end Precedence
