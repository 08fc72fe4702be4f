import Mathlib
import Precedence.Proofs.Graph.Marks
import Precedence.Proofs.Traversal.Reading
import Precedence.Proofs.Traversal.Steady

/-!
# Walks that are cut short

A walk that an observer stops is the walk that nobody stops, cut at one event. What is told is a
beginning of the same script; the graph left behind is told by the events alone: who was entered
and left is finished, who was entered and not left is on one path from the current start, and
every other node is as it was, but for the target of a tree edge at which the walk was stopped.
-/

namespace Precedence

variable {ι α σ ε : Type}

/-- The node at an index is entered in the course of some events. -/
def EnteredIn (es : List (Event ι α)) (i : NodeIndex) : Prop := ∃ n, .enter i n ∈ es

/-- The node at an index is left in the course of some events. -/
def LeftIn (es : List (Event ι α)) (i : NodeIndex) : Prop := ∃ n, .leave i n ∈ es

section
variable {es : List (Event ι α)} {i j : NodeIndex} {n source target : Node ι α} {kind : EdgeKind}

@[simp] theorem enteredIn_nil : ¬ EnteredIn ([] : List (Event ι α)) i := by simp [EnteredIn]

@[simp] theorem leftIn_nil : ¬ LeftIn ([] : List (Event ι α)) i := by simp [LeftIn]

@[simp] theorem enteredIn_concat_enter :
    EnteredIn (es ++ [.enter j n]) i ↔ EnteredIn es i ∨ i = j := by
  simp [EnteredIn, exists_or]

@[simp] theorem enteredIn_concat_edge :
    EnteredIn (es ++ [.edge source target kind]) i ↔ EnteredIn es i := by
  simp [EnteredIn]

@[simp] theorem enteredIn_concat_leave :
    EnteredIn (es ++ [.leave j n]) i ↔ EnteredIn es i := by
  simp [EnteredIn]

@[simp] theorem leftIn_concat_enter : LeftIn (es ++ [.enter j n]) i ↔ LeftIn es i := by
  simp [LeftIn]

@[simp] theorem leftIn_concat_edge :
    LeftIn (es ++ [.edge source target kind]) i ↔ LeftIn es i := by
  simp [LeftIn]

@[simp] theorem leftIn_concat_leave :
    LeftIn (es ++ [.leave j n]) i ↔ LeftIn es i ∨ i = j := by
  simp [LeftIn, exists_or]

end

/-! ### Halfway through -/

variable [BEq ι] [Hashable ι]

/-- The graph `g` has the skeleton of `g₀` and the marks of the nodes that some events tell of; of
these, the nodes of `trail` are under way, innermost first. -/
structure Marked (g₀ : Graph ι α) (es : List (Event ι α)) (trail : List NodeIndex)
    (g : Graph ι α) : Prop where
  reset_eq : g.reset = g₀.reset
  /-- Who was left is finished. -/
  isFinished : ∀ i, LeftIn es i → g.IsFinished i
  /-- Who was entered and not left is on the trail. -/
  mem_trail_iff : ∀ i, i ∈ trail ↔ EnteredIn es i ∧ ¬ LeftIn es i
  isOpen : ∀ i ∈ trail, g.IsOpen i
  nodup : trail.Nodup
  /-- Each node of the trail was reached from the next one. -/
  parents : trail.IsChain fun inner outer => g.parent? inner = some outer

/-- After some events of walks that began with the graph `g₀`, the graph is `g`, and the nodes of
`trail` are under way, innermost first. -/
structure Halfway (g₀ : Graph ι α) (es : List (Event ι α)) (trail : List NodeIndex)
    (g : Graph ι α) : Prop extends Marked g₀ es trail g where
  /-- Who was not entered is as before. -/
  kept : ∀ i, ¬ EnteredIn es i → g.nodes[i]? = g₀.nodes[i]?

/-- Before the first event nothing is under way. -/
theorem halfway_nil (g : Graph ι α) : Halfway g [] [] g where
  reset_eq := rfl
  isFinished := by simp
  mem_trail_iff := by simp
  isOpen := by simp
  nodup := by simp
  parents := by simp
  kept _ _ := rfl

section
variable {g₀ g : Graph ι α} {es : List (Event ι α)} {trail : List NodeIndex} {i j : NodeIndex}

namespace Marked

/-- A node that was entered is finished or under way. -/
theorem isEntered (h : Marked g₀ es trail g) (hi : EnteredIn es i) : g.IsEntered i := by
  by_cases hl : LeftIn es i
  · exact (h.isFinished i hl).isEntered
  · exact (h.isOpen i ((h.mem_trail_iff i).mpr ⟨hi, hl⟩)).isEntered

/-- A new node is not on the trail. -/
theorem not_enteredIn {target : Node ι α} (h : Marked g₀ es trail g)
    (hj : g.nodes[j]? = some target) (hv : target.visit = .undiscovered) : ¬ EnteredIn es j :=
  fun he => Graph.not_isEntered_of_node hj hv (h.isEntered he)

private theorem reach {n target : Node ι α} (h : Marked g₀ es trail g)
    (hj : g.nodes[j]? = some target)
    (hv : target.visit = .undiscovered) (hn : n.unvisited = target.unvisited)
    (hvisit : n.visit = target.visit) : Marked g₀ es trail (g.put j n) := by
  have hkeep : (g.put j n).visit? = g.visit? := Graph.visit?_put hj hvisit
  constructor
  · rw [← h.reset_eq]
    exact Graph.reset_put hj hn
  · intro i hi
    obtain ⟨u, hu⟩ := h.isFinished i hi
    exact ⟨u, by rw [Graph.exit?, hkeep, ← Graph.exit?, hu]⟩
  · exact h.mem_trail_iff
  · intro i hi
    obtain ⟨t, ht⟩ := h.isOpen i hi
    exact ⟨t, by rw [hkeep, ht]⟩
  · exact h.nodup
  · refine h.parents.imp_of_mem_imp ?_
    intro a b ha _ hab
    rw [Graph.parent?_put hj, if_neg, hab]
    rintro rfl
    exact h.not_enteredIn hj hv ((h.mem_trail_iff _).mp ha).1

end Marked

namespace Halfway

/-- An edge to a known node may be told. -/
theorem edge (h : Halfway g₀ es trail g) (source target : Node ι α) (kind : EdgeKind) :
    Halfway g₀ (es ++ [.edge source target kind]) trail g where
  reset_eq := h.reset_eq
  isFinished i hi := h.isFinished i (by simpa using hi)
  mem_trail_iff i := by simpa using h.mem_trail_iff i
  isOpen := h.isOpen
  nodup := h.nodup
  parents := h.parents
  kept i hi := h.kept i (by simpa using hi)

/-- A new node may be entered from the innermost one, or as the first of all. -/
theorem enter {n target : Node ι α} {t : Nat} (h : Halfway g₀ es trail g)
    (hj : g.nodes[j]? = some target) (hv : target.visit = .undiscovered)
    (hn : n.unvisited = target.unvisited) (hvisit : n.visit = .discovered t)
    (hparent : ∀ i ∈ trail.head?, n.parent = some i) :
    Halfway g₀ (es ++ [.enter j n]) (j :: trail) (g.stamp j n) := by
  have hnew : ¬ EnteredIn es j := h.not_enteredIn hj hv
  have hnot : j ∉ trail := fun hm => hnew ((h.mem_trail_iff j).mp hm).1
  have hunleft : ¬ LeftIn es j :=
    fun hl => Graph.not_isEntered_of_node hj hv (h.isFinished j hl).isEntered
  refine ⟨⟨?_, ?_, ?_, ?_, ?_, ?_⟩, ?_⟩
  · rw [← h.reset_eq]
    exact Graph.reset_stamp hj hn
  · intro i hi
    rw [leftIn_concat_enter] at hi
    obtain ⟨u, hu⟩ := h.isFinished i hi
    exact ⟨u, by rw [Graph.exit?_enter hj hv hvisit, hu]⟩
  · intro i
    rw [List.mem_cons, enteredIn_concat_enter, leftIn_concat_enter, h.mem_trail_iff]
    constructor
    · rintro (rfl | ⟨he, hl⟩)
      · exact ⟨.inr rfl, hunleft⟩
      · exact ⟨.inl he, hl⟩
    · rintro ⟨he | rfl, hl⟩
      · exact .inr ⟨he, hl⟩
      · exact .inl rfl
  · intro i hi
    apply Graph.IsOpen.enter hj hvisit
    exact (List.mem_cons.mp hi).imp_right (h.isOpen i)
  · exact List.nodup_cons.mpr ⟨hnot, h.nodup⟩
  · have hold : trail.IsChain fun inner outer => (g.stamp j n).parent? inner = some outer := by
      refine h.parents.imp_of_mem_imp ?_
      intro a b ha _ hab
      rw [Graph.parent?_stamp hj, if_neg, hab]
      rintro rfl
      exact hnot ha
    cases trail with
    | nil => exact .singleton _
    | cons i trail =>
      refine .cons_cons ?_ hold
      rw [Graph.parent?_stamp hj, if_pos rfl]
      exact hparent i rfl
  · intro i hi
    rw [enteredIn_concat_enter, not_or] at hi
    rw [Graph.getElem?_stamp hj, if_neg (Ne.symm hi.2), h.kept i hi.1]

/-- A new node may be entered from the innermost one. -/
theorem descend {target : Node ι α} (h : Halfway g₀ es (i :: trail) g)
    (hj : g.nodes[j]? = some target) (hv : target.visit = .undiscovered) :
    Halfway g₀ (es ++ [.enter j ({ target with parent := some i }.enter g.clock)]) (j :: i :: trail)
      (g.stamp j ({ target with parent := some i }.enter g.clock)) := by
  refine h.enter hj hv rfl rfl ?_
  intro k hk
  cases hk
  rfl

/-- The innermost node may be left. -/
theorem leave {n : Node ι α} (h : Halfway g₀ es (i :: trail) g) (hi : g.nodes[i]? = some n) :
    Halfway g₀ (es ++ [.leave i (n.leave g.clock)]) trail (g.stamp i (n.leave g.clock)) := by
  obtain ⟨hnot, hnodup⟩ := List.nodup_cons.mp h.nodup
  have ho : g.IsOpen i := h.isOpen i List.mem_cons_self
  have hentered : EnteredIn es i := ((h.mem_trail_iff i).mp List.mem_cons_self).1
  refine ⟨⟨?_, ?_, ?_, ?_, ?_, ?_⟩, ?_⟩
  · rw [← h.reset_eq]
    exact Graph.reset_stamp hi rfl
  · intro k hk
    rw [leftIn_concat_leave] at hk
    rcases hk with hk | rfl
    · obtain ⟨u, hu⟩ := h.isFinished k hk
      exact ⟨u, Graph.exit?_leave_of_eq_some hi ho hu⟩
    · exact ⟨g.clock, by rw [Graph.exit?_leave hi ho, if_pos rfl]⟩
  · intro k
    rw [enteredIn_concat_leave, leftIn_concat_leave, not_or, ← and_assoc, ← h.mem_trail_iff,
      List.mem_cons]
    constructor
    · intro hk
      exact ⟨.inr hk, fun hki => hnot (hki ▸ hk)⟩
    · rintro ⟨rfl | hk, hne⟩
      · exact absurd rfl hne
      · exact hk
  · intro k hk
    have hik : i ≠ k := fun hik => hnot (hik ▸ hk)
    exact (h.isOpen k (List.mem_cons_of_mem _ hk)).stamp_of_ne hi hik
  · exact hnodup
  · refine h.parents.tail.imp_of_mem_imp ?_
    intro a b ha _ hab
    have hia : i ≠ a := fun hia => hnot (hia ▸ ha)
    rw [Graph.parent?_stamp hi, if_neg hia, hab]
  · intro k hk
    rw [enteredIn_concat_leave] at hk
    have hik : i ≠ k := fun hik => hk (hik ▸ hentered)
    rw [Graph.getElem?_stamp hi, if_neg hik, h.kept k hk]

end Halfway

end

/-! ### The cut -/

/-- What is left behind when a walk from `start` is stopped at an event that comes after others. -/
inductive Cut (g₀ : Graph ι α) (start : NodeIndex) (es : List (Event ι α)) :
    Event ι α → Graph ι α → Prop where
  /-- At any other event than a tree edge nothing is half done. -/
  | between {event : Event ι α} {trail : List NodeIndex} {g : Graph ι α}
      (hevent : ∀ source target, event ≠ .edge source target .tree)
      (hstart : ∀ i ∈ trail.getLast?, i = start) (h : Halfway g₀ (es ++ [event]) trail g) :
      Cut g₀ start es event g
  /-- At a tree edge the target has its parent and is not entered. -/
  | reach {trail : List NodeIndex} {g : Graph ι α} {i j : NodeIndex} {source target : Node ι α}
      (hstart : ∀ k ∈ (i :: trail).getLast?, k = start) (h : Halfway g₀ es (i :: trail) g)
      (hi : g.nodes[i]? = some source) (hj : g.nodes[j]? = some target)
      (hv : target.visit = .undiscovered) :
      Cut g₀ start es (.edge source { target with parent := some i } .tree)
        (g.put j { target with parent := some i })

namespace Walk

/-- Wherever a walk is stopped, it is cut cleanly, and it ends with nothing under way. -/
theorem Ahead.ensures {g₀ g : Graph ι α} {path : List Frame} {script : Script ι α}
    {start : NodeIndex} {es : List (Event ι α)} (h : Ahead g path script) (hg : g.Closed)
    (hs : Steady g path) (hstart : ∀ i ∈ (trail path).getLast?, i = start)
    (hh : Halfway g₀ es (trail path) g) :
    script.Ensures (Cut g₀ start) (fun es g fault => fault = none ∧ Halfway g₀ es [] g) es := by
  induction h generalizing es with
  | ended => exact ⟨rfl, hh⟩
  | @lost g i pending path hi =>
    obtain ⟨t, ht⟩ := hs.isOpen i (head_mem_trail ..)
    simp [Graph.visit?, hi] at ht
  | @dangling g i j pending path source hi hj =>
    obtain ⟨n, hn⟩ := (g.exists_node_iff j).mpr (hg i j hs.edge)
    rw [hj] at hn
    cases hn
  | @leave g i path n rest hi _ ih =>
    have hpath : ∀ k ∈ (trail path).getLast?, k = start := by
      intro k hk
      cases path with
      | nil => cases hk
      | cons f path => exact hstart k (by simpa [trail] using hk)
    have hleft := hh.leave hi
    exact ⟨.between (by simp) hpath hleft,
      ih (hg.congr (Graph.reset_stamp hi rfl)) (hs.pop hi rfl) hpath hleft⟩
  | pass hi hj hk _ ih => exact ih hg hs.advance hstart hh
  | @report g i j pending path source target kind rest hi hj hk ht _ ih =>
    have htold := hh.edge source target kind
    refine ⟨.between ?_ hstart htold, ih hg hs.advance hstart htold⟩
    intro source' target' heq
    cases heq
    exact ht rfl
  | @descend g i j pending path source target rest hi hj hv _ ih =>
    have hentered : Halfway g₀ (es ++ [.edge source { target with parent := some i } .tree] ++
        [.enter j ({ target with parent := some i }.enter g.clock)]) (j :: i :: trail path)
        (g.stamp j ({ target with parent := some i }.enter g.clock)) :=
      (hh.edge _ _ _).descend hj hv
    have hnext : ∀ k ∈ (j :: i :: trail path).getLast?, k = start := by
      intro k hk
      exact hstart k (by simpa [trail] using hk)
    refine ⟨.reach hstart hh hi hj hv, .between (by simp) hnext hentered, ?_⟩
    exact ih (hg.congr (Graph.reset_stamp hj rfl)) (hs.advance.push hj hv rfl rfl hs.edge_head)
      hnext hentered

end Walk

namespace Graph

/-- Wherever a walk from a start is stopped, it is cut cleanly. -/
theorem ensures_scriptFrom {g₀ g : Graph ι α} {start : NodeIndex} {es : List (Event ι α)}
    (hg : g.Closed) (hstart : start < g.size) (hh : Halfway g₀ es [] g) :
    (g.scriptFrom start).Ensures (Cut g₀ start)
      (fun es g fault => fault = none ∧ Halfway g₀ es [] g) es := by
  have hb := g.begins_scriptFrom start
  generalize g.scriptFrom start = script at hb
  cases hb with
  | lost hi =>
    obtain ⟨n, hn⟩ := (g.exists_node_iff start).mpr hstart
    rw [hi] at hn
    cases hn
  | known hi hv => exact ⟨rfl, hh⟩
  | @new n rest hi hv h =>
    have hentered := hh.enter hi hv (n := n.enter g.clock) rfl rfl (by simp)
    have hlast : ∀ i ∈ [start].getLast?, i = start := by simp
    refine ⟨.between (by simp) hlast hentered, ?_⟩
    refine h.ensures (hg.congr (reset_stamp hi rfl)) ?_ hlast hentered
    exact (Walk.steady_nil g).push hi hv rfl rfl (by simp)

/-- The walks from several starts are at `start`: those from the starts before it went through. -/
def Stands (g : Graph ι α) (o : Observer ι α σ ε) (s : σ) (starts : List NodeIndex)
    (start : NodeIndex) : Prop :=
  ∃ before after g₁ s₁, starts = before ++ start :: after ∧
    g.walkEach o s before = ⟨g₁, s₁, .ok ()⟩ ∧ g.walkEach o s starts = g₁.walkFrom o s₁ start

private theorem Stands.cons {g g₁ : Graph ι α} {o : Observer ι α σ ε} {s s₁ : σ}
    {starts : List NodeIndex} {first start : NodeIndex}
    (hfirst : g.walkFrom o s first = ⟨g₁, s₁, .ok ()⟩) (h : g₁.Stands o s₁ starts start) :
    g.Stands o s (first :: starts) start := by
  obtain ⟨before, after, g₂, s₂, rfl, hbefore, hstart⟩ := h
  refine ⟨first :: before, after, g₂, s₂, rfl, ?_, ?_⟩
  · simp only [walkEach, hfirst, hbefore]
  · simp only [walkEach, hfirst, hstart]

/-- Walks from several starts are cut cleanly wherever they are stopped, in the walk from the start
they stand at. -/
theorem reading_walkEach {g₀ g : Graph ι α} {starts : List NodeIndex} {es : List (Event ι α)}
    (hg : g.Closed) (hstarts : ∀ start ∈ starts, start < g.size) (hh : Halfway g₀ es [] g)
    (o : Observer ι α σ ε) (s : σ) :
    Script.Reading
      (fun es event g' => ∃ start, Cut g₀ start es event g' ∧ g.Stands o s starts start)
      (fun es g' fault => fault = none ∧ Halfway g₀ es [] g') es ((g.scriptEach starts).calls o s)
      (g.walkEach o s starts) := by
  induction starts generalizing g es s with
  | nil =>
    have hnone : Halfway g₀ (es ++ ([] : List (Event ι α × Option ε)).map Prod.fst) [] g := by
      simpa using hh
    exact .through (by simp [Script.calls, scriptEach]) ⟨rfl, hnone⟩
  | cons start starts ih =>
    have hfirst := (ensures_scriptFrom hg (hstarts start (by simp)) hh).reading o s
    rw [scriptEach, Script.calls_andThen]
    rw [← walkFrom_eq_perform] at hfirst ⊢
    generalize hcalls : (g.scriptFrom start).calls o s = calls at hfirst ⊢
    generalize hr : g.walkFrom o s start = r at hfirst ⊢
    cases hfirst with
    | faulted hnone hfault => cases hfault.1
    | @through calls g₁ s₁ hnone hdone =>
      have hh₁ := hdone.2
      have hreset : g₁.reset = g.reset := hh₁.reset_eq.trans hh.reset_eq.symm
      have hrest := ih (hg.congr hreset)
        (fun k hk => by
          rw [size_congr hreset]
          exact hstarts k (List.mem_cons_of_mem _ hk)) hh₁ s₁
      have hwalk : g.walkEach o s (start :: starts) = g₁.walkEach o s₁ starts := by
        simp only [walkEach, hr]
      rw [hwalk]
      refine .after hnone (hrest.mono ?_)
      rintro es event g' ⟨k, hcut, hk⟩
      exact ⟨k, hcut, hk.cons hr⟩
    | @stopped before event reason g₁ s₁ hnone hcut =>
      have hwalk : g.walkEach o s (start :: starts) = ⟨g₁, s₁, .error (.stopped reason)⟩ := by
        simp only [walkEach, hr]
      rw [List.append_nil, hwalk]
      refine .stopped hnone ⟨start, hcut, [], starts, g, s, rfl, rfl, ?_⟩
      rw [hwalk, hr]

/-- A call goes through when no observer stops it and no edge leads out of the arena. -/
theorem walk_eq_ok_of_patient {g : Graph ι α} (hg : g.Closed) (c : Call)
    (hc : ∀ start ∈ g.starts c, start < g.size) {o : Observer ι α σ ε} (ho : o.Patient) (s : σ) :
    (g.walk o s c).result = .ok () := by
  have hread := reading_walkEach hg hc (halfway_nil g) o s
  have hnone := Script.snd_calls_of_patient ho (g.scriptEach (g.starts c)) s
  rw [← walk_eq_walkEach] at hread
  generalize (g.scriptEach (g.starts c)).calls o s = calls at hread hnone
  generalize g.walk o s c = r at hread ⊢
  cases hread with
  | through hcalls h => rfl
  | faulted hcalls h => cases h.1
  | @stopped before event reason g' s' hbefore h =>
    cases hnone (event, some reason) (by simp)

/-- What a call leaves behind of the graph `g`, by the events told during it and the answers. The
nodes of `trail` are those under way, innermost first. -/
structure Remains (g : Graph ι α) (calls : List (Event ι α × Option ε)) (trail : List NodeIndex)
    (g' : Graph ι α) : Prop extends Marked g (calls.map Prod.fst) trail g' where
  /-- Unless the call was stopped at a tree edge, who was not entered is as before. -/
  kept : (∀ source target reason, (.edge source target .tree, some reason) ∉ calls) →
    ∀ i, ¬ EnteredIn (calls.map Prod.fst) i → g'.nodes[i]? = g.nodes[i]?
  /-- If it was, the edge leads from the innermost node to a node whose parent is set and which is
  as before in all else; and who else was not entered is as before. -/
  reached : ∀ source target reason, (.edge source target .tree, some reason) ∈ calls →
    ∃ i j n, trail.head? = some i ∧ g'.nodes[i]? = some source ∧
      ¬ EnteredIn (calls.map Prod.fst) j ∧ g.nodes[j]? = some n ∧
      target = { n with parent := some i } ∧ g'.nodes[j]? = some target ∧
      ∀ k, k ≠ j → ¬ EnteredIn (calls.map Prod.fst) k → g'.nodes[k]? = g.nodes[k]?

/-- How a call that may be stopped compares with calls of other observers. -/
structure CleanCut (g : Graph ι α) (o : Observer ι α σ ε) (s : σ) (c : Call) : Prop where
  /-- What is told is a beginning of what an observer that never stops is told. -/
  told : ∀ {τ δ : Type} (p : Observer ι α τ δ) (t : τ), p.Patient →
    g.events o s c <+: g.events p t c
  answered : (g.calls o s c).map Prod.fst = g.events o s c
  /-- The call fails with the reason that an event was answered with. -/
  stopped_iff : ∀ reason, (g.walk o s c).result = .error (.stopped reason) ↔
    ∃ event, (event, some reason) ∈ g.calls o s c
  /-- It fails for no other reason. -/
  not_outOfRange : ∀ fault, (g.walk o s c).result ≠ .error (.outOfRange fault)
  /-- Nothing is told after a reason to stop. -/
  last : ∀ before after event reason,
    g.calls o s c = before ++ (event, some reason) :: after → after = []
  /-- The nodes that are left under way are on a path from the current start. -/
  remains : ∃ trail, g.Remains (g.calls o s c) trail (g.walk o s c).graph ∧
    ((g.walk o s c).result = .ok () → trail = []) ∧
    ∀ start ∈ trail.getLast?, g.Stands o s (g.starts c) start
  /-- How many events are told settles which graph is left behind. -/
  graph_eq : ∀ {τ δ : Type} (p : Observer ι α τ δ) (t : τ),
    (g.calls p t c).length = (g.calls o s c).length →
      (g.walk p t c).graph = (g.walk o s c).graph

private theorem exists_remains {g₀ : Graph ι α} {S : NodeIndex → Prop}
    {calls : List (Event ι α × Option ε)} {r : Outcome ι α σ ε}
    (h : Script.Reading (fun es event g' => ∃ start, Cut g₀ start es event g' ∧ S start)
      (fun es g' fault => fault = none ∧ Halfway g₀ es [] g') [] calls r) :
    ∃ trail, g₀.Remains calls trail r.graph ∧ (r.result = .ok () → trail = []) ∧
      ∀ start ∈ trail.getLast?, S start := by
  cases h with
  | faulted hnone hfault => cases hfault.1
  | @through calls g s hnone hdone =>
    have hh := hdone.2
    refine ⟨[], ⟨hh.toMarked, fun _ => hh.kept, ?_⟩, fun _ => rfl, by simp⟩
    intro source target reason hmem
    cases hnone _ hmem
  | @stopped before event reason g s hnone hcut =>
    obtain ⟨start, hcut, hS⟩ := hcut
    have hlast {event' : Event ι α} {reason' : ε}
        (hmem : (event', some reason') ∈ before ++ [(event, some reason)]) : event' = event := by
      rcases List.mem_append.mp hmem with hmem | hmem
      · cases hnone _ hmem
      · rw [List.mem_singleton] at hmem
        exact congrArg Prod.fst hmem
    have hfst : (before ++ [(event, some reason)]).map Prod.fst = before.map Prod.fst ++ [event] :=
      List.map_append
    have hmem : (event, some reason) ∈ before ++ [(event, some reason)] := by simp
    generalize before ++ [(event, some reason)] = calls at hlast hfst hmem ⊢
    rw [List.nil_append] at hcut
    cases hcut with
    | @between _ trail g hevent hstart hh =>
      rw [← hfst] at hh
      refine ⟨trail, ⟨hh.toMarked, fun _ => hh.kept, ?_⟩, ?_, ?_⟩
      · intro source target reason' hmem
        exact absurd (hlast hmem).symm (hevent source target)
      · intro hr
        cases hr
      · intro k hk
        exact hstart k hk ▸ hS
    | @reach trail g i j source target hstart hh hi hj hv =>
      have htold := hh.edge source { target with parent := some i } .tree
      rw [← hfst] at htold
      have hnew := htold.not_enteredIn hj hv
      have hij : i ≠ j := by
        rintro rfl
        exact hnew ((htold.mem_trail_iff i).mp List.mem_cons_self).1
      have hput := getElem?_put hj { target with parent := some i }
      refine ⟨i :: trail, ⟨htold.reach hj hv rfl rfl, ?_, ?_⟩, ?_, ?_⟩
      · intro hnone
        exact absurd hmem (hnone _ _ reason)
      · intro source' target' reason' hmem'
        cases hlast hmem'
        refine ⟨i, j, target, rfl, ?_, hnew, ?_, rfl, ?_, ?_⟩
        · rw [hput, if_neg hij.symm, hi]
        · rw [← htold.kept j hnew, hj]
        · rw [hput, if_pos rfl]
        · intro k hkj hk
          rw [hput, if_neg hkj.symm, htold.kept k hk]
      · intro hr
        cases hr
      · intro k hk
        exact hstart k hk ▸ hS

/-- The starts of a call that walks every node are in the arena. -/
theorem lt_size_of_mem_starts_all {g : Graph ι α} : ∀ start ∈ g.starts .all, start < g.size :=
  fun _ hstart => List.mem_range.mp hstart

/-- To stop a call is a clean cut of the call that nobody stops: in every graph whose edges stay in
the arena, whatever walks have left there, and for every observer. -/
theorem cleanCut_walk {g : Graph ι α} (hg : g.Closed) (c : Call)
    (hc : ∀ start ∈ g.starts c, start < g.size) (o : Observer ι α σ ε) (s : σ) :
    g.CleanCut o s c := by
  have hread := reading_walkEach hg hc (halfway_nil g) o s
  rw [← walk_eq_walkEach, ← script, ← calls_eq] at hread
  have hanswered : (g.calls o s c).map Prod.fst = g.events o s c := by rw [calls_eq, events_eq]
  refine ⟨?_, hanswered, hread.stopped_iff,
    hread.not_outOfRange fun _ _ _ h => h.1, ?_, exists_remains hread, ?_⟩
  · intro τ δ p t hp
    rw [events_eq, events_eq, Script.map_fst_calls_of_patient hp]
    exact Script.map_fst_calls_isPrefix _ o s
  · intro before after event reason hcalls
    exact hread.eq_nil_of_stopped hcalls
  · intro τ δ p t hlength
    have hscript := g.continues_scriptEach (g.starts c)
    rw [calls_eq, calls_eq] at hlength
    rw [walk_eq_perform, walk_eq_perform, script, hscript.graph_perform, hscript.graph_perform]
    rw [script] at hlength
    rw [hlength]

/-- An observer that counts down and stops a walk at a tree edge, in a graph where an earlier walk
was stopped: the edge's target has its parent and nothing else, and one node is under way. -/
theorem cleanCut_walk_stopped :
    let g : Graph String Unit := ⟨#[⟨"app", none, .discovered 0, [1], none⟩,
      ⟨"lib", none, .undiscovered, [0, 2], some 0⟩, ⟨"core", none, .undiscovered, [], none⟩],
      ∅, true, 1⟩
    let o : Observer String Unit Nat String :=
      { notice := fun _ s => (s - 1, if s = 0 then some "enough" else none) }
    g.Closed ∧ (∀ start ∈ g.starts .all, start < g.size) ∧ g.CleanCut o 2 .all ∧
      (g.walk o 2 .all).result = .error (.stopped "enough") ∧
      (g.walk o 2 .all).graph.parent? 2 = some 1 := by
  intro g o
  have hg : g.Closed := by decide
  have hc : ∀ start ∈ g.starts .all, start < g.size := lt_size_of_mem_starts_all
  exact ⟨hg, hc, cleanCut_walk hg .all hc o 2, by cbv, by cbv⟩

end Graph

end Precedence
