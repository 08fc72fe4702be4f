import Mathlib
import Precedence.Proofs.Graph.WellFormed
import Precedence.Proofs.Traversal.Extent

/-!
# Walks that run out of the arena

An edge may lead to an index that has not been handed out yet. A walk looks at all edges of the
nodes that it enters and at no others, so it fails exactly if its start is not in the arena or an
edge of the extent of its start leads out of it. New nodes bring no edges with them; once there
are enough of them, no walk fails.
-/

namespace Precedence

variable {ι α σ ε : Type} [BEq ι] [Hashable ι]

namespace Graph

/-- A walk from a start comes to an index past the end of the arena: to the start itself, or along
an edge of a node that a new start leads to through new nodes. -/
def Oversteps (g : Graph ι α) (start : NodeIndex) : Prop :=
  g.size ≤ start ∨ g.IsNew start ∧ ∃ j, g.LeadsOut start j

/-- The graph after more identifiers have been interned. -/
def internAll (g : Graph ι α) (ids : List ι) : Graph ι α := g.after (ids.map .intern)

private theorem edge_internAll (g : Graph ι α) (ids : List ι) :
    (g.internAll ids).Edge = g.Edge := by
  induction ids generalizing g with
  | nil => rfl
  | cons id ids ih =>
    show ((g.intern id).1.internAll ids).Edge = g.Edge
    rw [ih]
    funext i j
    rw [Edge, Edge, successors_intern]

section
variable {g : Graph ι α} {start : NodeIndex}

private theorem walkFrom_of_size_le (hstart : g.size ≤ start) (o : Observer ι α σ ε) (s : σ) :
    g.walkFrom o s start = ⟨g, s, .error (.outOfRange ⟨g.size, start⟩)⟩ :=
  walkFrom_eq_of_starts (.lost (Array.getElem?_eq_none_iff.mpr hstart))

/-- A walk that nobody stops either fails, at an index past the end of the arena to which its start
leads, or goes through, and then its start does not lead out of the arena. -/
theorem walkFrom_cases {o : Observer ι α σ ε} (ho : o.Patient) (g : Graph ι α)
    (start : NodeIndex) (s : σ) :
    (∃ j, (g.walkFrom o s start).result = .error (.outOfRange ⟨g.size, j⟩) ∧
      (g.size ≤ start ∧ j = start ∨ g.LeadsOut start j)) ∨
    (g.walkFrom o s start).result = .ok () ∧ ¬ g.Oversteps start := by
  by_cases hstart : g.size ≤ start
  · refine .inl ⟨start, ?_, .inl ⟨hstart, rfl⟩⟩
    rw [walkFrom_of_size_le hstart]
  · have hlt : start < g.size := Nat.not_le.mp hstart
    obtain ⟨fault, hresult, hend⟩ := (ensures_visits_or_leadsOut hlt).close_of_patient ho s
    rw [← walkFrom_eq_perform] at hresult
    rcases hend with ⟨rfl, -, hnone⟩ | ⟨j, rfl, hout⟩
    · refine .inr ⟨hresult, ?_⟩
      rintro (hle | ⟨-, j, hout⟩)
      · exact hstart hle
      · exact hnone j hout
    · exact .inl ⟨j, hresult, .inr hout⟩

private theorem LeadsOut.isNew {j : NodeIndex} (h : g.LeadsOut start j) : g.IsNew start := by
  obtain ⟨-, i, hi, -⟩ := h
  exact hi.1

end

/-- In a closed graph no call that begins in the arena fails, whoever observes it. -/
theorem Closed.walk_ne_outOfRange {g : Graph ι α} (hg : g.Closed) {c : Call}
    (hc : ∀ start ∈ g.starts c, start < g.size) (o : Observer ι α σ ε) (s : σ)
    (fault : OutOfRange) : (g.walk o s c).result ≠ .error (.outOfRange fault) := by
  rw [walk_eq_walkEach]
  apply (reading_walkEach hg hc (halfway_nil g) o s).not_outOfRange
  intro es g' fault h
  exact h.1

/-- A walk that nobody stops fails exactly if it oversteps the arena: at the size of the arena, and at
an index past it that is the start or is led to by the start. Otherwise it goes through. As soon as
enough nodes have been created for all edges to stay in the arena, no call fails that begins there,
whoever observes it. -/
theorem walk_outOfRange_iff {o : Observer ι α σ ε} (ho : o.Patient) (g : Graph ι α) (s : σ)
    (start : NodeIndex) :
    ((∃ fault, (g.walk o s (.node start)).result = .error (.outOfRange fault)) ↔
        g.Oversteps start) ∧
      (∀ fault, (g.walk o s (.node start)).result = .error (.outOfRange fault) →
        fault.size = g.size ∧ g.size ≤ fault.index ∧
          (fault.index = start ∨ g.LeadsOut start fault.index)) ∧
      (¬ g.Oversteps start → (g.walk o s (.node start)).result = .ok ()) ∧
      ∀ ids : List ι, (∀ i j, g.Edge i j → j < (g.internAll ids).size) →
        ∀ {τ δ : Type} (p : Observer ι α τ δ) (t : τ) (c : Call),
          (∀ i ∈ (g.internAll ids).starts c, i < (g.internAll ids).size) →
          ∀ fault, ((g.internAll ids).walk p t c).result ≠ .error (.outOfRange fault) := by
  have hcases := walkFrom_cases ho g start s
  refine ⟨⟨?_, ?_⟩, ?_, ?_, ?_⟩
  · rintro ⟨fault, hfault⟩
    rcases hcases with ⟨j, -, ⟨hle, -⟩ | hout⟩ | ⟨hok, -⟩
    · exact .inl hle
    · exact .inr ⟨hout.isNew, j, hout⟩
    · cases hfault.symm.trans hok
  · intro hover
    rcases hcases with ⟨j, hfault, -⟩ | ⟨-, hnot⟩
    · exact ⟨_, hfault⟩
    · exact absurd hover hnot
  · intro fault hfault
    rcases hcases with ⟨j, hresult, hj⟩ | ⟨hok, -⟩
    · cases hfault.symm.trans hresult
      rcases hj with ⟨hle, rfl⟩ | hout
      · exact ⟨rfl, hle, .inl rfl⟩
      · exact ⟨rfl, hout.1, .inr hout⟩
    · cases hfault.symm.trans hok
  · intro hnot
    rcases hcases with ⟨j, -, ⟨hle, -⟩ | hout⟩ | ⟨hok, -⟩
    · exact absurd (.inl hle) hnot
    · exact absurd (.inr ⟨hout.isNew, j, hout⟩) hnot
    · exact hok
  · intro ids hids τ δ p t c hc
    apply Closed.walk_ne_outOfRange _ hc
    intro i j hij
    rw [edge_internAll] at hij
    exact hids i j hij

/-- An arena with two edges to indices that are yet to come. The walk from `0` passes the finished
node with one of them by and fails at the other, which it reaches through `2`; the walk from `3`
comes near neither. With two more nodes the walk from `0` goes on. -/
theorem walk_outOfRange_iff_early :
    let g : Graph String Unit := ⟨#[⟨"app", none, .undiscovered, [1, 2], none⟩,
      ⟨"lib", none, .finished 0 1, [4], none⟩, ⟨"core", none, .undiscovered, [0, 3, 5], none⟩,
      ⟨"base", none, .undiscovered, [], none⟩], ∅, true, 2⟩
    let o : Observer String Unit Unit Unit := .silent
    o.Patient ∧ g.Oversteps 0 ∧
      (g.walk o () (.node 0)).result = .error (.outOfRange ⟨4, 5⟩) ∧
      ¬ g.Oversteps 3 ∧ (g.walk o () (.node 3)).result = .ok () ∧
      (∀ i j, g.Edge i j → j < (g.internAll ["net", "log"]).size) ∧
      ∀ fault, ((g.internAll ["net", "log"]).walk o () (.node 0)).result ≠
        .error (.outOfRange fault) := by
  intro g o
  have ho : o.Patient := Observer.patient_silent
  obtain ⟨hover, -, -, hgrown⟩ := walk_outOfRange_iff ho g () 0
  obtain ⟨hsafe, -, -, -⟩ := walk_outOfRange_iff ho g () 3
  have hfault : (g.walk o () (.node 0)).result = .error (.outOfRange ⟨4, 5⟩) := by cbv
  have hok : (g.walk o () (.node 3)).result = .ok () := by cbv
  have hsize : (g.internAll ["net", "log"]).size = 6 := by cbv
  have hids : ∀ i j, g.Edge i j → j < (g.internAll ["net", "log"]).size := by
    have hlist : ∀ i < g.size, ∀ j ∈ g.successors i, j < 6 := by decide
    intro i j hij
    rw [hsize]
    exact hlist i hij.source_lt j hij
  refine ⟨ho, hover.mp ⟨_, hfault⟩, hfault, ?_, hok, hids, hgrown _ hids o () (.node 0) ?_⟩
  · rw [← hsafe, hok]
    rintro ⟨fault, hfault⟩
    cases hfault
  · intro i hi
    rw [List.mem_singleton.mp hi, hsize]
    decide

end Graph

end Precedence
