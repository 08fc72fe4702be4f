import Precedence.Proofs.Graph.Widening
import Precedence.Proofs.Traversal.Steady

/-!
# Forgetting walks undoes them

A walk touches the marks of nodes and the clock, and nothing that grows a graph looks at either.
Forgetting all walks therefore commutes with every quiet operation, and after any operations it
leaves the graph that the quiet ones alone would have built.
-/

namespace Precedence

variable {ι α : Type}

/-! ### Nodes -/

namespace Node

/-- A change of nodes that neither sees nor touches their marks. -/
def Unmarking (f : Node ι α → Node ι α) : Prop := ∀ n, (f n).unvisited = f n.unvisited

private theorem unmarking_addNeighbor (target : NodeIndex) :
    Unmarking fun n : Node ι α => n.addNeighbor target := by
  intro n
  show (n.addNeighbor target).unvisited = n.unvisited.addNeighbor target
  have hneighbors : n.unvisited.neighbors = n.neighbors := rfl
  by_cases h : target ∈ n.neighbors
  · rw [addNeighbor, if_pos h, addNeighbor, hneighbors, if_pos h]
  · rw [addNeighbor, if_neg h, addNeighbor, hneighbors, if_neg h]
    rfl

end Node

instance : DecidablePred (Operation.Quiet : Operation ι α → Prop)
  | .walk .. => isFalse id
  | .reset => isFalse id
  | .intern _ => isTrue trivial
  | .addEdge _ _ => isTrue trivial
  | .setDirected _ => isTrue trivial
  | .setPayload _ _ => isTrue trivial
  | .takePayload _ => isTrue trivial
  | .updatePayload _ _ => isTrue trivial

namespace Graph

variable [BEq ι] [Hashable ι]

/-! ### One operation -/

/-- There is nothing more to forget. -/
@[simp] theorem reset_reset (g : Graph ι α) : g.reset.reset = g.reset := by
  simp [reset, Function.comp_def, Node.unvisited]

private theorem reset_modify (g : Graph ι α) (i : NodeIndex) {f : Node ι α → Node ι α}
    (hf : Node.Unmarking f) : (g.modify i f).reset = g.reset.modify i f := by
  have hnodes : (g.nodes.modify i f).map Node.unvisited =
      (g.nodes.map Node.unvisited).modify i f := by
    apply Array.ext_getElem?
    intro k
    simp only [Array.getElem?_map, Array.getElem?_modify]
    split
    · cases g.nodes[k]? with
      | none => rfl
      | some n => exact congrArg some (hf n)
    · rfl
  simp only [reset, modify, hnodes]

private theorem reset_intern (g : Graph ι α) (id : ι) :
    (g.intern id).1.reset = (g.reset.intern id).1 := by
  have hlookup : g.reset.lookup = g.lookup := rfl
  unfold intern
  rw [hlookup]
  cases g.lookup[id]? with
  | some i => rfl
  | none => simp [reset, Node.unvisited]

/-- A quiet operation may be carried out after the walks are forgotten. -/
theorem reset_apply (g : Graph ι α) {op : Operation ι α} (h : op.Quiet) :
    (g.apply op).reset = g.reset.apply op := by
  cases op with
  | intern id => exact g.reset_intern id
  | addEdge source target =>
    rw [apply_addEdge, apply_addEdge]
    exact g.reset_modify source (Node.unmarking_addNeighbor target)
  | setDirected directed => rfl
  | setPayload i payload =>
    rw [apply_setPayload, apply_setPayload]
    exact g.reset_modify i fun _ => rfl
  | takePayload i =>
    rw [apply_takePayload, apply_takePayload]
    exact g.reset_modify i fun _ => rfl
  | updatePayload i f =>
    rw [apply_updatePayload, apply_updatePayload]
    exact g.reset_modify i fun _ => rfl
  | walk o s c => exact absurd h id
  | reset => exact absurd h id

/-- A call changes nothing that is not forgotten. -/
theorem reset_walk {σ ε : Type} (g : Graph ι α) (o : Observer ι α σ ε) (s : σ) (c : Call) :
    (g.walk o s c).graph.reset = g.reset := by
  rw [walk_eq_walkEach]
  exact g.reset_walkEach o s _

private theorem reset_apply_of_not_quiet (g : Graph ι α) {op : Operation ι α} (h : ¬ op.Quiet) :
    (g.apply op).reset = g.reset := by
  cases op with
  | walk o s c => exact g.reset_walk o s c
  | reset => exact g.reset_reset
  | _ => exact absurd trivial h

/-! ### Any operations -/

/-- Forgetting the walks leaves what the quiet operations build. -/
theorem reset_after (g : Graph ι α) (ops : List (Operation ι α)) :
    (g.after ops).reset = g.reset.after (ops.filter (·.Quiet)) := by
  induction ops generalizing g with
  | nil => rfl
  | cons op ops ih =>
    show ((g.apply op).after ops).reset = _
    rw [ih]
    by_cases h : op.Quiet
    · rw [List.filter_cons_of_pos (by simpa using h), g.reset_apply h]
      rfl
    · rw [List.filter_cons_of_neg (by simpa using h), g.reset_apply_of_not_quiet h]

/-- The graphs have the same nodes, up to their marks, the same lookup and the same mode. -/
structure SameButMarks (g g' : Graph ι α) : Prop where
  ids : g'.nodes.map (·.id) = g.nodes.map (·.id)
  payloads : g'.nodes.map (·.payload) = g.nodes.map (·.payload)
  neighbors : g'.nodes.map (·.neighbors) = g.nodes.map (·.neighbors)
  lookup : g'.lookup = g.lookup
  directed : g'.directed = g.directed

private theorem sameButMarks_of_reset_eq {g g' : Graph ι α} (h : g'.reset = g.reset) :
    g.SameButMarks g' := by
  have hnodes : g'.nodes.map Node.unvisited = g.nodes.map Node.unvisited :=
    congrArg (·.nodes) h
  have hlookup : g'.lookup = g.lookup := congrArg (·.lookup) h
  have hview {β : Type} (view : Node ι α → β) (hf : ∀ n : Node ι α, view n.unvisited = view n) :
      g'.nodes.map view = g.nodes.map view := by
    have hcomp : view ∘ Node.unvisited = view := funext hf
    rw [← hcomp, ← Array.map_map, hnodes, Array.map_map]
  exact ⟨hview (·.id) fun _ => rfl, hview (·.payload) fun _ => rfl,
    hview (·.neighbors) fun _ => rfl, hlookup, directed_congr h⟩

/-- Whatever was done to a graph, forgetting all walks leaves the graph that the quiet operations
alone would have built. A walk changes marks and the clock only, from any graph and however it
ends; and any walk after the marks are forgotten goes as if there had been none before. -/
theorem reset_erases (ops : List (Operation ι α)) :
    ((empty : Graph ι α).after ops).reset = empty.after (ops.filter (·.Quiet)) ∧
      ∀ {σ ε : Type} (o : Observer ι α σ ε) (s : σ) (c : Call),
        (∀ g : Graph ι α, g.SameButMarks (g.walk o s c).graph) ∧
          ((empty : Graph ι α).after ops).reset.walk o s c =
            (empty.after (ops.filter (·.Quiet))).walk o s c ∧
          ((empty : Graph ι α).after ops).reset.calls o s c =
            (empty.after (ops.filter (·.Quiet))).calls o s c := by
  have herased := reset_after (empty : Graph ι α) ops
  rw [reset_empty] at herased
  refine ⟨herased, fun o s c => ⟨?_, by rw [herased], by rw [herased]⟩⟩
  intro g
  exact sameButMarks_of_reset_eq (g.reset_walk o s c)

end Graph

end Precedence
