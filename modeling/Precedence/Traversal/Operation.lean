import Precedence.Traversal.Call

/-!
# Operations on a graph

Whoever holds a graph may grow it, choose its mode, edit payloads, walk it and forget all walks, in
any order and any number of times. An operation that fails changes nothing; a walk that is cut short
leaves what it recorded until then.
-/

namespace Precedence

/-- What may be done to a graph. -/
inductive Operation (ι α : Type) : Type 1 where
  /-- Find an identifier's node, or create it. -/
  | intern (id : ι)
  /-- Add an edge. -/
  | addEdge (source target : NodeIndex)
  /-- Choose whether edges lead one way only. -/
  | setDirected (directed : Bool)
  /-- Give a node a payload. -/
  | setPayload (i : NodeIndex) (payload : α)
  /-- Remove a node's payload. -/
  | takePayload (i : NodeIndex)
  /-- Change a node's payload in place. -/
  | updatePayload (i : NodeIndex) (f : α → α)
  /-- Walk, with any observer in any state. -/
  | walk {σ ε : Type} (o : Observer ι α σ ε) (s : σ) (c : Call)
  /-- Forget all walks. -/
  | reset

namespace Graph

variable {ι α β : Type} [BEq ι] [Hashable ι]

/-- The graph after a change that may fail: a failure leaves the old one. -/
def settle (g : Graph ι α) : Except OutOfRange (Graph ι α × β) → Graph ι α
  | .ok (g', _) => g'
  | .error _ => g

/-- The graph that an operation leaves. -/
def apply (g : Graph ι α) : Operation ι α → Graph ι α
  | .intern id => (g.intern id).1
  | .addEdge source target => g.settle (g.addEdge source target)
  | .setDirected directed => g.setDirected directed
  | .setPayload i payload => g.settle (g.setPayload i payload)
  | .takePayload i => g.settle (g.takePayload i)
  | .updatePayload i f => g.settle (g.updatePayload i f)
  | .walk o s c => (g.walk o s c).graph
  | .reset => g.reset

/-- The graph that operations leave, one after the other. -/
def after (g : Graph ι α) (ops : List (Operation ι α)) : Graph ι α := ops.foldl apply g

private theorem settle_exchange (g : Graph ι α) (i : NodeIndex) (f : Node ι α → Node ι α)
    (view : Node ι α → β) : g.settle (g.exchange i f view) = g.modify i f := by
  unfold exchange
  split
  next n h => rfl
  next h =>
    have hmodify : g.nodes.modify i f = g.nodes := by
      apply Array.ext_getElem?
      intro k
      rw [Array.getElem?_modify]
      split
      next hik => simp [← hik, h]
      next => rfl
    simp only [settle, modify, hmodify]

section
variable (g : Graph ι α) (i : NodeIndex)

/-- To add an edge is to change its source. -/
theorem apply_addEdge (j : NodeIndex) :
    g.apply (.addEdge i j) = g.modify i (·.addNeighbor j) :=
  g.settle_exchange i _ _

/-- To give a node a payload is to change it. -/
theorem apply_setPayload (payload : α) :
    g.apply (.setPayload i payload) = g.modify i (·.withPayload payload) :=
  g.settle_exchange i _ _

/-- To take a payload is to change its node. -/
theorem apply_takePayload : g.apply (.takePayload i) = g.modify i (·.withoutPayload) :=
  g.settle_exchange i _ _

/-- To change a payload in place is to change its node. -/
theorem apply_updatePayload (f : α → α) :
    g.apply (.updatePayload i f) = g.modify i (·.mapPayload f) :=
  g.settle_exchange i _ _

end

/-- Operations may be carried out in two parts. -/
theorem after_append (g : Graph ι α) (ops ops' : List (Operation ι α)) :
    g.after (ops ++ ops') = (g.after ops).after ops' :=
  List.foldl_append

end Graph

end Precedence
