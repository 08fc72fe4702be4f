import Precedence.Registry.Basic
import Precedence.Resolution.Error
import Precedence.Traversal.Walk
import Precedence.Log

/-!
# Resolving a registry

The order of a registry is the order in which a depth-first walk along its dependencies leaves
the nodes: a node is left after everything it depends on. The walk starts at the registered
entities in the order of their registration, then at all others. The first edge that closes a
cycle ends the walk.
-/

namespace Precedence

/-- The order of a registry. -/
structure Resolution (ι α : Type) [BEq ι] [Hashable ι] where
  /-- The graph of the registry, walked. -/
  graph : Graph ι α
  /-- All nodes, each after its dependencies. -/
  order : Array NodeIndex

/-- What resolving a registry leaves behind. -/
structure Report (ι α : Type) [BEq ι] [Hashable ι] where
  log : Array (Log.Entry ι)
  result : Except (Interruption (ResolveError ι)) (Resolution ι α)

/-- The nodes left so far, and the log. -/
structure Collection (ι : Type) where
  order : Array NodeIndex := #[]
  log : Array (Log.Entry ι) := #[]

/-- Collects the nodes in the order in which they are left, and stops at a back edge. -/
def collector {ι α : Type} : Observer ι α (Collection ι) (ResolveError ι) where
  start i directed
    | ⟨order, log⟩ => ⟨order, log.push (.walking i directed)⟩
  notice
    | .enter .., c => (c, none)
    | .edge source target kind, ⟨order, log⟩ =>
      let log := log.push (.dependency source.id target.id kind)
      if kind.isBack then
        (⟨order, log.push (.cycle source.id target.id)⟩, some (.cycle source.id target.id))
      else (⟨order, log⟩, none)
    | .leave i n, ⟨order, log⟩ =>
      let position := order.size
      (⟨order.push i, log.push (.ordered n.id position)⟩, none)

namespace Registry

variable {ι α : Type} [BEq ι] [Hashable ι]

/-- Where the walk starts: the registered entities, then every entity. -/
def starts (r : Registry ι α) : List NodeIndex := r.roots.toList ++ List.range r.size

/-- Walk the registry and collect the order, going on with a log. -/
def collect (r : Registry ι α) (log : Array (Log.Entry ι)) : Report ι α :=
  match r.graph.walkEach collector { log } r.starts with
  | ⟨graph, ⟨order, log⟩, .ok ()⟩ => ⟨log.push (.resolved order.size), .ok ⟨graph, order⟩⟩
  | ⟨_, ⟨_, log⟩, .error e⟩ => ⟨log, .error e⟩

/-- Resolve a registry, and tell what happened on the way. -/
def report (r : Registry ι α) : Report ι α :=
  let log := #[.resolving r.size r.roots.size r.options.requirePayloads]
  match r.unresolved with
  | [] => r.collect log
  | id :: ids =>
    if r.options.requirePayloads then
      ⟨log.push (.rejecting (id :: ids)), .error (.stopped (.unresolved (id :: ids)))⟩
    else r.collect (log.push (.tolerating (id :: ids)))

/-- Resolve a registry. -/
def resolve (r : Registry ι α) : Except (Interruption (ResolveError ι)) (Resolution ι α) :=
  r.report.result

end Registry

namespace Resolution

variable {ι α : Type} [BEq ι] [Hashable ι]

/-- The number of nodes in the order. -/
def size (r : Resolution ι α) : Nat := r.order.size

/-- There is nothing to order. -/
def isEmpty (r : Resolution ι α) : Bool := r.order.isEmpty

/-- The nodes in order. -/
def nodes (r : Resolution ι α) : Except OutOfRange (List (Node ι α)) :=
  r.order.toList.mapM r.graph.node

/-- The identifiers in order. -/
def ids (r : Resolution ι α) : Except OutOfRange (List ι) := do
  return (← r.nodes).map (·.id)

/-- The payloads in order. -/
def payloads (r : Resolution ι α) : Except OutOfRange (List (Option α)) := do
  return (← r.nodes).map (·.payload)

/-- Take the payloads out of a graph one by one. -/
def drain (graph : Graph ι α) : List NodeIndex → Except OutOfRange (List (Option α))
  | [] => .ok []
  | i :: order => do
    let (graph, payload) ← graph.takePayload i
    return payload :: (← drain graph order)

/-- The payloads in order, taken out of the graph. -/
def intoPayloads (r : Resolution ι α) : Except OutOfRange (List (Option α)) :=
  drain r.graph r.order.toList

/-- The position of an entity in the order. -/
def position? (r : Resolution ι α) (id : ι) : Option Nat :=
  (r.graph.find? id).bind (r.order.idxOf? ·)

end Resolution

end Precedence
