import Precedence.Graph.Basic
import Precedence.Registry.Declaration
import Precedence.Registry.Options

/-!
# The registry

A registry collects entities, their payloads and their dependencies, in any order: an entity may
be depended on before it is registered. It remembers in which order entities were first
registered, because that order decides between entities that do not depend on each other.
-/

namespace Precedence

/-- Entities and their dependencies, on their way to an order. -/
structure Registry (ι α : Type) [BEq ι] [Hashable ι] where
  /-- An edge leads from an entity to each of its dependencies. -/
  graph : Graph ι α
  /-- The registered entities, in the order of their first registration. -/
  roots : Array NodeIndex
  options : Options

namespace Registry

variable {ι α : Type} [BEq ι] [Hashable ι]

/-- A registry without entities. -/
def empty (options : Options := {}) : Registry ι α := ⟨.empty, #[], options⟩

/-- Register an entity with a payload; returns the payload it replaces. The entity keeps its
place among the roots if it has one, and its dependencies. -/
def addNode (r : Registry ι α) (id : ι) (payload : α) : Registry ι α × Option α :=
  match r with
  | ⟨graph, roots, options⟩ =>
    let (graph, i) := graph.intern id
    let replaced := graph.nodes[i]?.bind (·.payload)
    let roots := if roots.contains i then roots else roots.push i
    (⟨graph.modify i (·.withPayload payload), roots, options⟩, replaced)

/-- Add an edge to an entity's node for each of its dependencies. -/
def link (graph : Graph ι α) (i : NodeIndex) : List ι → Graph ι α
  | [] => graph
  | id :: ids =>
    let (graph, j) := graph.intern id
    link (graph.modify i (·.addNeighbor j)) i ids

/-- Declare that an entity depends on others. Entities that are new are created, and a
dependency that is there already stays where it is. -/
def addDependencies (r : Registry ι α) (id : ι) (ids : List ι) : Registry ι α :=
  match r with
  | ⟨graph, roots, options⟩ =>
    let (graph, i) := graph.intern id
    ⟨link graph i ids, roots, options⟩

/-- Register an entity with a payload and its dependencies. -/
def addDeclaration (r : Registry ι α) (d : Declaration ι α) : Registry ι α :=
  (r.addNode d.id d.payload).1.addDependencies d.id d.dependsOn

/-- Add declarations one after the other. -/
def extend (r : Registry ι α) (ds : List (Declaration ι α)) : Registry ι α :=
  ds.foldl addDeclaration r

/-- The lenient registry of a list of declarations. -/
def ofDeclarations (ds : List (Declaration ι α)) : Registry ι α := empty.extend ds

/-- The number of entities mentioned so far. -/
def size (r : Registry ι α) : Nat := r.graph.size

/-- No entity has been mentioned. -/
def isEmpty (r : Registry ι α) : Bool := r.graph.isEmpty

/-- The entity has been mentioned. -/
def contains (r : Registry ι α) (id : ι) : Bool := (r.graph.find? id).isSome

/-- What an entity depends on, in the order of declaration, or `none` if it has not been
mentioned. -/
def dependenciesOf (r : Registry ι α) (id : ι) : Except OutOfRange (Option (List ι)) :=
  match r.graph.find? id with
  | none => .ok none
  | some i => do
    let n ← r.graph.node i
    let targets ← n.neighbors.mapM r.graph.node
    return some (targets.map (·.id))

/-- The entities that have been mentioned but not registered, in order of first mention. -/
def unresolved (r : Registry ι α) : List ι :=
  (r.graph.nodes.toList.filter (!·.hasPayload)).map (·.id)

end Registry

/-- One call that a registry takes. -/
inductive Registration (ι α : Type) where
  | node (id : ι) (payload : α)
  | dependencies (id : ι) (ids : List ι)
  | declaration (d : Declaration ι α)
  | declarations (ds : List (Declaration ι α))
  deriving Repr

namespace Registry

variable {ι α : Type} [BEq ι] [Hashable ι]

/-- The registry after one more call. -/
def apply (r : Registry ι α) : Registration ι α → Registry ι α
  | .node id payload => (r.addNode id payload).1
  | .dependencies id ids => r.addDependencies id ids
  | .declaration d => r.addDeclaration d
  | .declarations ds => r.extend ds

/-- The registry after a history of calls. -/
def ofHistory (options : Options) (history : List (Registration ι α)) : Registry ι α :=
  history.foldl apply (empty options)

/-- A history in two parts is its first part continued by its second. -/
theorem ofHistory_append (options : Options) (h k : List (Registration ι α)) :
    ofHistory options (h ++ k) = k.foldl apply (ofHistory options h) := by
  simp [ofHistory]

end Registry

end Precedence
