import Precedence.Text.Spelled
import Precedence.Traversal.EdgeKind

/-!
# The log

What happened, entry by entry: an entry has a level, a message and named fields. Entries keep
their identifiers as values; they become text only when a log is shown.
-/

namespace Precedence.Log

/-- How much an entry matters. -/
inductive Level where
  | trace
  | debug
  | warn
  deriving DecidableEq, Repr

/-- The written form of a level. -/
def Level.name : Level → String
  | trace => "TRACE"
  | debug => "DEBUG"
  | warn => "WARN"

/-- One thing that happened. -/
inductive Entry (ι : Type) where
  /-- A registry of so many nodes and roots is about to be resolved. -/
  | resolving (nodes roots : Nat) (strict : Bool)
  /-- These identifiers have no payload, and that is an error. -/
  | rejecting (unresolved : List ι)
  /-- These identifiers have no payload, and that is allowed. -/
  | tolerating (unresolved : List ι)
  /-- A walk starts a new tree. -/
  | walking (start : NodeIndex) (directed : Bool)
  /-- A dependency has been looked at. -/
  | dependency (source target : ι) (kind : EdgeKind)
  /-- A dependency closes a cycle. -/
  | cycle (source target : ι)
  /-- An identifier has found its place in the order. -/
  | ordered (id : ι) (position : Nat)
  /-- So many identifiers have been ordered. -/
  | resolved (ordered : Nat)
  deriving DecidableEq, Repr

namespace Entry

variable {ι : Type}

/-- The level of an entry. -/
def level : Entry ι → Level
  | resolving .. => .debug
  | rejecting .. => .warn
  | tolerating .. => .debug
  | walking .. => .trace
  | dependency .. => .trace
  | cycle .. => .warn
  | ordered .. => .trace
  | resolved .. => .debug

/-- The message of an entry. -/
def message : Entry ι → String
  | resolving .. => "resolving dependency order"
  | rejecting .. => "rejecting dependencies without a registered payload"
  | tolerating .. => "ordering dependencies without a registered payload"
  | walking .. => "walking from node"
  | dependency .. => "dependency edge"
  | cycle .. => "dependency cycle detected"
  | ordered .. => "dependency ordered"
  | resolved .. => "dependency order resolved"

/-- The fields of an entry: names and shown values, in order. -/
def fields [Spelled ι] : Entry ι → List (String × String)
  | resolving nodes roots strict =>
    [("nodes", toString nodes), ("roots", toString roots), ("strict", toString strict)]
  | rejecting unresolved => [("unresolved", Spelled.list unresolved)]
  | tolerating unresolved => [("unresolved", Spelled.list unresolved)]
  | walking start directed => [("start", start.label), ("directed", toString directed)]
  | dependency source target kind =>
    [("from", Spelled.quoted source), ("to", Spelled.quoted target), ("kind", kind.name)]
  | cycle source target => [("from", Spelled.quoted source), ("to", Spelled.quoted target)]
  | ordered id position => [("id", Spelled.quoted id), ("position", toString position)]
  | resolved count => [("ordered", toString count)]

end Entry

end Precedence.Log
