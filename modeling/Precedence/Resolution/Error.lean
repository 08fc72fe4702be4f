import Precedence.Text.Spelled

/-!
# Why a registry has no order

Either its dependencies run in a circle, or it is strict and entities are missing.
-/

namespace Precedence

/-- The reason why a registry cannot be resolved. -/
inductive ResolveError (ι : Type) where
  /-- The dependency of `source` on `target` closes a cycle. -/
  | cycle (source target : ι)
  /-- These entities were depended on but never registered. -/
  | unresolved (ids : List ι)
  deriving BEq, Repr

namespace ResolveError

variable {ι : Type}

/-- The error is a cycle. -/
def isCycle : ResolveError ι → Bool
  | cycle .. => true
  | unresolved _ => false

/-- The two ends of the dependency that closes a cycle. -/
def endpoints? : ResolveError ι → Option (ι × ι)
  | cycle source target => some (source, target)
  | unresolved _ => none

/-- The message of an error: the ends of a cycle as they are spelled, a list quoted. -/
def message [Spelled ι] : ResolveError ι → String
  | cycle source target =>
    "dependency cycle detected between " ++ Spelled.plain source ++ " and " ++
      Spelled.plain target
  | unresolved ids => "dependencies referenced but never registered: " ++ Spelled.list ids

/-- The written form of an error that names its cause and fields. -/
def describe [Spelled ι] : ResolveError ι → String
  | cycle source target =>
    "Cycle \x7b from: " ++ Spelled.quoted source ++ ", to: " ++ Spelled.quoted target ++ " \x7d"
  | unresolved ids => "UnresolvedDependencies \x7b ids: " ++ Spelled.list ids ++ " \x7d"

end ResolveError

end Precedence
