/-!
# Resolution options

A registry is lenient or strict about entities that are depended on but never registered.
-/

namespace Precedence

/-- How a registry is to be resolved. -/
structure Options where
  /-- Entities without a payload are refused. -/
  requirePayloads : Bool := false
  deriving DecidableEq, Repr, Inhabited

namespace Options

/-- Entities without a payload are ordered like all others. -/
def lenient : Options := ⟨false⟩

/-- Entities without a payload are refused. -/
def strict : Options := ⟨true⟩

/-- The options with a choice for entities without a payload. -/
def withRequirePayloads (_ : Options) (require : Bool) : Options := ⟨require⟩

/-- The written form of options that names their type and field. -/
def describe (o : Options) : String :=
  "ResolveOptions \x7b require_payloads: " ++ toString o.requirePayloads ++ " \x7d"

end Options

end Precedence
