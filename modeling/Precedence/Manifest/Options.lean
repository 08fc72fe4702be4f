import Precedence.Json.Format
import Precedence.Registry.Options

/-!
# Options in documents

Options are written as an object. Any field may be missing, and an array gives the fields by
position.
-/

namespace Precedence.Manifest

open Json Json.Format

namespace Options

/-- The type that messages name. -/
def expected : String := "struct ResolveOptions"

/-- The name of the only field. -/
def field : String := "require_payloads"

/-- Read the members of an object, of which one may be the field. -/
def readMembers (depth : Nat) (found : Option Bool) :
    List (Option String × Fragment) → Except Error (Option Bool)
  | [] => .ok found
  | (some key, value) :: members =>
    if key = field then
      if found.isSome then .error (.duplicateField field)
      else do readMembers depth (some (← read depth value)) members
    else readMembers depth found members
  | (none, _) :: _ => .error .malformed

/-- Read options from an object or an array. -/
def read (depth : Nat) : Fragment → Except Error Precedence.Options
  | .object members closed => do
    let depth ← opening depth
    let found ← readMembers depth none members
    closing closed
    return ⟨found.getD false⟩
  | .array [] closed => do
    let _ ← opening depth
    closing closed
    return {}
  | .array (item :: items) closed => do
    let depth ← opening depth
    let require ← Format.read depth item
    closing (closed && items.isEmpty)
    return ⟨require⟩
  | fragment => .error (.unexpected fragment expected)

end Options

instance : Json.Format Precedence.Options where
  read := Options.read
  print o := printObject [(Options.field, Format.print o.requirePayloads)]

end Precedence.Manifest
