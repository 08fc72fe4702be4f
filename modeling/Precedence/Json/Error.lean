import Precedence.Json.Fragment
import Precedence.Text.Quoted

/-!
# What can be wrong with a document

A document is malformed, or it is well formed as far as it was read but says something that its
reader did not expect. Only the second kind has a message.
-/

namespace Precedence.Json

/-- What a reader found where it expected something else. -/
inductive Found where
  | null
  | bool (value : Bool)
  | number (value : Number)
  | text (value : String)
  | array
  | object
  deriving DecidableEq, Repr

/-- Why a document could not be read. -/
inductive Error where
  /-- The text is no document. -/
  | malformed
  /-- A value of the wrong kind. -/
  | invalidType (found : Found) (expected : String)
  /-- A whole number that does not fit. -/
  | invalidValue (value : Int) (expected : String)
  /-- Too few items. -/
  | invalidLength (length : Nat) (expected : String)
  | missingField (name : String)
  | duplicateField (name : String)
  | unknownVariant (name : String) (known : List String)
  deriving DecidableEq, Repr

namespace Found

/-- What was found, in words. -/
def describe : Found → String
  | null => "null"
  | bool value => "boolean `" ++ toString value ++ "`"
  | number (.integer value) => "integer `" ++ toString value ++ "`"
  | number (.floating bits) => "floating point `" ++ Number.floatingText bits ++ "`"
  | text value => "string " ++ Text.quoted value
  | array => "sequence"
  | object => "map"

/-- What a reader finds that looks at a fragment no further than to see what it is. -/
def ofFragment : Fragment → Except Error Found
  | .broken => .error .malformed
  | .null => .ok null
  | .bool value => .ok (bool value)
  | .number numeral => match numeral.value with
    | some value => .ok (number value)
    | none => .error .malformed
  | .text (some content) => .ok (text content)
  | .text none => .error .malformed
  | .array .. => .ok array
  | .object .. => .ok object

end Found

namespace Error

/-- The message of an error, unless the document is malformed. -/
def message? : Error → Option String
  | malformed => none
  | invalidType found expected =>
    some ("invalid type: " ++ found.describe ++ ", expected " ++ expected)
  | invalidValue value expected =>
    some ("invalid value: integer `" ++ toString value ++ "`, expected " ++ expected)
  | invalidLength length expected =>
    some ("invalid length " ++ toString length ++ ", expected " ++ expected)
  | missingField name => some ("missing field `" ++ name ++ "`")
  | duplicateField name => some ("duplicate field `" ++ name ++ "`")
  | unknownVariant name known =>
    some ("unknown variant `" ++ name ++ "`, expected one of " ++
      ", ".intercalate (known.map fun k => "`" ++ k ++ "`"))

/-- The error of a reader that expected something else than the fragment. -/
def unexpected (fragment : Fragment) (expected : String) : Error :=
  match Found.ofFragment fragment with
  | .ok found => invalidType found expected
  | .error e => e

end Error

end Precedence.Json
