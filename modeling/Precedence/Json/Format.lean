import Precedence.Json.Error
import Precedence.Json.Printer
import Precedence.Text.CaseFolded

/-!
# How types are written in documents

A format reads fragments from left to right and reports the first failure it meets; it prints
values in the compact form. Reading takes the number of containers that may still be opened,
and a reader that opens one more is stopped as if the text were malformed. Members that a
reader does not know are passed over whatever they hold and however deep they are.
-/

namespace Precedence.Json

/-- How values of a type are written in documents. -/
class Format (α : Type) where
  /-- Read a fragment in which at most so many containers may be opened. -/
  read : Nat → Fragment → Except Error α
  /-- What a missing member stands for, if anything. -/
  absent : Option α := none
  /-- The compact text of a value. -/
  print : α → String

/-- How many containers may be open at a time. -/
def depthLimit : Nat := 127

/-- Read a text as one complete document. What was read before the end of the document counts
before what is wrong with the end. -/
def parse {α : Type} [Format α] (text : String) : Except Error α :=
  match Fragment.ofString text with
  | (fragment, complete) => do
    let value ← Format.read depthLimit fragment
    if complete then return value else throw .malformed

namespace Format

/-- The number of containers that may be opened inside one more. -/
def opening : Nat → Except Error Nat
  | 0 => .error .malformed
  | depth + 1 => .ok depth

/-- A container whose end was not reached is malformed. -/
def closing (closed : Bool) : Except Error Unit :=
  if closed then .ok () else .error .malformed

instance : Format Value where
  read depth fragment :=
    match Value.ofFragment? depth fragment with
    | some value => .ok value
    | none => .error .malformed
  print := Value.print

instance : Format String where
  read
    | _, .text (some content) => .ok content
    | _, fragment => .error (.unexpected fragment "a string")
  print := printText

instance : Format Text.CaseFolded where
  read depth fragment := (read (α := String) depth fragment).map Text.CaseFolded.mk
  print t := printText t.spelling

instance : Format Bool where
  read
    | _, .bool value => .ok value
    | _, fragment => .error (.unexpected fragment "a boolean")
  print value := toString value

instance : Format Unit where
  read
    | _, .null => .ok ()
    | _, fragment => .error (.unexpected fragment "unit")
  print _ := "null"

instance : Format Int64 where
  read
    | _, .number numeral =>
      match numeral.value with
      | some (.integer value) =>
        if value < Int.pow 2 63 then .ok (Int64.ofInt value) else .error (.invalidValue value "i64")
      | _ => .error (.unexpected (.number numeral) "i64")
    | _, fragment => .error (.unexpected fragment "i64")
  print n := toString n.toInt

instance {α : Type} [Format α] : Format (Option α) where
  read
    | _, .null => .ok none
    | depth, fragment => (read depth fragment).map some
  absent := some none
  print
    | none => "null"
    | some value => print value

/-- Read items one after the other. -/
def readItems {α : Type} [Format α] (depth : Nat) : List Fragment → Except Error (List α)
  | [] => .ok []
  | item :: items => do
    let value ← read depth item
    let values ← readItems depth items
    return value :: values

instance {α : Type} [Format α] : Format (List α) where
  read
    | depth, .array items closed => do
      let depth ← opening depth
      let values ← readItems depth items
      closing closed
      return values
    | _, fragment => .error (.unexpected fragment "a sequence")
  print values := printArray (values.map print)

/-- The one of `all` with a name, or the error that tells all names. -/
def named {α : Type} (all : List α) (name : α → String) (wanted : String) : Except Error α :=
  match all.find? fun a => name a == wanted with
  | some a => .ok a
  | none => .error (.unknownVariant wanted (all.map name))

/-- The format of a type with finitely many values that are written by name, or as an object
whose only key is the name and whose value is `null`. -/
@[reducible] def ofNames {α : Type} (all : List α) (name : α → String) : Format α where
  read
    | _, .text (some content) => named all name content
    | depth, .object members closed => do
      let _ ← opening depth
      match members with
      | (some key, value) :: rest => do
        let a ← named all name key
        let () ← read depth value
        closing (closed && rest.isEmpty)
        return a
      | _ => throw .malformed
    | _, _ => .error .malformed
  print a := printText (name a)

end Format

end Precedence.Json
