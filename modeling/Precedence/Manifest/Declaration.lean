import Precedence.Json.Format
import Precedence.Registry.Declaration

/-!
# Declarations in documents

A declaration is written as an object with the members `id`, `data` and `depends_on`, which are
read in any order. Each may be given once; a missing `depends_on` declares nothing, and a missing
`id` or `data` counts where its format has a value for what is absent. An array gives the members
by position.
-/

namespace Precedence.Manifest

open Json Json.Format

/-- The members of a declaration that have been read so far. -/
structure Draft (ι α : Type) where
  id : Option ι := none
  payload : Option α := none
  dependsOn : Option (List ι) := none
  deriving Repr

namespace Declaration

variable {ι α : Type} [Format ι] [Format α]

/-- The type that messages name. -/
def expected : String := "struct DependencyDeclaration"

/-- The type and length that messages name. -/
def expectedItems : String := expected ++ " with 3 elements"

/-- Read one member. A member that is no part of a declaration is passed over. -/
def readMember (depth : Nat) (draft : Draft ι α) (key : String) (value : Fragment) :
    Except Error (Draft ι α) :=
  if key = "id" then
    if draft.id.isSome then .error (.duplicateField key)
    else do return { draft with id := some (← Format.read depth value) }
  else if key = "data" then
    if draft.payload.isSome then .error (.duplicateField key)
    else do return { draft with payload := some (← Format.read depth value) }
  else if key = "depends_on" then
    if draft.dependsOn.isSome then .error (.duplicateField key)
    else do return { draft with dependsOn := some (← Format.read depth value) }
  else .ok draft

/-- Read members in the order of the text. -/
def readMembers (depth : Nat) (draft : Draft ι α) :
    List (Option String × Fragment) → Except Error (Draft ι α)
  | [] => .ok draft
  | (some key, value) :: members => do
    let draft ← readMember depth draft key value
    readMembers depth draft members
  | (none, _) :: _ => .error .malformed

/-- What a member was read as, or else what stands for it if it is missing. -/
def required {β : Type} [Format β] (key : String) (member : Option β) : Except Error β :=
  match member <|> Format.absent with
  | some value => .ok value
  | none => .error (.missingField key)

/-- The declaration of the members read, once the object is at its end. -/
def ofDraft (draft : Draft ι α) : Except Error (Precedence.Declaration ι α) := do
  let id ← required "id" draft.id
  let payload ← required "data" draft.payload
  return ⟨id, payload, draft.dependsOn.getD []⟩

/-- Read the members by position. -/
def readItems (depth : Nat) (closed : Bool) :
    List Fragment → Except Error (Precedence.Declaration ι α)
  | [] => do
    closing closed
    throw (.invalidLength 0 expectedItems)
  | [id] => do
    let _ : ι ← Format.read depth id
    closing closed
    throw (.invalidLength 1 expectedItems)
  | [id, payload] => do
    let id ← Format.read depth id
    let payload ← Format.read depth payload
    closing closed
    return ⟨id, payload, []⟩
  | id :: payload :: dependsOn :: rest => do
    let id ← Format.read depth id
    let payload ← Format.read depth payload
    let dependsOn ← Format.read depth dependsOn
    closing (closed && rest.isEmpty)
    return ⟨id, payload, dependsOn⟩

/-- Read a declaration from an object or an array. -/
def read (depth : Nat) : Fragment → Except Error (Precedence.Declaration ι α)
  | .object members closed => do
    let depth ← opening depth
    let draft ← readMembers depth {} members
    closing closed
    ofDraft draft
  | .array items closed => do
    let depth ← opening depth
    readItems depth closed items
  | fragment => .error (.unexpected fragment expected)

instance : Format (Precedence.Declaration ι α) where
  read := read
  print d := printObject
    [("id", Format.print d.id), ("data", Format.print d.payload),
      ("depends_on", Format.print d.dependsOn)]

end Declaration

end Precedence.Manifest
