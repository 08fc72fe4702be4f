import Precedence.Text.Quoted
import Precedence.Text.CaseFolded

/-!
# How identifiers are written in messages and logs

Messages name an identifier as it is spelled, lists and logs quote it where it is text.
-/

namespace Precedence

/-- An identifier that can be shown in messages and logs. -/
class Spelled (ι : Type) where
  /-- As spelled. -/
  plain : ι → String
  /-- So that its extent is plain to see. -/
  quoted : ι → String

namespace Spelled

instance : Spelled String := ⟨fun s => s, Text.quoted⟩

instance : Spelled Text.CaseFolded := ⟨fun t => t.spelling, fun t => Text.quoted t.spelling⟩

instance : Spelled Int64 := ⟨fun n => toString n.toInt, fun n => toString n.toInt⟩

/-- A list of identifiers, each quoted. -/
def list {ι : Type} [Spelled ι] (ids : List ι) : String := Text.bracketed (ids.map quoted)

end Spelled

end Precedence
