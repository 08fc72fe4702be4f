import Std.Data.HashMap

/-!
# Text compared without ASCII case

Two spellings are the same when they differ only in the case of ASCII letters. Either spelling
stays as it is written.
-/

namespace Precedence.Text

/-- Text whose equality ignores the case of ASCII letters. -/
structure CaseFolded where
  spelling : String
  deriving Repr

namespace CaseFolded

/-- What is compared: the spelling with its ASCII letters in lower case. -/
def folded (t : CaseFolded) : String := t.spelling.map Char.toLower

instance : BEq CaseFolded := ⟨fun s t => s.folded == t.folded⟩

instance : Hashable CaseFolded := ⟨fun t => hash t.folded⟩

/-- Two spellings are the same when they fold to the same text. -/
theorem beq_iff {s t : CaseFolded} : (s == t) = true ↔ s.folded = t.folded :=
  beq_iff_eq (α := String)

instance : EquivBEq CaseFolded where
  rfl := beq_iff.2 rfl
  symm h := beq_iff.2 (beq_iff.1 h).symm
  trans h k := beq_iff.2 ((beq_iff.1 h).trans (beq_iff.1 k))

instance : LawfulHashable CaseFolded where
  hash_eq _ _ h := congrArg (fun text : String => hash text) (beq_iff.1 h)

end CaseFolded

end Precedence.Text
