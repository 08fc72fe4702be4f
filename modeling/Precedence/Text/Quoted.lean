import Precedence.Text.Invisible
import Precedence.Text.Combining

/-!
# Quoted text

Text between double quotes in which everything that a reader could not see or tell apart is
written as an escape: quotes and backslashes, the common controls by their letters, and
invisible or combining characters by their code point.
-/

namespace Precedence.Text

/-- A character as it stands between double quotes. -/
def escaped (c : Char) : List Char :=
  match c with
  | '"' => ['\\', '"']
  | '\\' => ['\\', '\\']
  | '\n' => ['\\', 'n']
  | '\r' => ['\\', 'r']
  | '\t' => ['\\', 't']
  | '\x00' => ['\\', '0']
  | c =>
    if isInvisible c || isCombining c then
      ['\\', 'u', '\x7b'] ++ Nat.toDigits 16 c.toNat ++ ['\x7d']
    else [c]

/-- Text between double quotes, with escapes. -/
def quoted (s : String) : String :=
  String.ofList ('"' :: s.toList.flatMap escaped ++ ['"'])

/-- Items between square brackets, with a comma and a space between them. -/
def bracketed (items : List String) : String := "[" ++ ", ".intercalate items ++ "]"

end Precedence.Text
