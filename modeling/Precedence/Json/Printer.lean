import Precedence.Json.Value

/-!
# Printing

Values are printed without any space between tokens. In a string quotes, backslashes and
controls are escaped, and every other character stands for itself.
-/

namespace Precedence.Json

/-- A character as it stands in a printed string. -/
def escaped (c : Char) : List Char :=
  match c with
  | '"' => ['\\', '"']
  | '\\' => ['\\', '\\']
  | '\x08' => ['\\', 'b']
  | '\x0c' => ['\\', 'f']
  | '\n' => ['\\', 'n']
  | '\r' => ['\\', 'r']
  | '\t' => ['\\', 't']
  | c =>
    if c.toNat < 0x20 then
      ['\\', 'u', '0', '0', (c.toNat / 16).digitChar, (c.toNat % 16).digitChar]
    else [c]

/-- A printed string. -/
def printText (s : String) : String :=
  String.ofList ('"' :: s.toList.flatMap escaped ++ ['"'])

/-- A printed array of printed items. -/
def printArray (items : List String) : String := "[" ++ ",".intercalate items ++ "]"

/-- A printed object of keys and printed values. -/
def printObject (members : List (String × String)) : String :=
  "\x7b" ++ ",".intercalate (members.map fun m => printText m.1 ++ ":" ++ m.2) ++ "\x7d"

namespace Value

mutual

/-- A printed value. -/
def print : Value → String
  | null => "null"
  | bool true => "true"
  | bool false => "false"
  | number n => n.text
  | text s => printText s
  | array items => printArray (printItems items)
  | object members => printObject (printMembers members)

/-- All items, printed. -/
def printItems : List Value → List String
  | [] => []
  | item :: items => print item :: printItems items

/-- All members with their values printed. -/
def printMembers : List (String × Value) → List (String × String)
  | [] => []
  | (key, value) :: members => (key, print value) :: printMembers members

end

end Value

end Precedence.Json
