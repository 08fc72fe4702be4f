import Precedence.Json.Token

/-!
# Documents as far as they can be read

A fragment is what a document says before its first flaw. Arrays and objects that the flaw
leaves open say so, and what stands at the flaw itself is `broken`. A reader that looks at a
fragment from left to right therefore meets exactly what it would meet in the text, and whether
it reaches the flaw is its own affair.

Fragments are assembled in one pass over the tokens, with the open containers on a stack, so
the depth of a document is not limited here.
-/

namespace Precedence.Json

/-- A document up to its first flaw. -/
inductive Fragment where
  /-- The flaw. -/
  | broken
  | null
  | bool (value : Bool)
  | number (numeral : Numeral)
  /-- A string, or `none` if one of its escapes is half of a surrogate pair. -/
  | text (content : Option String)
  /-- An array, and whether its closing bracket was found. -/
  | array (items : List Fragment) (closed : Bool)
  /-- The members of an object in the order of the text, and whether its closing brace was
  found. A key is `none` if one of its escapes is half of a surrogate pair. -/
  | object (members : List (Option String × Fragment)) (closed : Bool)
  deriving Repr, Inhabited

/-- A container whose end has not been reached, with its parts in reverse. -/
inductive Opened where
  | array (items : List Fragment)
  /-- An object in which the value of a key is due. -/
  | object (members : List (Option String × Fragment)) (key : Option String)
  deriving Repr

/-- What has to come next in a document. -/
inductive Expecting where
  /-- A value. -/
  | value
  /-- The first item of an array, or its end. -/
  | item
  /-- The first key of an object, or its end; the members so far. -/
  | member
  /-- A further key of an object with these members. -/
  | key (members : List (Option String × Fragment))
  /-- The colon after a key of an object with these members. -/
  | colon (members : List (Option String × Fragment)) (key : Option String)
  /-- A comma or the end of the innermost array with these items. -/
  | afterItem (items : List Fragment)
  /-- A comma or the end of the innermost object with these members. -/
  | afterMember (members : List (Option String × Fragment))
  deriving Repr

namespace Fragment

/-- The containers around a place, all left open. -/
def within (part : Fragment) : List Opened → Fragment
  | [] => part
  | .array items :: outer => within (array (part :: items).reverse false) outer
  | .object members key :: outer => within (object ((key, part) :: members).reverse false) outer

/-- The token as a value of its own. -/
def ofToken? : Token → Option Fragment
  | .null => some null
  | .bool value => some (bool value)
  | .number numeral => some (number numeral)
  | .text content => some (text content)
  | _ => none

/-- The fragment when a flaw is met while `expecting` inside the containers `outer`. -/
def breakOff (outer : List Opened) : Expecting → Fragment
  | .value => within broken outer
  | .item => within (array [] false) outer
  | .member => within (object [] false) outer
  | .key members => within (object members.reverse false) outer
  | .colon members key => within (object ((key, broken) :: members).reverse false) outer
  | .afterItem items => within (array items.reverse false) outer
  | .afterMember members => within (object members.reverse false) outer

/-- What is expected after a complete value inside the containers `outer`, and what is then
around it; nothing, after a complete document. -/
def resume (value : Fragment) : List Opened → Option (Expecting × List Opened)
  | [] => none
  | .array items :: outer => some (.afterItem (value :: items), outer)
  | .object members key :: outer => some (.afterMember ((key, value) :: members), outer)

/-- Assemble the tokens of a document into a fragment; says too whether the document is complete
and nothing follows it. -/
def assemble (expecting : Expecting) (outer : List Opened) : List Token → Fragment × Bool
  | [] => (breakOff outer expecting, false)
  | token :: tokens =>
    let complete (value : Fragment) (outer : List Opened) : Fragment × Bool :=
      match resume value outer with
      | some (expecting, outer) => assemble expecting outer tokens
      | none => (value, tokens.isEmpty)
    let start (outer : List Opened) : Fragment × Bool :=
      match token with
      | .openBracket => assemble .item outer tokens
      | .openBrace => assemble .member outer tokens
      | token =>
        match ofToken? token with
        | some value => complete value outer
        | none => (breakOff outer .value, false)
    match expecting, token with
    | .value, _ => start outer
    | .item, .closeBracket => complete (array [] true) outer
    | .item, _ => start (.array [] :: outer)
    | .member, .closeBrace => complete (object [] true) outer
    | .member, .text key => assemble (.colon [] key) outer tokens
    | .key members, .text key => assemble (.colon members key) outer tokens
    | .colon members key, .colon => assemble .value (.object members key :: outer) tokens
    | .afterItem items, .comma => assemble .value (.array items :: outer) tokens
    | .afterItem items, .closeBracket => complete (array items.reverse true) outer
    | .afterMember members, .comma => assemble (.key members) outer tokens
    | .afterMember members, .closeBrace => complete (object members.reverse true) outer
    | expecting, _ => (breakOff outer expecting, false)

/-- The fragment of a text, and whether the text is one complete document. -/
def ofString (text : String) : Fragment × Bool := assemble .value [] (Token.scan text.toList)

end Fragment

end Precedence.Json
