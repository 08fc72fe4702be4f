import Precedence.Json.Fragment

/-!
# Values

A value is what a document means: numbers by their value, strings by their characters, and the
members of an object by key, where a repeated key counts with its last value. Members are kept
in the order of their keys, so that equal objects are the same value.
-/

namespace Precedence.Json

/-- The value of a document. -/
inductive Value where
  | null
  | bool (value : Bool)
  | number (value : Number)
  | text (value : String)
  | array (items : List Value)
  /-- The members in the order of their keys, no key twice. -/
  | object (members : List (String × Value))
  deriving Repr, Inhabited

namespace Value

mutual

/-- Two values are the same. -/
def same : Value → Value → Bool
  | null, null => true
  | bool a, bool b => a == b
  | number m, number n => m == n
  | text s, text t => s == t
  | array xs, array ys => sameItems xs ys
  | object ms, object ns => sameMembers ms ns
  | _, _ => false

/-- Two lists of items are the same, one by one. -/
def sameItems : List Value → List Value → Bool
  | [], [] => true
  | x :: xs, y :: ys => same x y && sameItems xs ys
  | _, _ => false

/-- Two lists of members are the same, one by one. -/
def sameMembers : List (String × Value) → List (String × Value) → Bool
  | [], [] => true
  | (j, x) :: ms, (k, y) :: ns => j == k && same x y && sameMembers ms ns
  | _, _ => false

end

instance : BEq Value := ⟨same⟩

/-- Put a member among members in the order of their keys, in the place of one with its key. -/
def insert (key : String) (value : Value) : List (String × Value) → List (String × Value)
  | [] => [(key, value)]
  | (k, v) :: members =>
    if key < k then (key, value) :: (k, v) :: members
    else if key = k then (key, value) :: members
    else (k, v) :: insert key value members

/-- The object with the given members, of which the last with a key counts. -/
def ofMembers (members : List (String × Value)) : Value :=
  object (members.foldl (fun ms m => insert m.1 m.2 ms) [])

mutual

/-- The value of a fragment that has no flaw, nests at most `depth` containers, and whose
strings and numbers can be represented. -/
def ofFragment? (depth : Nat) : Fragment → Option Value
  | .broken => none
  | .null => some null
  | .bool value => some (bool value)
  | .number numeral => numeral.value.map number
  | .text content => content.map text
  | .array items closed =>
    match depth with
    | 0 => none
    | depth + 1 => if closed then (itemsOf? depth items).map array else none
  | .object members closed =>
    match depth with
    | 0 => none
    | depth + 1 => if closed then (membersOf? depth members).map ofMembers else none

/-- The values of all items. -/
def itemsOf? (depth : Nat) : List Fragment → Option (List Value)
  | [] => some []
  | item :: items => do
    let value ← ofFragment? depth item
    let values ← itemsOf? depth items
    return value :: values

/-- The keys and values of all members. -/
def membersOf? (depth : Nat) : List (Option String × Fragment) → Option (List (String × Value))
  | [] => some []
  | (some key, item) :: members => do
    let value ← ofFragment? depth item
    let values ← membersOf? depth members
    return (key, value) :: values
  | (none, _) :: _ => none

end

end Value

end Precedence.Json
