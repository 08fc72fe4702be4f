import Precedence.Json.Number

/-!
# Tokens of a document

A document is cut into tokens from left to right, up to the first place where no token can be
read. That place is a token too, so that a reader which never gets there is not disturbed.
-/

namespace Precedence.Json

/-- The smallest parts of a document. -/
inductive Token where
  | openBracket
  | closeBracket
  | openBrace
  | closeBrace
  | comma
  | colon
  | null
  | bool (value : Bool)
  | number (numeral : Numeral)
  /-- A string, or `none` if one of its escapes is half of a surrogate pair. -/
  | text (content : Option String)
  /-- The document cannot be read from here on. -/
  | flaw
  deriving DecidableEq, Repr

/-- A part of a string: a character that stands for itself or is named by a letter, or a
sixteen-bit unit given by its number. -/
inductive Piece where
  | char (c : Char)
  | unit (code : Nat)
  deriving DecidableEq, Repr

namespace Piece

/-- The value of a hexadecimal digit. -/
def hexDigit? (c : Char) : Option Nat :=
  if '0' ≤ c && c ≤ '9' then some (c.toNat - '0'.toNat)
  else if 'a' ≤ c && c ≤ 'f' then some (c.toNat - 'a'.toNat + 10)
  else if 'A' ≤ c && c ≤ 'F' then some (c.toNat - 'A'.toNat + 10)
  else none

/-- The unit that four hexadecimal digits name. -/
def unit? (a b c d : Char) : Option Piece := do
  let a ← hexDigit? a
  let b ← hexDigit? b
  let c ← hexDigit? c
  let d ← hexDigit? d
  return unit (a * 4096 + b * 256 + c * 16 + d)

/-- The character that a letter after a backslash names. -/
def named? : Char → Option Char
  | '"' => some '"'
  | '\\' => some '\\'
  | '/' => some '/'
  | 'b' => some '\x08'
  | 'f' => some '\x0c'
  | 'n' => some '\n'
  | 'r' => some '\r'
  | 't' => some '\t'
  | _ => none

/-- The unit is the first half of a surrogate pair. -/
def isHigh (code : Nat) : Bool := 0xd800 ≤ code && code < 0xdc00

/-- The unit is the second half of a surrogate pair. -/
def isLow (code : Nat) : Bool := 0xdc00 ≤ code && code < 0xe000

/-- The characters of a string, if its surrogates come in pairs. -/
def join : List Piece → Option (List Char)
  | [] => some []
  | .char c :: rest => (join rest).map (c :: ·)
  | .unit high :: .unit low :: rest =>
    if isHigh high && isLow low then
      let c := Char.ofNat (0x10000 + (high - 0xd800) * 0x400 + (low - 0xdc00))
      (join rest).map (c :: ·)
    else if isHigh high || isLow high then none
    else (join (.unit low :: rest)).map (Char.ofNat high :: ·)
  | .unit code :: rest =>
    if isHigh code || isLow code then none else (join rest).map (Char.ofNat code :: ·)

/-- Read a string after its opening quote: its parts and what follows the closing quote. -/
def scan? : List Char → Option (List Piece × List Char)
  | '"' :: rest => some ([], rest)
  | '\\' :: 'u' :: a :: b :: c :: d :: rest => do
    let piece ← unit? a b c d
    let (pieces, rest) ← scan? rest
    return (piece :: pieces, rest)
  | '\\' :: letter :: rest => do
    let c ← named? letter
    let (pieces, rest) ← scan? rest
    return (.char c :: pieces, rest)
  | c :: rest =>
    if c.toNat < 0x20 then none
    else do
      let (pieces, rest) ← scan? rest
      return (.char c :: pieces, rest)
  | [] => none

private theorem length_scan? {cs rest : List Char} {pieces : List Piece}
    (h : scan? cs = some (pieces, rest)) : rest.length < cs.length := by
  fun_induction scan? cs generalizing pieces rest with
  | case1 r => cases h; simp
  | case2 a b c d r ih =>
    simp only [Option.bind_eq_bind, Option.bind_eq_some_iff] at h
    obtain ⟨_, _, ⟨ps, r'⟩, hs, he⟩ := h
    cases he
    have := ih hs
    simp only [List.length_cons]
    omega
  | case3 letter r _ ih =>
    simp only [Option.bind_eq_bind, Option.bind_eq_some_iff] at h
    obtain ⟨_, _, ⟨ps, r'⟩, hs, he⟩ := h
    cases he
    have := ih hs
    simp only [List.length_cons]
    omega
  | case4 c r _ _ _ hc => cases h
  | case5 c r _ _ _ hc ih =>
    simp only [Option.bind_eq_bind, Option.bind_eq_some_iff] at h
    obtain ⟨⟨ps, r'⟩, hs, he⟩ := h
    cases he
    have := ih hs
    simp only [List.length_cons]
    omega
  | case6 => cases h

end Piece

namespace Numeral

/-- The value of a decimal digit. -/
def digitValue (c : Char) : Nat := c.toNat - '0'.toNat

/-- The digits at the front of a text, and the text after them. -/
def digits (cs : List Char) : List Nat × List Char :=
  ((cs.takeWhile Char.isDigit).map digitValue, cs.dropWhile Char.isDigit)

/-- Read the part after a point, which has at least one digit. -/
def fraction? : List Char → Option (Option (List Nat) × List Char)
  | '.' :: rest =>
    match digits rest with
    | ([], _) => none
    | (ds, rest) => some (some ds, rest)
  | rest => some (none, rest)

/-- The sign of an exponent: a minus, a plus or nothing. -/
def exponentSign : List Char → Bool × List Char
  | '-' :: rest => (true, rest)
  | '+' :: rest => (false, rest)
  | rest => (false, rest)

/-- Read an exponent, which has at least one digit. -/
def exponent? : List Char → Option (Option (Bool × List Nat) × List Char)
  | [] => some (none, [])
  | c :: rest =>
    if c = 'e' || c = 'E' then
      let (minus, rest) := exponentSign rest
      match digits rest with
      | ([], _) => none
      | (ds, rest) => some (some (minus, ds), rest)
    else some (none, c :: rest)

/-- Read a numeral after its sign. A leading zero stands alone. -/
def unsigned? (negative : Bool) (cs : List Char) : Option (Numeral × List Char) :=
  match digits cs with
  | ([], _) => none
  | (0 :: _ :: _, _) => none
  | (whole, rest) => do
    let (fraction, rest) ← fraction? rest
    let (exponent, rest) ← exponent? rest
    return (⟨negative, whole, fraction, exponent⟩, rest)

/-- Read a numeral. -/
def scan? : List Char → Option (Numeral × List Char)
  | '-' :: rest => unsigned? true rest
  | cs => unsigned? false cs

private theorem length_digits (cs : List Char) : (digits cs).2.length ≤ cs.length :=
  (List.dropWhile_sublist _).length_le

private theorem length_digits_lt {cs rest : List Char} {d : Nat} {ds : List Nat}
    (h : digits cs = (d :: ds, rest)) : rest.length < cs.length := by
  unfold digits at h
  obtain ⟨ht, rfl⟩ := Prod.mk.inj h
  have hl := congrArg List.length (List.takeWhile_append_dropWhile (p := Char.isDigit) (l := cs))
  have hd := congrArg List.length ht
  simp only [List.length_append, List.length_map, List.length_cons] at hl hd
  omega

private theorem length_fraction? {cs rest : List Char} {f : Option (List Nat)}
    (h : fraction? cs = some (f, rest)) : rest.length ≤ cs.length := by
  unfold fraction? at h
  split at h
  next r =>
    split at h
    next => cases h
    next ds r' hd =>
      cases h
      have := length_digits r
      simp only [hd] at this
      simp only [List.length_cons]
      omega
  next => cases h; exact Nat.le_refl _

private theorem length_exponentSign (cs : List Char) : (exponentSign cs).2.length ≤ cs.length := by
  unfold exponentSign
  split <;> simp

private theorem length_exponent? {cs rest : List Char} {e : Option (Bool × List Nat)}
    (h : exponent? cs = some (e, rest)) : rest.length ≤ cs.length := by
  unfold exponent? at h
  split at h
  next => cases h; exact Nat.le_refl _
  next c r =>
    split at h
    next =>
      dsimp only at h
      split at h
      next => cases h
      next ds r' hd =>
        cases h
        have h1 := length_exponentSign r
        have h2 := length_digits (exponentSign r).2
        simp only [hd] at h2
        simp only [List.length_cons]
        omega
    next => cases h; exact Nat.le_refl _

private theorem length_unsigned? {negative : Bool} {cs rest : List Char} {n : Numeral}
    (h : unsigned? negative cs = some (n, rest)) : rest.length < cs.length := by
  unfold unsigned? at h
  split at h
  next => cases h
  next => cases h
  next whole r hne _ hd =>
    simp only [Option.bind_eq_bind, Option.bind_eq_some_iff] at h
    obtain ⟨⟨f, r1⟩, hf, ⟨e, r2⟩, hx, hr⟩ := h
    cases hr
    have h1 : r1.length ≤ r.length := length_fraction? hf
    have h2 : r2.length ≤ r1.length := length_exponent? hx
    cases whole with
    | nil => exact absurd rfl hne
    | cons d ds =>
      have := length_digits_lt hd
      show r2.length < cs.length
      omega

private theorem length_scan? {cs rest : List Char} {n : Numeral} (h : scan? cs = some (n, rest)) :
    rest.length < cs.length := by
  unfold scan? at h
  split at h
  next r =>
    have := length_unsigned? h
    simp only [List.length_cons]
    omega
  next => exact length_unsigned? h

end Numeral

namespace Token

/-- A character that may stand between tokens. -/
def isBlank (c : Char) : Bool := c = ' ' || c = '\n' || c = '\t' || c = '\r'

/-- Read one token that starts with the character `c`. -/
def next? (c : Char) (cs : List Char) : Option (Token × List Char) :=
  match c, cs with
  | '[', rest => some (openBracket, rest)
  | ']', rest => some (closeBracket, rest)
  | '\x7b', rest => some (openBrace, rest)
  | '\x7d', rest => some (closeBrace, rest)
  | ',', rest => some (comma, rest)
  | ':', rest => some (colon, rest)
  | 'n', 'u' :: 'l' :: 'l' :: rest => some (null, rest)
  | 't', 'r' :: 'u' :: 'e' :: rest => some (bool true, rest)
  | 'f', 'a' :: 'l' :: 's' :: 'e' :: rest => some (bool false, rest)
  | '"', rest => do
    let (pieces, rest) ← Piece.scan? rest
    return (text ((Piece.join pieces).map String.ofList), rest)
  | c, rest => do
    let (n, rest) ← Numeral.scan? (c :: rest)
    return (number n, rest)

private theorem length_next? {c : Char} {cs rest : List Char} {t : Token}
    (h : next? c cs = some (t, rest)) : rest.length ≤ cs.length := by
  unfold next? at h
  split at h
  case h_10 =>
    simp only [Option.bind_eq_bind, Option.bind_eq_some_iff] at h
    obtain ⟨⟨ps, r⟩, hs, he⟩ := h
    cases he
    exact Nat.le_of_lt (Piece.length_scan? hs)
  case h_11 =>
    simp only [Option.bind_eq_bind, Option.bind_eq_some_iff] at h
    obtain ⟨⟨n, r⟩, hs, he⟩ := h
    cases he
    have : r.length < cs.length + 1 := Numeral.length_scan? hs
    exact Nat.le_of_lt_succ this
  all_goals
    cases h
    simp +arith

/-- The tokens of a document, up to its first flaw. -/
def scan (cs : List Char) : List Token :=
  match cs with
  | [] => []
  | c :: rest =>
    if isBlank c then scan rest
    else
      match _h : next? c rest with
      | none => [flaw]
      | some (t, rest') => t :: scan rest'
termination_by cs.length
decreasing_by
  · simp
  · have := length_next? _h
    simp only [List.length_cons]
    omega

/-- An empty document has no tokens. -/
@[simp] theorem scan_nil : scan [] = [] := by
  rw [scan]

/-- A token is followed by the tokens of the text after it. -/
theorem scan_of_next? {c : Char} {cs rest : List Char} {t : Token} (h : isBlank c = false)
    (hn : next? c cs = some (t, rest)) : scan (c :: cs) = t :: scan rest := by
  rw [scan, if_neg (by simp [h])]
  split
  next hs => rw [hn] at hs; cases hs
  next hs => rw [hn] at hs; cases hs; rfl

end Token

end Precedence.Json
