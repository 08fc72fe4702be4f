import Precedence.Decimal.Shortest

/-!
# Numbers

A numeral is a number as it is written; its value is a whole number of at most 64 bits or a
binary floating-point number. A value has a fraction part or an exponent, is the negative zero,
or is too large for 64 bits exactly when it is floating point.
-/

namespace Precedence.Json

/-- A number as it is written, as lists of decimal digits. -/
structure Numeral where
  negative : Bool
  whole : List Nat
  fraction : Option (List Nat)
  /-- The sign and the digits of the exponent. -/
  exponent : Option (Bool × List Nat)
  deriving DecidableEq, Repr

/-- The value of a number. -/
inductive Number where
  /-- From `-2 ^ 63` to `2 ^ 64 - 1`. -/
  | integer (value : Int)
  /-- A finite binary number, by its bits. -/
  | floating (bits : UInt64)
  deriving DecidableEq, Repr

namespace Numeral

/-- Take decimal digits into a number as long as it fits 64 bits; returns the digits left. -/
def gather (n : Nat) : List Nat → Nat × List Nat
  | [] => (n, [])
  | digit :: digits =>
    if n * 10 + digit < Nat.pow 2 64 then gather (n * 10 + digit) digits else (n, digit :: digits)

/-- A power of ten as a floating-point number. -/
def power (n : Nat) : Float := Float.ofScientific 1 false n

/-- Divide by a power of ten, by at most the largest that is finite at a time. -/
def divide (x : Float) (n : Nat) : Float :=
  if n ≤ 308 then x / power n
  else if x == 0 then x
  else divide (x / power 308) (n - 308)
termination_by n

/-- Scale a whole number by a power of ten, unless the result is too large. -/
def scaled (n : Nat) (exponent : Int) : Option Float :=
  let x := n.toUInt64.toFloat
  if exponent < 0 then some (divide x (-exponent).toNat)
  else if n = 0 then some x
  else if 308 < exponent then none
  else
    let y := x * power exponent.toNat
    if y.isInf then none else some y

/-- The number that a list of digits stands for. -/
def ofDigits (digits : List Nat) : Nat := digits.foldl (fun n digit => n * 10 + digit) 0

/-- The floating-point value of a numeral, without its sign. Digits that do not fit 64 bits
count for the magnitude only. -/
def magnitude (n : Numeral) : Option Float :=
  let (kept, dropped) := gather 0 n.whole
  let (significand, ignored) := gather kept (n.fraction.getD [])
  let point : Int := dropped.length - (((n.fraction.getD []).length : Int) - ignored.length)
  match n.exponent with
  | none => scaled significand point
  | some (minus, digits) =>
    let exponent := ofDigits digits
    if exponent < Nat.pow 2 31 then
      scaled significand (if minus then point - exponent else point + exponent)
    else if significand = 0 || minus then some 0
    else none

/-- The value of a numeral, unless it is too large. -/
def value (n : Numeral) : Option Number :=
  let floating := n.magnitude.map fun x => .floating (if n.negative then -x else x).toBits
  match n.fraction, n.exponent, gather 0 n.whole with
  | none, none, (whole, []) =>
    if !n.negative then some (.integer whole)
    else if whole = 0 || Nat.pow 2 63 < whole then floating
    else some (.integer (-whole))
  | _, _, _ => floating

end Numeral

namespace Number

/-- An exponent of ten as it is written, always with a sign. -/
def exponentText (n : Int) : String := if n < 0 then toString n else "+" ++ toString n

/-- Where digits and point stand in the text of a floating-point number: positional while the
point is at most sixteen places right of where the digits begin, or at most four left of it,
and with an exponent otherwise. -/
def layout (d : Decimal) : String :=
  let digits := toString d.digits
  let point : Int := digits.length + d.exponent
  if 0 ≤ d.exponent && point ≤ 16 then
    digits ++ "".pushn '0' d.exponent.toNat ++ ".0"
  else if 0 < point && point ≤ 16 then
    (digits.take point.toNat).copy ++ "." ++ (digits.drop point.toNat).copy
  else if -5 < point && point ≤ 0 then
    "0." ++ "".pushn '0' (-point).toNat ++ digits
  else if digits.length = 1 then
    digits ++ "e" ++ exponentText (point - 1)
  else
    (digits.take 1).copy ++ "." ++ (digits.drop 1).copy ++ "e" ++ exponentText (point - 1)

/-- The text of a finite floating-point number, given by its bits: the fewest digits that read
back, and always a point or an exponent. -/
def floatingText (bits : UInt64) : String :=
  let sign := if bits.toNat < Nat.pow 2 63 then "" else "-"
  match Decimal.shortest bits with
  | none => sign ++ "0.0"
  | some d => sign ++ layout d

/-- The text of a number. -/
def text : Number → String
  | integer value => toString value
  | floating bits => floatingText bits

end Number

end Precedence.Json
