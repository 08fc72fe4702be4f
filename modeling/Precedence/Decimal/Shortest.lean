/-!
# The shortest decimal of a binary number

A binary number with 53 significant bits stands for all reals that round to it. Among the
decimals in that interval the shortest is the one on the coarsest grid of powers of ten; of two
neighbours on that grid the nearer one is taken, and the even one when both are equally near.
All comparisons are between natural numbers.
-/

namespace Precedence

/-- A decimal: `digits` times a power of ten. -/
structure Decimal where
  digits : Nat
  exponent : Int
  deriving DecidableEq, Repr

namespace Decimal

/-- The reals that round to one number: those between `low` and `high`, times a power of two,
with `value` as the number itself. -/
structure Interval where
  low : Nat
  value : Nat
  high : Nat
  /-- The ends belong to the interval. -/
  closed : Bool
  /-- The power of two that the three are to be multiplied with. -/
  scale : Int
  deriving DecidableEq, Repr

/-- The interval of a finite positive number with 64 bits, taken from its bits. -/
def Interval.ofBits (bits : UInt64) : Interval :=
  let fraction := bits.toNat % Nat.pow 2 52
  let biased := bits.toNat / Nat.pow 2 52 % Nat.pow 2 11
  let mantissa := if biased = 0 then fraction else fraction + Nat.pow 2 52
  let below := if fraction = 0 && 1 < biased then 1 else 2
  { low := 4 * mantissa - below
    value := 4 * mantissa
    high := 4 * mantissa + 2
    closed := mantissa % 2 = 0
    scale := (max biased 1 : Nat) - (1077 : Int) }

/-- The multiple of a power of ten that lies in the interval and is nearest to its value. -/
def Interval.onGrid (x : Interval) (exponent : Int) : Option Nat :=
  let unit := Nat.pow 10 exponent.toNat * Nat.pow 2 (-x.scale).toNat
  let factor := Nat.pow 10 (-exponent).toNat * Nat.pow 2 x.scale.toNat
  let inside (n : Nat) : Bool :=
    if x.closed then x.low * factor ≤ n * unit && n * unit ≤ x.high * factor
    else x.low * factor < n * unit && n * unit < x.high * factor
  let below := x.value * factor / unit
  let above := below + 1
  match decide (0 < below) && inside below, inside above with
  | true, true =>
    let before := x.value * factor - below * unit
    let after := above * unit - x.value * factor
    if before < after || before = after && below % 2 = 0 then some below else some above
  | true, false => some below
  | false, true => some above
  | false, false => none

/-- The first grid with a decimal in the interval, from `10 ^ (steps - 345)` downwards. -/
def Interval.shortestFrom (x : Interval) : Nat → Option Decimal
  | 0 => none
  | steps + 1 =>
    let exponent : Int := steps - 345
    match x.onGrid exponent with
    | some digits => some ⟨digits, exponent⟩
    | none => shortestFrom x steps

/-- The shortest decimal that reads back as the number with the given bits, or `none` for
zero. -/
def shortest (bits : UInt64) : Option Decimal :=
  if bits.toNat % Nat.pow 2 63 = 0 then none else (Interval.ofBits bits).shortestFrom 655

end Decimal

end Precedence
