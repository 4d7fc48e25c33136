import ObjectMachine.Decimal.Binary64

/-!
# Shortest decimal text of a double

A double is written with the fewest digits that read back as it; among those the decimal nearest
to it is taken, and the larger one on a tie. The text is positional, never with an exponent, and
a whole number has no point.
-/

namespace ObjectMachine

namespace Decimal

/-- The number `digits * 10 ^ exponent`. -/
structure Scientific where
  digits : Nat
  exponent : Int
deriving DecidableEq, Repr

/-- The reals that read back as a double, as multiples of a quarter of its last place: the ends
of the interval, its inner value and whether the ends belong to it. -/
structure Interval where
  low : Nat
  value : Nat
  high : Nat
  closed : Bool

/-- The interval of a mantissa. Below the least mantissa of a binade the neighbours are half as
far. -/
def Interval.ofMantissa (mantissa : Nat) : Interval where
  low := 4 * mantissa - (if mantissa = Binary64.hiddenBit then 1 else 2)
  value := 4 * mantissa
  high := 4 * mantissa + 2
  closed := mantissa % 2 = 0

/-- `10 ^ exponent` times a ratio, as a ratio. -/
def timesTen (num den : Nat) (exponent : Int) : Nat × Nat :=
  if 0 ≤ exponent then (num * Nat.pow 10 exponent.toNat, den)
  else (num, den * Nat.pow 10 (-exponent).toNat)

/-- How many more powers of ten, up to `fuel`, bring `num / den` to one or above. -/
def leadingZeros : Nat → Nat → Nat → Nat
  | 0, _, _ => 0
  | fuel + 1, num, den => if den ≤ num then 0 else leadingZeros fuel (num * 10) den + 1

/-- The number of digits of `num / den` before the point; for a number below one, less the zeros
that follow the point. -/
def magnitude (num den : Nat) : Int :=
  if den ≤ num then (Nat.toDigits 10 (num / den)).length
  else 1 - (leadingZeros 400 num den : Int)

/-- The decimals with `count` digits next to the value, if one of them lies in the interval. -/
def candidate (interval : Interval) (unit : Int) (magnitude : Int) (count : Nat) :
    Option Scientific :=
  let exponent := magnitude - count
  -- A decimal `d` stands for `d * den / num` quarters of the last place.
  let (num, den) := timesTen 1 1 (-exponent)
  let (num, den) := Binary64.scaled num den (-unit)
  let below := interval.value * num / den
  let inside (digits : Nat) : Bool :=
    if interval.closed then
      interval.low * num ≤ digits * den ∧ digits * den ≤ interval.high * num
    else
      interval.low * num < digits * den ∧ digits * den < interval.high * num
  let nearerAbove : Bool := den ≤ 2 * (interval.value * num - below * den)
  if inside (below + 1) ∧ (nearerAbove ∨ !inside below) then some ⟨below + 1, exponent⟩
  else if inside below then some ⟨below, exponent⟩
  else none

/-- The shortest decimal of a positive double. Seventeen digits always suffice. -/
def shortest (mantissa : Nat) (exponent : Int) : Scientific :=
  let interval := Interval.ofMantissa mantissa
  let unit := exponent - 2
  let (num, den) := Binary64.scaled mantissa 1 (-exponent)
  let size := magnitude num den
  let found := (List.range 17).findSome? fun count => candidate interval unit size (count + 1)
  found.getD ⟨mantissa, exponent⟩

def zeros (count : Nat) : String :=
  "".pushn '0' count

/-- A decimal in positional notation. -/
def Scientific.text (number : Scientific) : String :=
  let digits := Nat.toDigits 10 number.digits
  if 0 ≤ number.exponent then
    String.ofList digits ++ zeros number.exponent.toNat
  else
    let places := (-number.exponent).toNat
    let kept := digits.reverse.drop places |>.reverse
    let fraction := digits.drop kept.length
    -- Zeros at the end of a fraction say nothing.
    let fraction := (fraction.reverse.dropWhile (· == '0')).reverse
    let whole := if kept.isEmpty then "0" else String.ofList kept
    if fraction.isEmpty then whole
    else whole ++ "." ++ zeros (places - digits.length) ++ String.ofList fraction

def text (bits : UInt64) : String :=
  match Binary64.ofBits bits with
  | .nan => "NaN"
  | .infinite negative => if negative then "-inf" else "inf"
  | .finite negative mantissa exponent =>
    let sign := if negative then "-" else ""
    if mantissa = 0 then sign ++ "0" else sign ++ (shortest mantissa exponent).text

end Decimal

end ObjectMachine
