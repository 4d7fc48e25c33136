/-!
# Doubles as exact numbers

A 64-bit float is a sign, a mantissa below `2 ^ 53` and a power of two, or an infinity, or no
number. `ofBits` takes its bits apart; `nearest` is the bits of the double that lies nearest to
a ratio of natural numbers, an exact tie going to the even mantissa.
-/

namespace ObjectMachine

inductive Binary64
  /-- The number `mantissa * 2 ^ exponent`, negated if `negative`. -/
  | finite (negative : Bool) (mantissa : Nat) (exponent : Int)
  | infinite (negative : Bool)
  | nan
deriving DecidableEq, Repr

namespace Binary64

/-- The highest bit of most mantissas, which the bits of a double leave out. -/
def hiddenBit : Nat := 1 <<< 52

def ofBits (bits : UInt64) : Binary64 :=
  let negative : Bool := 1 <<< 63 ≤ bits.toNat
  let biased : Nat := bits.toNat / hiddenBit % 2048
  let fraction : Nat := bits.toNat % hiddenBit
  if biased = 2047 then
    if fraction = 0 then infinite negative else nan
  else if biased = 0 then
    finite negative fraction (-1074)
  else
    finite negative (fraction + hiddenBit) (biased - 1075)

def leastExponent : Int := -1074

/-- The bits of the double with a given mantissa below `2 ^ 53`, or exactly that when rounding
carried into it, and an exponent; beyond the largest double, those of infinity. -/
def assemble (negative : Bool) (mantissa : Nat) (exponent : Int) : UInt64 :=
  let sign := if negative then 1 <<< 63 else 0
  let magnitude :=
    if mantissa < hiddenBit then mantissa
    else (exponent + 1075).toNat * hiddenBit + (mantissa - hiddenBit)
  UInt64.ofNat (sign + min magnitude (2047 * hiddenBit))

def infinityBits (negative : Bool) : UInt64 :=
  assemble negative hiddenBit 972

/-- `num / den * 2 ^ -exponent` as a ratio of natural numbers. -/
def scaled (num den : Nat) (exponent : Int) : Nat × Nat :=
  if 0 ≤ exponent then (num, den <<< exponent.toNat) else (num <<< (-exponent).toNat, den)

/-- The quotient rounded to the nearest natural number, a half to the even one. -/
def roundHalfEven (num den : Nat) : Nat :=
  let quotient := num / den
  let twice := 2 * (num % den)
  if twice < den then quotient
  else if twice = den then quotient + quotient % 2
  else quotient + 1

/-- The exponent that gives `num / den` a mantissa from `2 ^ 52` up to `2 ^ 53`, or the least
exponent where that is larger. -/
def exponentOf (num den : Nat) : Int :=
  let estimate : Int := (num.log2 : Int) - den.log2 - 52
  let (n, d) := scaled num den estimate
  let exact := if n / d < hiddenBit then estimate - 1 else estimate
  max exact leastExponent

/-- The bits of the double nearest to `num / den`, where `den` is positive. -/
def nearest (negative : Bool) (num den : Nat) : UInt64 :=
  if num = 0 then assemble negative 0 leastExponent
  else
    let exponent := exponentOf num den
    let (n, d) := scaled num den exponent
    assemble negative (roundHalfEven n d) exponent

/-- The whole part of a finite double, toward zero. -/
def truncate (negative : Bool) (mantissa : Nat) (exponent : Int) : Int :=
  let (n, d) := scaled mantissa 1 (-exponent)
  let whole : Int := ↑(n / d)
  if negative then -whole else whole

/-- The double's value toward zero within the range of 64-bit integers, whose ends stand for
everything beyond them; no number counts as zero. -/
def toInt64 (number : Binary64) : Int64 :=
  match number with
  | finite negative mantissa exponent =>
    let whole := truncate negative mantissa exponent
    Int64.ofInt (max Int64.minValue.toInt (min Int64.maxValue.toInt whole))
  | infinite true => Int64.minValue
  | infinite false => Int64.maxValue
  | nan => 0

def nanBits : UInt64 := 0x7ff8000000000000

/-- What is left of the first number after taking away the second one as often as it fits; the
sign is the first number's. A number without a finite remainder has none. -/
def remainder (x y : Binary64) : UInt64 :=
  match x, y with
  | finite negative mantissa exponent, finite _ divisor divisorExponent =>
    if divisor = 0 then nanBits
    else
      let unit := min exponent divisorExponent
      let left := mantissa <<< (exponent - unit).toNat %
        divisor <<< (divisorExponent - unit).toNat
      let (num, den) := scaled left 1 (-unit)
      nearest negative num den
  | finite negative mantissa exponent, infinite _ =>
    let (num, den) := scaled mantissa 1 (-exponent)
    nearest negative num den
  | _, _ => nanBits

end Binary64

end ObjectMachine
