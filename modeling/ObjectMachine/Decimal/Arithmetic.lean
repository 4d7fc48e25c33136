import ObjectMachine.Decimal.Binary64

/-!
# Arithmetic of doubles

Every operation is exact on the numbers that the bits stand for, and its result is the nearest
double. Infinities, signed zeros and the lack of a number follow the rules of IEEE 754.
-/

namespace ObjectMachine

namespace Binary64

def zeroBits (negative : Bool) : UInt64 :=
  assemble negative 0 leastExponent

/-- The double nearest to `mantissa * 2 ^ exponent`. -/
def round (negative : Bool) (mantissa : Nat) (exponent : Int) : UInt64 :=
  let (num, den) := scaled mantissa 1 (-exponent)
  nearest negative num den

def ofInt (number : Int) : UInt64 :=
  nearest (number < 0) number.natAbs 1

/-- The same number with the other sign. -/
def negate (bits : UInt64) : UInt64 :=
  bits ^^^ 0x8000000000000000

/-- A mantissa as a whole number of units `2 ^ unit`. -/
def signedUnits (negative : Bool) (mantissa : Nat) (exponent unit : Int) : Int :=
  let units : Int := ↑(mantissa <<< (exponent - unit).toNat)
  if negative then -units else units

/-- A sum that cancels out is a negative zero only if both numbers are. -/
def sum (x y : Binary64) : UInt64 :=
  match x, y with
  | nan, _ | _, nan => nanBits
  | infinite first, infinite second => if first = second then infinityBits first else nanBits
  | infinite negative, _ | _, infinite negative => infinityBits negative
  | finite first mantissa exponent, finite second mantissa' exponent' =>
    let unit := min exponent exponent'
    let total := signedUnits first mantissa exponent unit +
      signedUnits second mantissa' exponent' unit
    if total = 0 then zeroBits (first && second)
    else round (total < 0) total.natAbs unit

def product (x y : Binary64) : UInt64 :=
  match x, y with
  | nan, _ | _, nan => nanBits
  | infinite first, infinite second => infinityBits (first != second)
  | infinite first, finite second mantissa _ | finite first mantissa _, infinite second =>
    if mantissa = 0 then nanBits else infinityBits (first != second)
  | finite first mantissa exponent, finite second mantissa' exponent' =>
    round (first != second) (mantissa * mantissa') (exponent + exponent')

def quotient (x y : Binary64) : UInt64 :=
  match x, y with
  | nan, _ | _, nan => nanBits
  | infinite _, infinite _ => nanBits
  | infinite first, finite second _ _ => infinityBits (first != second)
  | finite first _ _, infinite second => zeroBits (first != second)
  | finite first mantissa exponent, finite second divisor divisorExponent =>
    if divisor = 0 then
      if mantissa = 0 then nanBits else infinityBits (first != second)
    else
      let (num, den) := scaled mantissa divisor (divisorExponent - exponent)
      nearest (first != second) num den

/-- The order of two numbers, if both are numbers. Zeros of either sign are equal. -/
def order (x y : Binary64) : Option Ordering :=
  match x, y with
  | nan, _ | _, nan => none
  | infinite first, infinite second =>
    some (if first = second then .eq else if first then .lt else .gt)
  | infinite negative, _ => some (if negative then .lt else .gt)
  | _, infinite negative => some (if negative then .gt else .lt)
  | finite first mantissa exponent, finite second mantissa' exponent' =>
    let unit := min exponent exponent'
    some (compare (signedUnits first mantissa exponent unit)
      (signedUnits second mantissa' exponent' unit))

def isZero (number : Binary64) : Bool :=
  match number with
  | finite _ mantissa _ => mantissa == 0
  | _ => false

end Binary64

end ObjectMachine
