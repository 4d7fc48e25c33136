import ObjectMachine.Decimal.Binary64

/-!
# Reading numbers

A whole number is an optional sign and digits; a kind without negative numbers takes no minus.
A real number is an optional sign and then digits with at most one point among or around them
and an optional exponent, or the word for an infinity or for no number in any case.
-/

namespace ObjectMachine

namespace Decimal

def digitValue (digit : Char) : Nat :=
  digit.toNat - '0'.toNat

/-- The number that digits stand for, the most significant one first. -/
def ofDigits (digits : List Char) : Nat :=
  digits.foldl (fun total digit => total * 10 + digitValue digit) 0

/-- One digit or more and nothing else. -/
def natural? (text : List Char) : Option Nat :=
  if text ≠ [] ∧ text.all Char.isDigit then some (ofDigits text) else none

/-- An optional plus, then digits. -/
def unsigned? : List Char → Option Nat
  | '+' :: digits => natural? digits
  | digits => natural? digits

/-- An optional sign, then digits. -/
def signed? : List Char → Option Int
  | '-' :: digits => (natural? digits).map fun number => -(number : Int)
  | '+' :: digits => (natural? digits).map Int.ofNat
  | digits => (natural? digits).map Int.ofNat

/-- The unsigned number a text stands for, if it lies below `2 ^ width`. -/
def unsignedBelow? (width : Nat) (text : List Char) : Option Nat :=
  (unsigned? text).filter (· < 1 <<< width)

/-- The signed number a text stands for, if it fits `width` bits. -/
def signedWithin? (width : Nat) (text : List Char) : Option Int :=
  let half : Int := (1 <<< (width - 1) : Nat)
  (signed? text).filter fun number => -half ≤ number ∧ number < half

/-- The exponent part of a real number: nothing, or its mark, an optional sign and digits. -/
def exponent? : List Char → Option Int
  | [] => some 0
  | mark :: rest => if mark = 'e' ∨ mark = 'E' then signed? rest else none

/-- The bits of the double nearest to `digits * 10 ^ exponent`. Beyond a thousand places either
way the answer is infinity or zero. -/
def nearestDouble (negative : Bool) (digits : Nat) (exponent : Int) : UInt64 :=
  let size : Int := (Nat.toDigits 10 digits).length + exponent
  if digits = 0 ∨ size < -1000 then Binary64.nearest negative 0 1
  else if size > 1000 then Binary64.infinityBits negative
  else if 0 ≤ exponent then Binary64.nearest negative (digits * Nat.pow 10 exponent.toNat) 1
  else Binary64.nearest negative digits (Nat.pow 10 (-exponent).toNat)

def unsignedReal? (negative : Bool) (text : List Char) : Option UInt64 :=
  let whole := text.takeWhile Char.isDigit
  let afterWhole := text.drop whole.length
  let fraction := match afterWhole with
    | '.' :: rest => rest.takeWhile Char.isDigit
    | _ => []
  let afterFraction := match afterWhole with
    | '.' :: rest => rest.drop fraction.length
    | rest => rest
  if whole.isEmpty ∧ fraction.isEmpty then none
  else
    (exponent? afterFraction).map fun exponent =>
      nearestDouble negative (ofDigits (whole ++ fraction)) (exponent - fraction.length)

/-- The words for numbers that have no digits. -/
def wordReal? (negative : Bool) (text : List Char) : Option UInt64 :=
  match String.ofList (text.map Char.toLower) with
  | "inf" | "infinity" => some (Binary64.infinityBits negative)
  | "nan" => some Binary64.nanBits
  | _ => none

/-- The bits of the double that a text stands for. -/
def real? (text : List Char) : Option UInt64 :=
  let (negative, rest) := match text with
    | '-' :: rest => (true, rest)
    | '+' :: rest => (false, rest)
    | rest => (false, rest)
  (unsignedReal? negative rest).or (wordReal? negative rest)

end Decimal

end ObjectMachine
