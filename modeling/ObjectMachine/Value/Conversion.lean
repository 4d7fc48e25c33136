import ObjectMachine.Decimal.Reader
import ObjectMachine.Fault
import ObjectMachine.Text.Blank
import ObjectMachine.Value.Heap

/-!
# Conversion between kinds

A number becomes a narrower one by dropping bits, a double by first losing its fraction. A text
is read as what it should become, blanks around it aside.
-/

namespace ObjectMachine

namespace Value

/-- The first UTF-16 code unit of a character. -/
def leadingUnit (char : Char) : UInt16 :=
  if char.toNat < 0x10000 then UInt16.ofNat char.toNat
  else UInt16.ofNat (0xD800 + (char.toNat - 0x10000) / 0x400)

/-- What a trimmed text stands for as a given kind. -/
def read? (kind : Kind) (trimmed : List Char) : Option Value :=
  match kind with
  | .byte => (Decimal.unsignedBelow? 8 trimmed).map fun number => byte (UInt8.ofNat number)
  | .char => trimmed.head?.map fun first => char (leadingUnit first)
  | .short => (Decimal.signedWithin? 16 trimmed).map fun number => short (Int16.ofInt number)
  | .int => (Decimal.signedWithin? 32 trimmed).map fun number => int (Int32.ofInt number)
  | .long => (Decimal.signedWithin? 64 trimmed).map fun number => long (Int64.ofInt number)
  | .double => (Decimal.real? trimmed).map double
  | .bool =>
    if trimmed = "true".toList then some (bool true)
    else if trimmed = "false".toList then some (bool false)
    else none
  | .string => none

/-- The whole number behind a value that is no text. -/
def whole? : Value → Option Int64
  | double bits => some (Binary64.toInt64 (.ofBits bits))
  | bool value => some (if value then 1 else 0)
  | other => other.asInteger?

/-- A value as another kind. Only numbers, truth values and texts can be converted. -/
def convert (heap : Heap) (kind : Kind) (value : Value) : Except Fault Value :=
  let failure : Fault := .conversionFailed (heap.text value) kind
  match value with
  | text content =>
    if kind = .string then .ok value
    else
      match read? kind (Text.trimmed content.toList) with
      | some converted => .ok converted
      | none => .error failure
  | value =>
    match whole? value with
    | none => .error failure
    | some number =>
      match kind with
      | .byte => .ok (byte (UInt8.ofInt number.toInt))
      | .char => .ok (char (UInt16.ofInt number.toInt))
      | .short => .ok (short number.toInt16)
      | .int => .ok (int number.toInt32)
      | .long => .ok (long number)
      | .double =>
        match value with
        | double bits => .ok (double bits)
        | _ => .ok (double (Binary64.ofInt number.toInt))
      | .bool =>
        match value with
        | double bits => .ok (bool !(Binary64.ofBits bits).isZero)
        | _ => .ok (bool (number != 0))
      | .string => .ok (text (heap.text value))

end Value

end ObjectMachine
