/-!
# Hexadecimal and padded numbers
-/

namespace ObjectMachine

namespace Text

/-- The digits of a number to a base, with zeros in front up to a least count. -/
def padded (base count number : Nat) : String :=
  let digits := Nat.toDigits base number
  "".pushn '0' (count - digits.length) ++ String.ofList digits

/-- Lower-case hexadecimal digits, at least `count` of them. -/
def hex (count number : Nat) : String :=
  padded 16 count number

/-- A byte as two hexadecimal digits after `0x`. -/
def hexByte (byte : UInt8) : String :=
  "0x" ++ hex 2 byte.toNat

/-- The value of a digit. -/
def hexDigit (digit : Char) : Nat :=
  if digit.isDigit then digit.toNat - '0'.toNat else digit.toLower.toNat - 'a'.toNat + 10

/-- The number that digits stand for, the most significant one first. -/
def hexValue (digits : List Char) : Nat :=
  digits.foldl (fun total digit => total * 16 + hexDigit digit) 0

/-- As `hexBytes`, behind bytes in reverse. -/
def hexBytesOnto (bytes : List UInt8) : List Char → List UInt8
  | high :: low :: rest => hexBytesOnto (UInt8.ofNat (hexValue [high, low]) :: bytes) rest
  | _ => bytes.reverse

/-- The bytes that pairs of digits stand for. -/
def hexBytes (digits : List Char) : List UInt8 :=
  hexBytesOnto [] digits

end Text

end ObjectMachine
