import ObjectMachine.Fault
import ObjectMachine.Value.Value

/-!
# Numbers

Two numbers of one kind are computed with in that kind. Otherwise both become the least of int,
long and double that holds both kinds. Whole numbers wrap around.
-/

namespace ObjectMachine

inductive ArithmeticOp
  | add
  | sub
  | mul
  | div
  | mod
deriving DecidableEq, Repr

inductive ComparisonOp
  | eq
  | ne
  | lt
  | le
  | gt
  | ge
deriving DecidableEq, Repr

/-- Two numbers of the kind in which they are computed with. -/
inductive NumberPair
  | bytes (a b : UInt8)
  | chars (a b : UInt16)
  | shorts (a b : Int16)
  | ints (a b : Int32)
  | longs (a b : Int64)
  | doubles (a b : UInt64)
deriving DecidableEq, Repr

/-- The kinds of numbers, from narrow to wide. -/
inductive NumberRank
  | small
  | int
  | long
  | double
deriving DecidableEq, Repr

namespace ArithmeticOp

def all : List ArithmeticOp := [add, sub, mul, div, mod]

def name : ArithmeticOp → String
  | add => "add"
  | sub => "sub"
  | mul => "mul"
  | div => "div"
  | mod => "mod"

end ArithmeticOp

namespace ComparisonOp

def all : List ComparisonOp := [eq, ne, lt, le, gt, ge]

def name : ComparisonOp → String
  | eq => "eq"
  | ne => "ne"
  | lt => "lt"
  | le => "le"
  | gt => "gt"
  | ge => "ge"

/-- Whether the operator holds of two things in a given order. -/
def holds : ComparisonOp → Ordering → Bool
  | eq, order => order == .eq
  | ne, order => order != .eq
  | lt, order => order == .lt
  | le, order => order != .gt
  | gt, order => order == .gt
  | ge, order => order != .lt

def isEquality : ComparisonOp → Bool
  | eq | ne => true
  | _ => false

end ComparisonOp

namespace NumberRank

def level : NumberRank → Nat
  | small => 0
  | int => 1
  | long => 2
  | double => 3

def max (a b : NumberRank) : NumberRank :=
  if a.level ≤ b.level then b else a

end NumberRank

namespace Value

def rank? : Value → Option NumberRank
  | byte _ | char _ | short _ => some .small
  | int _ => some .int
  | long _ => some .long
  | double _ => some .double
  | _ => none

/-- The number that a value holds, zero for any other value. -/
def toInteger (value : Value) : Int64 :=
  value.asInteger?.getD 0

/-- The bits of the double nearest to a number. -/
def toDouble : Value → UInt64
  | double bits => bits
  | other => Binary64.ofInt other.toInteger.toInt

/-- Two numbers as a pair of one kind. -/
def promote (a b : Value) : Option NumberPair :=
  match a, b with
  | byte a, byte b => some (.bytes a b)
  | char a, char b => some (.chars a b)
  | short a, short b => some (.shorts a b)
  | a, b => do
    let first ← a.rank?
    let second ← b.rank?
    match first.max second with
    | .small | .int => pure (.ints a.toInteger.toInt32 b.toInteger.toInt32)
    | .long => pure (.longs a.toInteger b.toInteger)
    | .double => pure (.doubles a.toDouble b.toDouble)

def mismatch (operation : String) (a b : Value) : Fault :=
  .typeError s!"cannot apply {operation} to {a.typeName} and {b.typeName}"

/-- A whole operation in one kind. Only division asks for a divisor other than zero. -/
def wholeResult [BEq ν] [OfNat ν 0] [Add ν] [Sub ν] [Mul ν] [Div ν] [Mod ν]
    (op : ArithmeticOp) (a b : ν) : Except Fault ν :=
  match op with
  | .add => .ok (a + b)
  | .sub => .ok (a - b)
  | .mul => .ok (a * b)
  | .div => if b == 0 then .error .divisionByZero else .ok (a / b)
  | .mod => if b == 0 then .error .divisionByZero else .ok (a % b)

/-- An operation on doubles, which never fails. -/
def doubleResult (op : ArithmeticOp) (a b : UInt64) : UInt64 :=
  match op with
  | .add => Binary64.sum (.ofBits a) (.ofBits b)
  | .sub => Binary64.sum (.ofBits a) (.ofBits (Binary64.negate b))
  | .mul => Binary64.product (.ofBits a) (.ofBits b)
  | .div => Binary64.quotient (.ofBits a) (.ofBits b)
  | .mod => Binary64.remainder (.ofBits a) (.ofBits b)

def arithmetic (op : ArithmeticOp) (a b : Value) : Except Fault Value :=
  match promote a b with
  | some (.bytes a b) => byte <$> wholeResult op a b
  | some (.chars a b) => char <$> wholeResult op a b
  | some (.shorts a b) => short <$> wholeResult op a b
  | some (.ints a b) => int <$> wholeResult op a b
  | some (.longs a b) => long <$> wholeResult op a b
  | some (.doubles a b) => .ok (double (doubleResult op a b))
  | none => .error (mismatch op.name a b)

def negate : Value → Except Fault Value
  | byte value => .ok (byte (-value))
  | char codeUnit => .ok (char (-codeUnit))
  | short value => .ok (short (-value))
  | int value => .ok (int (-value))
  | long value => .ok (long (-value))
  | double bits => .ok (double (Binary64.negate bits))
  | other => .error (.typeError s!"cannot negate {other.typeName}")

/-- The opposite of a truth value, or a whole number with every bit turned over. -/
def complement : Value → Except Fault Value
  | bool value => .ok (bool !value)
  | byte value => .ok (byte (~~~value))
  | char codeUnit => .ok (char (~~~codeUnit))
  | short value => .ok (short (~~~value))
  | int value => .ok (int (~~~value))
  | long value => .ok (long (~~~value))
  | other => .error (.typeError s!"cannot apply not to {other.typeName}")

def pairOrder : NumberPair → Option Ordering
  | .bytes a b => some (compare a b)
  | .chars a b => some (compare a b)
  | .shorts a b => some (compare a.toInt b.toInt)
  | .ints a b => some (compare a.toInt b.toInt)
  | .longs a b => some (compare a.toInt b.toInt)
  | .doubles a b => Binary64.order (.ofBits a) (.ofBits b)

/-- The order of two texts, by their UTF-8 bytes. -/
def textOrder (a b : String) : Ordering :=
  compareOfLessAndEq (a.toUTF8.toList.map UInt8.toNat) (b.toUTF8.toList.map UInt8.toNat)

/-- Whether two values that are not both numbers are equal, for those pairs that can be
compared. -/
def equal? : Value → Value → Option Bool
  | null, null => some true
  | null, _ | _, null => some false
  | bool a, bool b => some (a == b)
  | a@(array _), b@(array _) | a@(object _ _), b@(object _ _) | a@(classRef _), b@(classRef _) =>
    some (a.sameReference b)
  | _, _ => none

/-- A comparison. Numbers compare as numbers; where there is no number, only being unequal
holds. Texts have an order, and everything else is equal or not. -/
def comparison (op : ComparisonOp) (a b : Value) : Except Fault Bool :=
  match promote a b with
  | some pair =>
    match pairOrder pair with
    | some order => .ok (op.holds order)
    | none => .ok (op == .ne)
  | none =>
    match a, b with
    | text a, text b => .ok (op.holds (textOrder a b))
    | a, b =>
      if op.isEquality then
        match equal? a b with
        | some equal => .ok (equal == (op == .eq))
        | none => .error (mismatch "comparison" a b)
      else .error (mismatch "comparison" a b)

end Value

end ObjectMachine
