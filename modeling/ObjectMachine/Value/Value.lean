import ObjectMachine.Decimal.Arithmetic

/-!
# Values

Numbers, texts and truth values stand for themselves. Arrays and objects are references into the
heap, and a value that refers to an object also says as which class it is seen: an object seen
as one of its ancestors is the same object.
-/

namespace ObjectMachine

/-- A class, by its place among the classes of a program. -/
structure ClassId where
  index : Nat
deriving DecidableEq, Repr, Inhabited

/-- An array of the heap. -/
structure ArrayId where
  index : Nat
deriving DecidableEq, Repr

/-- An object of the heap. -/
structure ObjectId where
  index : Nat
deriving DecidableEq, Repr

inductive Value
  | null
  | bool (value : Bool)
  | byte (value : UInt8)
  /-- A UTF-16 code unit. -/
  | char (codeUnit : UInt16)
  | short (value : Int16)
  | int (value : Int32)
  | long (value : Int64)
  /-- The bits of a 64-bit float. -/
  | double (bits : UInt64)
  | text (value : String)
  | array (id : ArrayId)
  | object (view : ClassId) (id : ObjectId)
  | classRef (id : ClassId)
deriving DecidableEq, Repr, Inhabited

namespace Value

def isNull : Value → Bool
  | null => true
  | _ => false

def asBool? : Value → Option Bool
  | bool value => some value
  | _ => none

/-- The whole number that a value of one of the whole kinds holds. -/
def asInteger? : Value → Option Int64
  | byte value => some (Int64.ofNat value.toNat)
  | char codeUnit => some (Int64.ofNat codeUnit.toNat)
  | short value => some value.toInt64
  | int value => some value.toInt64
  | long value => some value
  | _ => none

def asText? : Value → Option String
  | text value => some value
  | _ => none

def typeName : Value → String
  | null => "null"
  | bool _ => "bool"
  | byte _ => "byte"
  | char _ => "char"
  | short _ => "short"
  | int _ => "int"
  | long _ => "long"
  | double _ => "double"
  | text _ => "string"
  | array _ => "array"
  | object _ _ => "object"
  | classRef _ => "class"

/-- Whether two references lead to the same thing, whatever an object is seen as. -/
def sameReference : Value → Value → Bool
  | array a, array b => a == b
  | object _ a, object _ b => a == b
  | classRef a, classRef b => a == b
  | _, _ => false

end Value

end ObjectMachine
