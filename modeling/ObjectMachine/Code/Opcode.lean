import ObjectMachine.Code.Width

/-!
# Opcodes

Every instruction starts with one opcode byte. An opcode with a variable-width operand owns
three consecutive bytes, one per width; every other opcode owns one byte. Byte ranges:

* `0x00`–`0x0F` stack and constants
* `0x10`–`0x2F` strings, locals, fields, classes and calls
* `0x30`–`0x3F` parent view and returns
* `0x40`–`0x4F` arithmetic, logic and comparison
* `0x50`–`0x6F` branches and case tables
* `0x70`–`0x7F` exception handling
* `0x80`–`0x8F` arrays
* `0x90`–`0x9F` threads and monitors
* `0xA0`–`0xAF` reflection
-/

namespace ObjectMachine

/-- What follows an opcode byte. -/
inductive OperandShape
  | absent
  | uint8
  | uint16
  | int16
  | int32
  | int64
  | float64
  /-- A table number or local slot of variable width. -/
  | index
  /-- A relative branch offset of variable width. -/
  | offset
  /-- A 16-bit count, then that many offsets of variable width. -/
  | caseTable
  /-- The offsets of the catch and finally bodies, both of variable width. -/
  | tryPair
deriving DecidableEq, Repr

namespace OperandShape

def isBranch : OperandShape → Bool
  | offset | caseTable | tryPair => true
  | _ => false

def isVariable (shape : OperandShape) : Bool :=
  shape == index || shape.isBranch

end OperandShape

/-- The table an index operand points into. -/
inductive ReferenceTable
  /-- The frame's receiver, arguments and locals; not a table of the module. -/
  | locals
  | strings
  | classes
  | fields
  | methods
deriving DecidableEq, Repr

/-- What an entry of the table is called. -/
def ReferenceTable.name : ReferenceTable → String
  | locals => "local"
  | strings => "string"
  | classes => "class"
  | fields => "field"
  | methods => "method"

/-- Target kind of a conversion. -/
inductive Kind
  | byte
  | char
  | short
  | int
  | long
  | double
  | bool
  | string
deriving DecidableEq, Repr

namespace Kind

/-- The kind with a given code; codes run from 1 to 8. -/
def ofCode? : Nat → Option Kind
  | 1 => some byte
  | 2 => some char
  | 3 => some short
  | 4 => some int
  | 5 => some long
  | 6 => some double
  | 7 => some bool
  | 8 => some string
  | _ => none

def code : Kind → UInt8
  | byte => 1
  | char => 2
  | short => 3
  | int => 4
  | long => 5
  | double => 6
  | bool => 7
  | string => 8

def name : Kind → String
  | byte => "byte"
  | char => "char"
  | short => "short"
  | int => "int"
  | long => "long"
  | double => "double"
  | bool => "bool"
  | string => "string"

theorem ofCode_code (kind : Kind) : ofCode? kind.code.toNat = some kind := by
  cases kind <;> rfl

end Kind

/-- An instruction's operation, whatever the width of its operand. -/
inductive Opcode
  | nop
  | pop
  | dup
  | swap
  | pushNull
  | pushTrue
  | pushFalse
  | pushByte
  | pushChar
  | pushShort
  | pushInt
  | pushLong
  | pushDouble
  | pushString
  | loadLocal
  | storeLocal
  | loadField
  | storeField
  | loadClass
  | new
  | call
  | instanceOf
  | super
  | ret
  | retVal
  | retCtor
  | add
  | sub
  | mul
  | div
  | mod
  | neg
  | not
  | convert
  | ce
  | cne
  | cl
  | cle
  | cg
  | cge
  | jmp
  | jt
  | jf
  | jce
  | jcne
  | jcl
  | jcle
  | jcg
  | jcge
  | caseOf
  | enterTry
  | leaveTry
  | leaveCatch
  | leaveFinally
  | raise
  | reraise
  | newArray
  | arrayLoad
  | arrayStore
  | arrayLength
  | makeArray
  | fork
  | join
  | exit
  | nice
  | sleep
  | wait
  | signal
  | threadId
  | hierarchy
  | fields
  | methods
  | getField
  | setField
  | invoke
deriving DecidableEq, Repr, Inhabited

namespace Opcode

/-- Every opcode, in byte order. -/
def all : List Opcode :=
  [nop, pop, dup, swap, pushNull, pushTrue, pushFalse, pushByte, pushChar, pushShort, pushInt,
    pushLong, pushDouble, pushString, loadLocal, storeLocal, loadField, storeField, loadClass,
    new, call, instanceOf, super, ret, retVal, retCtor, add, sub, mul, div, mod, neg, not,
    convert, ce, cne, cl, cle, cg, cge, jmp, jt, jf, jce, jcne, jcl, jcle, jcg, jcge, caseOf,
    enterTry, leaveTry, leaveCatch, leaveFinally, raise, reraise, newArray, arrayLoad,
    arrayStore, arrayLength, makeArray, fork, join, exit, nice, sleep, wait, signal, threadId,
    hierarchy, fields, methods, getField, setField, invoke]

/-- First byte of the opcode's family. -/
def base : Opcode → UInt8
  | nop => 0x00
  | pop => 0x01
  | dup => 0x02
  | swap => 0x03
  | pushNull => 0x04
  | pushTrue => 0x05
  | pushFalse => 0x06
  | pushByte => 0x07
  | pushChar => 0x08
  | pushShort => 0x09
  | pushInt => 0x0A
  | pushLong => 0x0B
  | pushDouble => 0x0C
  | pushString => 0x10
  | loadLocal => 0x13
  | storeLocal => 0x16
  | loadField => 0x19
  | storeField => 0x1C
  | loadClass => 0x1F
  | new => 0x22
  | call => 0x25
  | instanceOf => 0x28
  | super => 0x30
  | ret => 0x31
  | retVal => 0x32
  | retCtor => 0x33
  | add => 0x40
  | sub => 0x41
  | mul => 0x42
  | div => 0x43
  | mod => 0x44
  | neg => 0x45
  | not => 0x46
  | convert => 0x47
  | ce => 0x48
  | cne => 0x49
  | cl => 0x4A
  | cle => 0x4B
  | cg => 0x4C
  | cge => 0x4D
  | jmp => 0x50
  | jt => 0x53
  | jf => 0x56
  | jce => 0x59
  | jcne => 0x5C
  | jcl => 0x5F
  | jcle => 0x62
  | jcg => 0x65
  | jcge => 0x68
  | caseOf => 0x6B
  | enterTry => 0x70
  | leaveTry => 0x73
  | leaveCatch => 0x74
  | leaveFinally => 0x75
  | raise => 0x76
  | reraise => 0x77
  | newArray => 0x80
  | arrayLoad => 0x81
  | arrayStore => 0x82
  | arrayLength => 0x83
  | makeArray => 0x84
  | fork => 0x90
  | join => 0x91
  | exit => 0x92
  | nice => 0x93
  | sleep => 0x94
  | wait => 0x95
  | signal => 0x96
  | threadId => 0x97
  | hierarchy => 0xA0
  | fields => 0xA1
  | methods => 0xA2
  | getField => 0xA3
  | setField => 0xA4
  | invoke => 0xA5

/-- What follows the opcode byte. -/
def shape : Opcode → OperandShape
  | pushByte | convert => .uint8
  | pushChar | makeArray => .uint16
  | pushShort => .int16
  | pushInt => .int32
  | pushLong => .int64
  | pushDouble => .float64
  | pushString | loadLocal | storeLocal | loadField | storeField | loadClass | new | call
  | instanceOf => .index
  | jmp | jt | jf | jce | jcne | jcl | jcle | jcg | jcge => .offset
  | caseOf => .caseTable
  | enterTry => .tryPair
  | _ => .absent

/-- The table that an index operand of this opcode points into. -/
def references : Opcode → Option ReferenceTable
  | pushString => some .strings
  | loadLocal | storeLocal => some .locals
  | loadField | storeField => some .fields
  | loadClass | new | instanceOf => some .classes
  | call => some .methods
  | _ => none

def isJump (opcode : Opcode) : Bool :=
  opcode.shape == .offset

def isCompareBranch : Opcode → Bool
  | jce | jcne | jcl | jcle | jcg | jcge => true
  | _ => false

def isReturn : Opcode → Bool
  | ret | retVal | retCtor => true
  | _ => false

/-- Whether control never falls through to the next instruction. -/
def isTerminator : Opcode → Bool
  | jmp | ret | retVal | retCtor | raise | reraise | exit => true
  | _ => false

def isReflection : Opcode → Bool
  | hierarchy | fields | methods | getField | setField | invoke => true
  | _ => false

/-- Mnemonic. -/
def name : Opcode → String
  | nop => "nop"
  | pop => "pop"
  | dup => "dup"
  | swap => "swap"
  | pushNull => "pushnull"
  | pushTrue => "pushtrue"
  | pushFalse => "pushfalse"
  | pushByte => "pushbyte"
  | pushChar => "pushchar"
  | pushShort => "pushshort"
  | pushInt => "pushint"
  | pushLong => "pushlong"
  | pushDouble => "pushdouble"
  | pushString => "pushstring"
  | loadLocal => "loadlocal"
  | storeLocal => "storelocal"
  | loadField => "loadfield"
  | storeField => "storefield"
  | loadClass => "loadclass"
  | new => "new"
  | call => "call"
  | instanceOf => "instanceof"
  | super => "super"
  | ret => "ret"
  | retVal => "retval"
  | retCtor => "retctor"
  | add => "add"
  | sub => "sub"
  | mul => "mul"
  | div => "div"
  | mod => "mod"
  | neg => "neg"
  | not => "not"
  | convert => "convert"
  | ce => "ce"
  | cne => "cne"
  | cl => "cl"
  | cle => "cle"
  | cg => "cg"
  | cge => "cge"
  | jmp => "jmp"
  | jt => "jt"
  | jf => "jf"
  | jce => "jce"
  | jcne => "jcne"
  | jcl => "jcl"
  | jcle => "jcle"
  | jcg => "jcg"
  | jcge => "jcge"
  | caseOf => "case"
  | enterTry => "entertry"
  | leaveTry => "leavetry"
  | leaveCatch => "leavecatch"
  | leaveFinally => "leavefinally"
  | raise => "throw"
  | reraise => "rethrow"
  | newArray => "newarray"
  | arrayLoad => "arrayload"
  | arrayStore => "arraystore"
  | arrayLength => "arraylength"
  | makeArray => "makearray"
  | fork => "fork"
  | join => "join"
  | exit => "exit"
  | nice => "nice"
  | sleep => "sleep"
  | wait => "wait"
  | signal => "signal"
  | threadId => "threadid"
  | hierarchy => "hierarchy"
  | fields => "fields"
  | methods => "methods"
  | getField => "getfield"
  | setField => "setfield"
  | invoke => "invoke"

/-- The opcode with a given mnemonic. -/
def ofName? (mnemonic : String) : Option Opcode :=
  all.find? (·.name == mnemonic)

/-- The opcode byte at a width; an opcode with a fixed operand has one byte for all widths. -/
def encode (opcode : Opcode) (width : Width) : UInt8 :=
  if opcode.shape.isVariable then opcode.base + width.step else opcode.base

/-- The widths an opcode is encoded in. -/
def widths (opcode : Opcode) : List Width :=
  if opcode.shape.isVariable then Width.all else [.narrow]

/-- Every opcode with every width it is encoded in, in byte order. -/
def encodings : List (Opcode × Width) :=
  all.flatMap fun opcode => opcode.widths.map (opcode, ·)

/-- The opcode and width of each of the 256 bytes. -/
def decodeTable : Array (Option (Opcode × Width)) :=
  ((List.range 256).map fun byte =>
    encodings.find? fun (opcode, width) => opcode.encode width == UInt8.ofNat byte).toArray

/-- The opcode and width an opcode byte stands for. -/
def decode? (byte : UInt8) : Option (Opcode × Width) :=
  decodeTable[byte.toNat]?.join

end Opcode

end ObjectMachine
