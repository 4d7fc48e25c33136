import ObjectMachine.Bytes.Cursor
import ObjectMachine.Bytes.Write
import ObjectMachine.Code.Opcode
import ObjectMachine.Decimal.Shortest

/-!
# Instructions

An instruction keeps the width it was encoded with, so that a decoded stream can be written back
byte for byte. Branch distances count from the first byte of the branching instruction.
-/

namespace ObjectMachine

/-- What an instruction carries beside its opcode. -/
inductive Operand
  | absent
  | byte (value : UInt8)
  | char (codeUnit : UInt16)
  | short (value : Int16)
  | int (value : Int32)
  | long (value : Int64)
  | double (bits : UInt64)
  /-- A number of array elements. -/
  | count (elements : UInt16)
  /-- A 1-based table number, or a local slot. -/
  | index (number : UInt32)
  | offset (distance : Int32)
  | table (distances : List Int32)
  /-- The bodies of a try construct. A catch distance of zero means that there is no catch
  body. -/
  | tryPair (onCatch onFinally : Int32)
deriving DecidableEq, Repr

structure Instruction where
  /-- Position of the opcode byte in the stream. -/
  offset : Nat
  opcode : Opcode
  /-- Width of a variable operand, `narrow` for a fixed one. -/
  width : Width
  operand : Operand
deriving DecidableEq, Repr

namespace Operand

/-- The branch distances an operand holds; a missing catch body has none. -/
def distances : Operand → List Int32
  | offset distance => [distance]
  | table distances => distances
  | tryPair onCatch onFinally => if onCatch = 0 then [onFinally] else [onCatch, onFinally]
  | _ => []

/-- The narrowest width that holds everything of variable width in an operand. -/
def minimalWidth : Operand → Width
  | index number => Width.forIndex number.toNat
  | offset distance => Width.forOffset distance.toInt
  | table distances => Width.widest (distances.map fun distance => Width.forOffset distance.toInt)
  | tryPair onCatch onFinally =>
    (Width.forOffset onCatch.toInt).max (Width.forOffset onFinally.toInt)
  | _ => .narrow

/-- A distance at a width: its lowest bytes. -/
def encodeDistance (width : Width) (distance : Int32) : Bytes :=
  LittleEndian.bytes width.bytes distance.toUInt32.toNat

/-- A table number at a width: its lowest bytes. -/
def encodeIndex (width : Width) (number : UInt32) : Bytes :=
  LittleEndian.bytes width.bytes number.toNat

/-- The bytes of an operand, by its own form. -/
def encode (width : Width) : Operand → Bytes
  | absent => []
  | byte value => Write.byte value
  | char codeUnit => Write.uint16 codeUnit
  | short value => Write.int16 value
  | int value => Write.int32 value
  | long value => Write.int64 value
  | double bits => Write.uint64 bits
  | count elements => Write.uint16 elements
  | index number => encodeIndex width number
  | offset distance => encodeDistance width distance
  | table distances =>
    LittleEndian.bytes 2 distances.length ++ distances.flatMap (encodeDistance width)
  | tryPair onCatch onFinally => encodeDistance width onCatch ++ encodeDistance width onFinally

end Operand

namespace Read

/-- A table number of a given width. -/
def index (width : Width) : Read UInt32 :=
  UInt32.ofNat <$> word width.bytes

/-- A branch distance of a given width. -/
def distance (width : Width) : Read Int32 :=
  Int32.ofInt <$> signedWord width.bytes

/-- An opcode byte, taken apart. The byte counts as read even if it is no opcode. -/
def opcode : Read (Opcode × Width) := do
  let start := (← get).position
  let byte ← byte
  match Opcode.decode? byte with
  | some found => pure found
  | none => throw (.invalidOpcode byte start)

/-- The operand of an opcode at a width. -/
def operand (opcode : Opcode) (width : Width) : Read Operand :=
  match opcode.shape with
  | .absent => pure .absent
  | .uint8 => .byte <$> byte
  | .uint16 => if opcode = .makeArray then .count <$> uint16 else .char <$> uint16
  | .int16 => .short <$> int16
  | .int32 => .int <$> int32
  | .int64 => .long <$> int64
  | .float64 => .double <$> uint64
  | .index => .index <$> index width
  | .offset => .offset <$> distance width
  | .caseTable => do
    let count ← uint16
    .table <$> times count.toNat (distance width)
  | .tryPair => do
    let onCatch ← distance width
    let onFinally ← distance width
    pure (.tryPair onCatch onFinally)

def instruction : Read Instruction := do
  let offset := (← get).position
  let (opcode, width) ← opcode
  let operand ← operand opcode width
  pure { offset, opcode, width, operand }

end Read

namespace Code

/-- A position, or the distance between two, as a signed 64-bit word, which wraps around. -/
def wrapped (position : Int) : Int :=
  position.bmod (1 <<< 64)

theorem wrapped_of_mem_range {position : Int} (lower : -0x8000000000000000 ≤ position)
    (upper : position < 0x8000000000000000) : wrapped position = position :=
  Int.bmod_eq_of_le (by simpa using lower) (by simpa using upper)

end Code

namespace Instruction

/-- The instruction that starts at a position of a stream. -/
def decodeAt (code : Bytes) (position : Nat) : Except DecodeError Instruction :=
  Read.instruction.run (Cursor.seek code position)

def distances (instruction : Instruction) : List Int32 :=
  instruction.operand.distances

/-- The positions an instruction may branch to. -/
def targets (instruction : Instruction) : List Int :=
  instruction.distances.map fun distance => Code.wrapped (instruction.offset + distance.toInt)

def minimalWidth (instruction : Instruction) : Width :=
  instruction.operand.minimalWidth

/-- Number of bytes the instruction takes when its variable operand has a given width. -/
def sizeAt (instruction : Instruction) (width : Width) : Nat :=
  1 + match instruction.opcode.shape with
    | .absent => 0
    | .uint8 => 1
    | .uint16 | .int16 => 2
    | .int32 => 4
    | .int64 | .float64 => 8
    | .index | .offset => width.bytes
    | .caseTable => 2 + instruction.distances.length * width.bytes
    | .tryPair => 2 * width.bytes

def size (instruction : Instruction) : Nat :=
  instruction.sizeAt instruction.width

def encode (instruction : Instruction) : Bytes :=
  instruction.opcode.encode instruction.width :: instruction.operand.encode instruction.width

/-- The operand as a listing shows it, with a blank in front. -/
def operandText (instruction : Instruction) : String :=
  match instruction.operand with
  | .absent => ""
  | .byte value => s!" {value.toNat}"
  | .char codeUnit => s!" {codeUnit.toNat}"
  | .count elements => s!" {elements.toNat}"
  | .short value => s!" {value.toInt}"
  | .int value => s!" {value.toInt}"
  | .long value => s!" {value.toInt}"
  | .double bits => s!" {Decimal.text bits}"
  | .index number => s!" #{number.toNat}"
  | .offset _ | .table _ | .tryPair _ _ =>
    " " ++ ", ".intercalate (instruction.targets.map fun target => s!"@{target}")

/-- The line of a listing: the offset in six digits, the mnemonic and the operand. -/
def text (instruction : Instruction) : String :=
  Text.padded 10 6 instruction.offset ++ "  " ++ instruction.opcode.name ++
    instruction.operandText

end Instruction

namespace Code

/-- The instructions of a whole stream. -/
def decode (code : Bytes) : Except DecodeError (List Instruction) :=
  (Read.untilEnd Read.instruction).run (Cursor.start code)

/-- The stream of instructions, each at its own width. -/
def encode (instructions : List Instruction) : Bytes :=
  instructions.flatMap Instruction.encode

end Code

end ObjectMachine
