import ObjectMachine.Bytes.LittleEndian
import ObjectMachine.Text.Hex

/-!
# Reading a byte string

A reading keeps the position it has reached and the bytes from there on. A primitive that finds
too few bytes fails at the position where it started and leaves the cursor there.
-/

namespace ObjectMachine

/-- Why bytes cannot be read as what they should hold. -/
inductive DecodeError
  /-- Fewer bytes are left at this position than the item needs. -/
  | unexpectedEnd (offset : Nat)
  /-- The text that starts at this position is not UTF-8. -/
  | invalidText (offset : Nat)
  /-- No opcode has this byte. -/
  | invalidOpcode (byte : UInt8) (offset : Nat)
  /-- No metadata record has this tag. -/
  | invalidTag (byte : UInt8) (offset : Nat)
deriving DecidableEq, Repr

/-- The position a reading has reached, with the bytes from there on. -/
structure Cursor where
  position : Nat
  rest : Bytes
  /-- Whether the position lies behind the end, where not even no bytes can be read. -/
  isBeyond : Bool
deriving DecidableEq, Repr

namespace DecodeError

def message : DecodeError → String
  | unexpectedEnd offset => s!"unexpected end of stream at offset {offset}"
  | invalidText offset => s!"invalid UTF-8 string at offset {offset}"
  | invalidOpcode byte offset => s!"invalid opcode {Text.hexByte byte} at offset {offset}"
  | invalidTag byte offset => s!"invalid metadata tag {Text.hexByte byte} at offset {offset}"

end DecodeError

namespace Cursor

/-- The cursor over `source` that stands at `position`, which may lie behind the end. -/
def seek (source : Bytes) (position : Nat) : Cursor :=
  match source.drop position with
  | [] => ⟨position, [], source.length < position⟩
  | rest => ⟨position, rest, false⟩

def start (source : Bytes) : Cursor :=
  ⟨0, source, false⟩

def remaining (cursor : Cursor) : Nat :=
  cursor.rest.length

def hasMore (cursor : Cursor) : Bool :=
  !cursor.rest.isEmpty

end Cursor

/-- A reading: it moves the cursor, and on failure the cursor shows how far it came. -/
abbrev Read := EStateM DecodeError Cursor

namespace Read

/-- The next `count` bytes. -/
def take (count : Nat) : Read Bytes := fun cursor =>
  let head := cursor.rest.take count
  if head.length = count ∧ !cursor.isBeyond then
    .ok head { cursor with position := cursor.position + count, rest := cursor.rest.drop count }
  else
    .error (.unexpectedEnd cursor.position) cursor

def byte : Read UInt8 := fun cursor =>
  match cursor.rest with
  | [] => .error (.unexpectedEnd cursor.position) cursor
  | byte :: rest => .ok byte { cursor with position := cursor.position + 1, rest }

/-- An unsigned number of `count` bytes. -/
def word (count : Nat) : Read Nat :=
  LittleEndian.value <$> take count

/-- A two's complement number of `count` bytes. -/
def signedWord (count : Nat) : Read Int :=
  LittleEndian.signedValue <$> take count

def uint16 : Read UInt16 := UInt16.ofNat <$> word 2
def uint32 : Read UInt32 := UInt32.ofNat <$> word 4
def uint64 : Read UInt64 := UInt64.ofNat <$> word 8
def int8 : Read Int8 := Int8.ofInt <$> signedWord 1
def int16 : Read Int16 := Int16.ofInt <$> signedWord 2
def int32 : Read Int32 := Int32.ofInt <$> signedWord 4
def int64 : Read Int64 := Int64.ofInt <$> signedWord 8

/-- Text of `length` UTF-8 bytes. Bytes that are no text have been read all the same. -/
def text (length : Nat) : Read String := do
  let start := (← get).position
  let bytes ← take length
  match String.fromUTF8? ⟨bytes.toArray⟩ with
  | some text => pure text
  | none => throw (.invalidText start)

/-- A name: its byte length in two bytes, then its text. -/
def name : Read String := do
  let length ← uint16
  text length.toNat

/-- As `times`, with the items read so far in reverse. -/
def timesOnto (item : Read α) : Nat → List α → Read (List α)
  | 0, items => fun cursor => .ok items.reverse cursor
  | count + 1, items => fun cursor =>
    match item cursor with
    | .ok value next => timesOnto item count (value :: items) next
    | .error fault next => .error fault next

/-- An item read `count` times. -/
def times (count : Nat) (item : Read α) : Read (List α) :=
  timesOnto item count []

/-- As `untilEnd`, for at most `fuel` items and with the items read so far in reverse. -/
def untilEndOnto (item : Read α) : Nat → List α → Read (List α)
  | 0, items => fun cursor => .ok items.reverse cursor
  | fuel + 1, items => fun cursor =>
    if cursor.hasMore then
      match item cursor with
      | .ok value next => untilEndOnto item fuel (value :: items) next
      | .error fault next => .error fault next
    else .ok items.reverse cursor

/-- An item read as long as bytes are left. Each item takes at least one byte, so there are no
more items than bytes. -/
def untilEnd (item : Read α) : Read (List α) := fun cursor =>
  untilEndOnto item cursor.remaining [] cursor

/-- Runs a reading over a whole byte string and keeps its answer only. -/
def run (reading : Read α) (cursor : Cursor) : Except DecodeError α :=
  match EStateM.run reading cursor with
  | .ok value _ => .ok value
  | .error fault _ => .error fault

end Read

end ObjectMachine
