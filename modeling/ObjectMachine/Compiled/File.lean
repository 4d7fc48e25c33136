import ObjectMachine.Code.Instruction
import ObjectMachine.Compiled.Metadata

/-!
# Unit files

A unit file starts with `OM` and the byte lengths of its two sections, 32-bit signed numbers;
the metadata and the code follow and nothing else.
-/

namespace ObjectMachine

/-- The two sections of a compiled module. -/
structure CompiledUnit where
  metadata : Bytes
  code : Bytes
deriving DecidableEq, Repr

namespace MetaRecord

/-- The records up to the one that ends the stream, which nothing may follow, after those already
read. There are no more records than bytes, which `fuel` counts. -/
def decodeOnto : Nat → List MetaRecord → Cursor → Except UnitError (List MetaRecord)
  | 0, _, _ => .error .missingEnd
  | fuel + 1, records, cursor =>
    if cursor.hasMore then
      match Read.metaRecord cursor with
      | .error fault _ => .error (.decode fault)
      | .ok record next =>
        if record = finish then
          if next.hasMore then .error (.trailingMetadata next.remaining)
          else .ok (record :: records).reverse
        else decodeOnto fuel (record :: records) next
    else .error .missingEnd

/-- The records of a metadata section. -/
def decodeAll (metadata : Bytes) : Except UnitError (List MetaRecord) :=
  decodeOnto (metadata.length + 1) [] (Cursor.start metadata)

end MetaRecord

namespace CompiledUnit

/-- First bytes of every unit file. -/
def magic : UInt8 × UInt8 := (0x4F, 0x4D)

/-- Bytes before the sections. -/
def headerSize : Nat := 10

/-- Ending of a unit file's name, without the point. -/
def fileEnding : String := "om"

def encode (unit : CompiledUnit) : Bytes :=
  [magic.1, magic.2] ++ LittleEndian.bytes 4 unit.metadata.length ++
    LittleEndian.bytes 4 unit.code.length ++ unit.metadata ++ unit.code

/-- The sections of a file. Only the framing is checked. -/
def decode (file : Bytes) : Except UnitError CompiledUnit := do
  if file.length < headerSize then
    throw (.tooShort file.length)
  let header : Read (UInt8 × UInt8 × Int32 × Int32) := do
    let first ← Read.byte
    let second ← Read.byte
    let metadataLength ← Read.int32
    let codeLength ← Read.int32
    pure (first, second, metadataLength, codeLength)
  let (first, second, metadataLength, codeLength) ←
    (header.run (Cursor.start file)).mapError .decode
  if (first, second) ≠ magic then
    throw (.invalidMagic first second)
  if metadataLength < 0 then
    throw (.negativeLength .metadata metadataLength)
  if codeLength < 0 then
    throw (.negativeLength .code codeLength)
  let metadataSize := metadataLength.toInt.toNat
  let declared := metadataSize + codeLength.toInt.toNat
  let actual := file.length - headerSize
  if declared ≠ actual then
    throw (.lengthMismatch declared actual)
  let body := file.drop headerSize
  pure ⟨body.take metadataSize, body.drop metadataSize⟩

def records (unit : CompiledUnit) : Except UnitError (List MetaRecord) :=
  MetaRecord.decodeAll unit.metadata

/-- The checked declarations of a unit. -/
def view (unit : CompiledUnit) : Except UnitError Metadata := do
  Metadata.ofRecords (← unit.records)

def instructions (unit : CompiledUnit) : Except DecodeError (List Instruction) :=
  Code.decode unit.code

end CompiledUnit

end ObjectMachine
