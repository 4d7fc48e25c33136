import ObjectMachine.Bytes.LittleEndian

/-!
# Writing a byte string

Every item is written as a byte string of its own; a stream is their concatenation. A number
that needs more bytes than it is given keeps its lowest ones.
-/

namespace ObjectMachine

namespace Write

/-- The UTF-8 bytes of a text. -/
def text (text : String) : Bytes :=
  text.toUTF8.data.toList

def byte (value : UInt8) : Bytes := [value]
def uint16 (value : UInt16) : Bytes := LittleEndian.bytes 2 value.toNat
def uint32 (value : UInt32) : Bytes := LittleEndian.bytes 4 value.toNat
def uint64 (value : UInt64) : Bytes := LittleEndian.bytes 8 value.toNat
def int8 (value : Int8) : Bytes := [value.toUInt8]
def int16 (value : Int16) : Bytes := uint16 value.toUInt16
def int32 (value : Int32) : Bytes := uint32 value.toUInt32
def int64 (value : Int64) : Bytes := uint64 value.toUInt64

/-- A name: the byte length modulo 65536 in two bytes, then the whole text. -/
def name (name : String) : Bytes :=
  LittleEndian.bytes 2 name.utf8ByteSize ++ text name

/-- `bytes` with the bytes from position `start` on replaced by `patch`. The patch must lie
inside. -/
def overwrite (bytes : Bytes) (start : Nat) (patch : Bytes) : Bytes :=
  bytes.take start ++ patch ++ bytes.drop (start + patch.length)

end Write

end ObjectMachine
