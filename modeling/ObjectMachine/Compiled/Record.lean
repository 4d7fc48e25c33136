import ObjectMachine.Bytes.Cursor
import ObjectMachine.Bytes.Write

/-!
# Metadata records

The metadata of a unit is a stream of tagged records that the record `finish` ends. A record
keeps everything its bytes say, so that the stream can be written back byte for byte.
-/

namespace ObjectMachine

/-- What stands behind a class. -/
inductive ClassKind
  | plain
  /-- A native type, with a handle that means nothing to the machine. -/
  | facade (nativeType handle : String)
  /-- A type of the host. -/
  | implicit (hostType : String)
deriving DecidableEq, Repr

structure ClassHeader where
  name : String
  /-- Name of the parent class, empty for none. -/
  parent : String
  staticFieldCount : UInt32
  instanceFieldCount : UInt32
  methodCount : UInt32
  kind : ClassKind
deriving DecidableEq, Repr

structure MethodHeader where
  name : String
  /-- Number of the method in its class, from 1 on. -/
  number : UInt32
  /-- Where its code starts in the unit's code. -/
  codeOffset : UInt32
  returnsValue : Bool
  /-- Number of arguments without the receiver. -/
  argCount : UInt16
  /-- Number of local slots beyond the arguments. -/
  localCount : UInt16
  isStatic : Bool
deriving DecidableEq, Repr

structure FieldHeader where
  name : String
  /-- Slot of the field among those of its kind, from 1 on. -/
  number : UInt32
  isStatic : Bool
deriving DecidableEq, Repr

inductive MetaRecord
  | finish
  /-- The module's name and the sizes of its reference tables. -/
  | moduleHeader (name : String) (classRefs fieldAccesses methodCalls strings : UInt32)
  | use (moduleName : String)
  | classHeader (header : ClassHeader)
  | field (header : FieldHeader)
  | method (header : MethodHeader)
  | localName (name : String) (slot : UInt32)
  /-- A string literal; a short one has its length in one byte. -/
  | string (number : UInt32) (value : String) (short : Bool)
  | classRef (name : String) (number : UInt32)
  | fieldAccess (name : String) (number : UInt32)
  | methodCall (name : String) (arity : UInt16) (number : UInt32)
  | enumeration (name : String) (members : List (String × Int32))
deriving DecidableEq, Repr

namespace MetaRecord

/-- What diagnostics call a record. -/
def kindName : MetaRecord → String
  | finish => "End"
  | moduleHeader .. => "Module"
  | use _ => "UseModule"
  | classHeader _ => "Class"
  | field _ => "Field"
  | method _ => "Method"
  | localName .. => "LocalVariable"
  | string .. => "StringLiteral"
  | classRef .. => "ClassRef"
  | fieldAccess .. => "FieldAccess"
  | methodCall .. => "MethodCall"
  | enumeration .. => "Enum"

/-- First byte of a record. -/
def tag : MetaRecord → UInt8
  | finish => 0x00
  | moduleHeader .. => 0x01
  | use _ => 0x02
  | classHeader header =>
    match header.kind with
    | .plain => 0x03
    | .facade .. => 0x04
    | .implicit _ => 0x05
  | field header => if header.isStatic then 0x07 else 0x06
  | method header => if header.isStatic then 0x09 else 0x08
  | localName .. => 0x0A
  | string _ _ short => if short then 0x0C else 0x0B
  | classRef .. => 0x0D
  | fieldAccess .. => 0x0E
  | methodCall .. => 0x0F
  | enumeration .. => 0x10

/-- The bytes of a record after its tag. -/
def payload : MetaRecord → Bytes
  | finish => []
  | moduleHeader name classRefs fieldAccesses methodCalls strings =>
    Write.name name ++ Write.uint32 classRefs ++ Write.uint32 fieldAccesses ++
      Write.uint32 methodCalls ++ Write.uint32 strings
  | use moduleName => Write.name moduleName
  | classHeader header =>
    Write.name header.name ++ Write.name header.parent ++ Write.uint32 header.staticFieldCount ++
      Write.uint32 header.instanceFieldCount ++ Write.uint32 header.methodCount ++
      match header.kind with
      | .plain => []
      | .facade nativeType handle => Write.name nativeType ++ Write.name handle
      | .implicit hostType => Write.name hostType
  | field header => Write.name header.name ++ Write.uint32 header.number
  | method header =>
    Write.name header.name ++ Write.uint32 header.number ++ Write.uint32 header.codeOffset ++
      Write.byte (if header.returnsValue then 1 else 0) ++ Write.uint16 header.argCount ++
      Write.uint16 header.localCount
  | localName name slot => Write.name name ++ Write.uint32 slot
  | string number value short =>
    Write.uint32 number ++ LittleEndian.bytes (if short then 1 else 4) value.utf8ByteSize ++
      Write.text value
  | classRef name number => Write.name name ++ Write.uint32 number
  | fieldAccess name number => Write.name name ++ Write.uint32 number
  | methodCall name arity number =>
    Write.name name ++ Write.uint16 arity ++ Write.uint32 number
  | enumeration name members =>
    Write.name name ++ LittleEndian.bytes 2 members.length ++
      members.flatMap fun (member, value) => Write.name member ++ Write.int32 value

def encode (record : MetaRecord) : Bytes :=
  record.tag :: record.payload

/-- The bytes of records in a row. -/
def encodeAll (records : List MetaRecord) : Bytes :=
  records.flatMap encode

end MetaRecord

namespace Read

/-- A class header whose tag has been read. The part that depends on the tag comes last. -/
def classHeader (kind : Read ClassKind) : Read MetaRecord := do
  let name ← name
  let parent ← Read.name
  let staticFieldCount ← uint32
  let instanceFieldCount ← uint32
  let methodCount ← uint32
  let kind ← kind
  pure (.classHeader
    { name, parent, staticFieldCount, instanceFieldCount, methodCount, kind })

def fieldHeader (isStatic : Bool) : Read MetaRecord := do
  let name ← name
  let number ← uint32
  pure (.field { name, number, isStatic })

def methodHeader (isStatic : Bool) : Read MetaRecord := do
  let name ← name
  let number ← uint32
  let codeOffset ← uint32
  let returnsValue ← byte
  let argCount ← uint16
  let localCount ← uint16
  pure (.method {
    name, number, codeOffset, returnsValue := returnsValue ≠ 0, argCount, localCount, isStatic })

/-- A name and a number. -/
def namedNumber (record : String → UInt32 → MetaRecord) : Read MetaRecord := do
  let name ← name
  let number ← uint32
  pure (record name number)

/-- The rest of a record with a given tag, which stood at `start`. -/
def payload (start : Nat) (tag : UInt8) : Read MetaRecord :=
  match tag.toNat with
  | 0x00 => pure .finish
  | 0x01 => do
    let name ← name
    let classRefs ← uint32
    let fieldAccesses ← uint32
    let methodCalls ← uint32
    let strings ← uint32
    pure (.moduleHeader name classRefs fieldAccesses methodCalls strings)
  | 0x02 => .use <$> name
  | 0x03 => classHeader (pure .plain)
  | 0x04 => classHeader do
    let nativeType ← name
    let handle ← name
    pure (.facade nativeType handle)
  | 0x05 => classHeader (.implicit <$> name)
  | 0x06 => fieldHeader false
  | 0x07 => fieldHeader true
  | 0x08 => methodHeader false
  | 0x09 => methodHeader true
  | 0x0A => namedNumber .localName
  | 0x0B => do
    let number ← uint32
    let length ← word 4
    let value ← text length
    pure (.string number value false)
  | 0x0C => do
    let number ← uint32
    let length ← word 1
    let value ← text length
    pure (.string number value true)
  | 0x0D => namedNumber .classRef
  | 0x0E => namedNumber .fieldAccess
  | 0x0F => do
    let name ← name
    let arity ← uint16
    let number ← uint32
    pure (.methodCall name arity number)
  | 0x10 => do
    let name ← name
    let count ← uint16
    let members ← times count.toNat do
      let member ← Read.name
      let value ← int32
      pure (member, value)
    pure (.enumeration name members)
  | _ => throw (.invalidTag tag start)

def metaRecord : Read MetaRecord := do
  let start := (← get).position
  let tag ← byte
  payload start tag

end Read

end ObjectMachine
