import ObjectMachine.Bytes.Cursor
import ObjectMachine.Text.Quoted

/-!
# Faults of a compiled unit
-/

namespace ObjectMachine

/-- A part of a unit file whose length its header declares. -/
inductive Section
  | metadata
  | code
deriving DecidableEq, Repr

def Section.name : Section → String
  | metadata => "metadata"
  | code => "code"

/-- Items of a unit that carry numbers from 1 on. -/
inductive NumberedTable
  | staticFields
  | fields
  | methods
  | strings
  | classRefs
  | fieldAccesses
  | methodCalls
deriving DecidableEq, Repr

def NumberedTable.name : NumberedTable → String
  | staticFields => "static field"
  | fields => "field"
  | methods => "method"
  | strings => "string"
  | classRefs => "class ref"
  | fieldAccesses => "field access"
  | methodCalls => "method call"

inductive UnitError
  | decode (fault : DecodeError)
  | invalidMagic (first second : UInt8)
  /-- The file has fewer bytes than its header. -/
  | tooShort (length : Nat)
  | negativeLength (part : Section) (length : Int32)
  /-- The declared lengths do not add up to what follows the header. -/
  | lengthMismatch (declared actual : Nat)
  | missingModule
  | missingEnd
  /-- Bytes follow the record that ends the metadata. -/
  | trailingMetadata (count : Nat)
  /-- A record of this kind may not stand here. -/
  | unexpectedRecord (kindName : String)
  /-- A class has fewer fields or methods than declared. -/
  | incompleteClass (name : String)
  | numberOutOfRange (table : NumberedTable) (number greatest : UInt32)
  | duplicateNumber (table : NumberedTable) (number : UInt32)
  | missingEntry (table : NumberedTable) (number : Nat)
deriving DecidableEq, Repr

namespace UnitError

def message : UnitError → String
  | decode fault => s!"decode error: {fault.message}"
  | invalidMagic first second =>
    let found := Text.bracketed [toString first.toNat, toString second.toNat]
    s!"invalid magic {found}, expected \"OM\""
  | tooShort length => s!"unit too short: {length} bytes"
  | negativeLength part length => s!"negative {part.name} length {length.toInt}"
  | lengthMismatch declared actual =>
    s!"length mismatch: header declares {declared} bytes, file holds {actual}"
  | missingModule => "metadata must start with a Module record"
  | missingEnd => "metadata is not terminated by End"
  | trailingMetadata count => s!"{count} bytes of trailing metadata after End"
  | unexpectedRecord kindName => s!"unexpected {kindName} record"
  | incompleteClass name => s!"class {name} is missing field or method records"
  | numberOutOfRange table number greatest =>
    s!"{table.name} number {number.toNat} out of range 1..={greatest.toNat}"
  | duplicateNumber table number => s!"{table.name} number {number.toNat} defined twice"
  | missingEntry table number => s!"{table.name} number {number} is never defined"

end UnitError

end ObjectMachine
