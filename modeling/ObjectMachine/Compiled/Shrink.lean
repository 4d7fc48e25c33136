import ObjectMachine.Code.Layout
import ObjectMachine.Compiled.File

/-!
# Shrinking a unit

The code of a unit is given minimal branch widths, and its methods move along with it.
-/

namespace ObjectMachine

inductive ShrinkError
  | unit (fault : UnitError)
  | layout (fault : LayoutError)
deriving DecidableEq, Repr

def ShrinkError.message : ShrinkError → String
  | unit fault => s!"unit error: {fault.message}"
  | layout fault => fault.message

/-- A unit with minimal branch widths, and what that took. -/
structure ShrunkUnit where
  unit : CompiledUnit
  passes : Nat
  bytesSaved : Nat
deriving DecidableEq, Repr

namespace MetaRecord

/-- Where a method record's code starts. -/
def codeOffset? : MetaRecord → Option UInt32
  | method header => some header.codeOffset
  | _ => none

/-- Records whose methods start at new positions, given in order. -/
def moveMethods : List MetaRecord → List UInt32 → List MetaRecord
  | method header :: records, moved :: rest =>
    method { header with codeOffset := moved } :: moveMethods records rest
  | method header :: records, [] => method header :: moveMethods records []
  | record :: records, moved => record :: moveMethods records moved
  | [], _ => []

end MetaRecord

namespace CompiledUnit

def shrink (unit : CompiledUnit) : Except ShrinkError ShrunkUnit := do
  let records ← unit.records.mapError .unit
  let shrunk ← (Code.shrink unit.code (records.filterMap MetaRecord.codeOffset?)).mapError .layout
  pure {
    unit := ⟨MetaRecord.encodeAll (MetaRecord.moveMethods records shrunk.entryPoints), shrunk.code⟩
    passes := shrunk.passes
    bytesSaved := shrunk.bytesSaved }

end CompiledUnit

end ObjectMachine
