import ObjectMachine.Code.Layout
import ObjectMachine.Compiled.File

/-!
# Verification

A unit is sound if its metadata is accepted, every method and every branch leads to the start of
an instruction, every table number lies in its table, and every conversion names a kind.
-/

namespace ObjectMachine

inductive VerifyError
  | decode (fault : DecodeError)
  | unit (fault : UnitError)
  | invalidJumpTarget (target : Int) (offset : Nat)
  | invalidMethodOffset (className methodName : String) (offset : UInt32)
  | invalidReference (table : ReferenceTable) (index : UInt32) (size : Nat) (offset : Nat)
  | invalidConvertKind (code : UInt8) (offset : Nat)
deriving DecidableEq, Repr

def VerifyError.message : VerifyError → String
  | decode fault => s!"decode error: {fault.message}"
  | unit fault => s!"metadata error: {fault.message}"
  | invalidJumpTarget target offset => s!"invalid jump target {target} at offset {offset}"
  | invalidMethodOffset className methodName offset =>
    s!"method {className}.{methodName} starts at {offset.toNat}, " ++
      "which is not an instruction boundary"
  | invalidReference table index size offset =>
    s!"invalid {table.name} reference {index.toNat} (table has {size}) at offset {offset}"
  | invalidConvertKind code offset =>
    s!"invalid conversion kind {code.toNat} at offset {offset}"

namespace Verify

/-- The size of a module's table; locals are in none. -/
def tableSize (view : Metadata) : ReferenceTable → Option Nat
  | .locals => none
  | .strings => some view.strings.length
  | .classes => some view.classRefs.length
  | .fields => some view.fieldAccesses.length
  | .methods => some view.methodCalls.length

/-- The table that an instruction refers to, with its size. -/
def referredTable (view : Metadata) (opcode : Opcode) : Option (ReferenceTable × Nat) := do
  let table ← opcode.references
  let size ← tableSize view table
  pure (table, size)

/-- Whether an instruction starts at a position. The end of the code is no such position. -/
def isStart (index : Array (Option Nat)) (count : Nat) (position : Int) : Bool :=
  match Layout.lineAt index position with
  | some line => line < count
  | none => false

def checkTargets (isStart : Int → Bool) (instruction : Instruction) : Except VerifyError Unit :=
  match instruction.targets.find? (!isStart ·) with
  | some target => .error (.invalidJumpTarget target instruction.offset)
  | none => .ok ()

def checkReferences (view : Metadata) (instruction : Instruction) : Except VerifyError Unit :=
  match instruction.operand with
  | .index number =>
    match referredTable view instruction.opcode with
    | some (table, size) =>
      if number = 0 ∨ size < number.toNat then
        .error (.invalidReference table number size instruction.offset)
      else .ok ()
    | none => .ok ()
  | .byte code =>
    if instruction.opcode = .convert ∧ (Kind.ofCode? code.toNat).isNone then
      .error (.invalidConvertKind code instruction.offset)
    else .ok ()
  | _ => .ok ()

def checkMethod (isStart : Int → Bool) (className : String) (method : MethodInfo) :
    Except VerifyError Unit :=
  if isStart method.header.codeOffset.toNat then .ok ()
  else .error (.invalidMethodOffset className method.header.name method.header.codeOffset)

/-- Checks a stream against the declarations of its unit: all methods, then each instruction's
targets and references. -/
def checkCode (code : Bytes) (view : Metadata) : Except VerifyError Unit := do
  let instructions ← (Code.decode code).mapError .decode
  let isStart := isStart (Layout.lineIndex instructions) instructions.length
  view.classes.toList.forM fun info =>
    info.methods.toList.forM (checkMethod isStart info.name)
  instructions.forM fun instruction => do
    checkTargets isStart instruction
    checkReferences view instruction

end Verify

/-- The declarations of a unit that is sound. -/
def CompiledUnit.verify (unit : CompiledUnit) : Except VerifyError Metadata := do
  let view ← unit.view.mapError .unit
  Verify.checkCode unit.code view
  pure view

end ObjectMachine
