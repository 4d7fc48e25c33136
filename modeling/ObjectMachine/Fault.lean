import ObjectMachine.Bytes.Cursor
import ObjectMachine.Code.Opcode

/-!
# Faults

A fault ends the whole run: none of them can be caught by a program.
-/

namespace ObjectMachine

inductive Fault
  | stackOverflow
  | stackUnderflow
  | callDepthExceeded (limit : Nat)
  | invalidInstruction (offset : Nat) (cause : DecodeError)
  /-- A table of the running module has no entry of this number. -/
  | unresolvedReference (table : ReferenceTable) (index : UInt32) (moduleName : String)
  | invalidLocal (slot : UInt32)
  | typeError (problem : String)
  | divisionByZero
  | conversionFailed (value : String) (target : Kind)
  /-- Null stands where this member needs an object. -/
  | nullReceiver (member : String)
  | notAnObject (value : String)
  | unknownField (className field : String)
  | unknownMethod (className method : String) (arity : UInt16)
  /-- A class stands where this member needs an instance. -/
  | notStatic (className member : String)
  | noParent (className : String)
  | indexOutOfBounds (index : Int64) (length : Nat)
  | negativeLength (length : Int64)
  | arrayTooLarge (length : Int64)
  /-- The innermost try construct is not in the phase that an instruction ends. -/
  | illegalExceptionState (operation : String)
  | illegalTarget (operation value : String)
  | monitorNotHeld (target : String)
  | tooManyThreads (limit : Nat)
  /-- So many threads are left and none can ever go on. -/
  | deadlock (count : Nat)
  | uncaughtException (value : String)
  /-- A native class refused an operation. -/
  | facade (typeName problem : String)
deriving DecidableEq, Repr

namespace Fault

def message : Fault → String
  | stackOverflow => "Stack overflow"
  | stackUnderflow => "Stack underflow"
  | callDepthExceeded limit => s!"Call depth limit of {limit} exceeded"
  | invalidInstruction offset cause => s!"Invalid instruction at {offset}: {cause.message}"
  | unresolvedReference table index moduleName =>
    s!"Unresolved {table.name} reference {index.toNat} in module {moduleName}"
  | invalidLocal slot => s!"Invalid local slot {slot.toNat}"
  | typeError problem => s!"Type error: {problem}"
  | divisionByZero => "Division by zero"
  | conversionFailed value target => s!"Cannot convert {value} to {target.name}"
  | nullReceiver member => s!"Null receiver for {member}"
  | notAnObject value => s!"Not an object: {value}"
  | unknownField className field => s!"No field {field} on class {className}"
  | unknownMethod className method arity =>
    s!"No method {method}/{arity.toNat} on class {className}"
  | notStatic className member => s!"Instance member {member} used on class {className}"
  | noParent className => s!"Class {className} has no parent"
  | indexOutOfBounds index length => s!"Index {index.toInt} out of bounds for length {length}"
  | negativeLength length => s!"Negative array length {length.toInt}"
  | arrayTooLarge length => s!"Array length {length.toInt} is too large"
  | illegalExceptionState operation => s!"Illegal {operation} in current exception phase"
  | illegalTarget operation value => s!"Illegal {operation} target: {value}"
  | monitorNotHeld target => s!"Monitor not held: {target}"
  | tooManyThreads limit => s!"Thread limit of {limit} reached"
  | deadlock count => s!"Deadlock: {count} thread(s) blocked forever"
  | uncaughtException value => s!"Uncaught exception: {value}"
  | facade typeName problem => s!"Facade {typeName}: {problem}"

end Fault

end ObjectMachine
