import ObjectMachine.Compiled.Metadata
import ObjectMachine.Value.Value

/-!
# Native classes

A native class keeps values of its own beside the heap: some shared by the whole class, some by
each instance. Its operations may also print. One that fails gives its reason and changes
nothing.
-/

namespace ObjectMachine

/-- What an operation of a native class works on. -/
structure NativeScope where
  shared : Array Value
  /-- The values of the instance, if the operation is not on the class itself. -/
  own : Option (Array Value)
  /-- Everything printed so far. -/
  printed : String
deriving DecidableEq, Repr

/-- An operation of a native class. -/
abbrev Native := StateT NativeScope (Except String)

structure Facade where
  typeName : String
  staticFields : List String
  instanceFields : List String
  staticMethods : List MethodRef
  instanceMethods : List MethodRef
  /-- The shared values at first. -/
  shared : Array Value
  /-- The values of a new instance. -/
  create : Native (Array Value)
  get : String → Native Value
  /-- Writes a field, given the text that a value prints as. -/
  set : (Value → String) → String → Value → Native Unit
  /-- Calls a method, given the text that a value prints as. -/
  call : (Value → String) → String → List Value → Native Value

namespace Facade

/-- The native class that a name stands for. -/
def find? (facades : List Facade) (typeName : String) : Option Facade :=
  facades.find? fun facade => facade.typeName == typeName

end Facade

end ObjectMachine
