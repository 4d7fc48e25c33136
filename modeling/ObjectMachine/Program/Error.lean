import ObjectMachine.Compiled.Verify

/-!
# Errors of loading
-/

namespace ObjectMachine

inductive LoadError
  /-- A unit file cannot be read, for a reason given by the system. -/
  | io (path reason : String)
  | moduleNotFound (name : String) (searched : List String)
  /-- A unit declares another name than the one it was looked for under. -/
  | nameMismatch (requested found : String)
  | unit (moduleName : String) (fault : UnitError)
  | verify (moduleName : String) (fault : VerifyError)
  | optimize (fault : LayoutError)
  | duplicateClass (name : String)
  | duplicateField (className field : String)
  | duplicateMethod (className method : String)
  | unresolvedClass (moduleName name : String)
  /-- Several used modules have a class of this name. -/
  | ambiguousClass (name : String) (candidates : List String)
  | unknownFacade (className nativeType : String)
  | facadeInheritance (className parent : String)
  | inheritanceCycle (className : String)
  | missingEntryPoint (moduleName : String)
deriving DecidableEq, Repr

namespace LoadError

def message : LoadError → String
  | io path reason => s!"Cannot read module file {path}: {reason}"
  | moduleNotFound name searched =>
    s!"Module not found: {name} (searched {Text.bracketed (searched.map Text.quoted)})"
  | nameMismatch requested found => s!"Requested module {requested} but unit declares {found}"
  | unit moduleName fault => s!"Module {moduleName}: {fault.message}"
  | verify moduleName fault => s!"Module {moduleName} failed verification: {fault.message}"
  | optimize fault => s!"Branch optimization failed: {fault.message}"
  | duplicateClass name => s!"Duplicate class {name}"
  | duplicateField className field => s!"Duplicate field {field} in class {className}"
  | duplicateMethod className method => s!"Duplicate method {method} in class {className}"
  | unresolvedClass moduleName name =>
    s!"Unresolved class {name} referenced from module {moduleName}"
  | ambiguousClass name candidates =>
    s!"Ambiguous class {name}: {Text.bracketed (candidates.map Text.quoted)}"
  | unknownFacade className nativeType =>
    s!"Class {className} needs unregistered native type {nativeType}"
  | facadeInheritance className parent =>
    s!"Class {className} cannot inherit from {parent}: " ++
      "facade classes do not take part in inheritance"
  | inheritanceCycle className => s!"Inheritance cycle through {className}"
  | missingEntryPoint moduleName => s!"Module {moduleName} declares no static main/1 or main/0"

end LoadError

end ObjectMachine
