import ObjectMachine.Class.Catalog
import ObjectMachine.Fault
import ObjectMachine.Program.Segment

/-!
# Programs

A program is the code of all its modules in one segment, the tables that each module's code
refers to, and the classes with their inherited members.
-/

namespace ObjectMachine

/-- The tables of a module, whose entries have numbers from 1 on. -/
structure ModuleRecord where
  name : String
  uses : List String
  classRefs : Array ClassId
  fieldNames : Array Symbol
  methodCalls : Array MethodKey
  strings : Array String
deriving DecidableEq, Repr, Inhabited

structure Program where
  code : Segment
  /-- The last one holds the references of the entry sequence. -/
  modules : Array ModuleRecord
  catalog : Catalog
  symbols : SymbolTable
  /-- Address of the instructions that call the main method. -/
  entry : Nat
  entryModule : ModuleId
  mainClass : ClassId
  mainTakesArgs : Bool

namespace ModuleRecord

/-- The entry with a number. -/
def entry (record : ModuleRecord) (table : ReferenceTable) (entries : Array α) (index : UInt32) :
    Except Fault α :=
  match (Heap.placeOf index).bind (entries[·]?) with
  | some found => .ok found
  | none => .error (.unresolvedReference table index record.name)

def classRef (record : ModuleRecord) (index : UInt32) : Except Fault ClassId :=
  record.entry .classes record.classRefs index

def fieldName (record : ModuleRecord) (index : UInt32) : Except Fault Symbol :=
  record.entry .fields record.fieldNames index

def methodCall (record : ModuleRecord) (index : UInt32) : Except Fault MethodKey :=
  record.entry .methods record.methodCalls index

def string (record : ModuleRecord) (index : UInt32) : Except Fault String :=
  record.entry .strings record.strings index

end ModuleRecord

namespace Program

def moduleOf (program : Program) (id : ModuleId) : ModuleRecord :=
  program.modules.getD id.index default

/-- The module of a name. -/
def findModule? (program : Program) (name : String) : Option ModuleId :=
  (program.modules.findIdx? (·.name == name)).map ModuleId.mk

/-- The text of a value that is no array, with classes by name. -/
def describeScalar (program : Program) (value : Value) : String :=
  match value with
  | .object view _ => "<" ++ program.catalog.name view ++ ">"
  | .classRef id => program.catalog.name id
  | other => Heap.scalarText other

/-- The text of a value with classes by name. -/
def describe (program : Program) (heap : Heap) (value : Value) : String :=
  heap.textWith program.describeScalar value

end Program

end ObjectMachine
