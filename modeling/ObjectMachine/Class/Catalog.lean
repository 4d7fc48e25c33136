import ObjectMachine.Class.Symbol
import ObjectMachine.Native.Facade
import ObjectMachine.Program.Error
import ObjectMachine.Value.Heap

/-!
# Classes

A class is first declared with its own members only. Flattening then gives it those of its
ancestors: its own field slots move behind the inherited ones, and an inherited method stands
unless the class has one of the same name and number of arguments.
-/

namespace ObjectMachine

/-- A module, by its place in a program. -/
structure ModuleId where
  index : Nat
deriving DecidableEq, Repr, Inhabited

/-- Where a field lives: a slot, from 1 on, of the class or of each instance. -/
structure FieldSlot where
  slot : UInt32
  isStatic : Bool
deriving DecidableEq, Repr

inductive MethodBody
  /-- Code at an address, with a number of locals beside the arguments. -/
  | bytecode (address : Nat) (localCount : UInt16)
  | native
deriving DecidableEq, Repr

structure MethodEntry where
  /-- The module whose tables the code refers to. -/
  moduleId : ModuleId
  argCount : UInt16
  body : MethodBody
  isStatic : Bool
  declaring : ClassId
deriving DecidableEq, Repr

/-- The static fields of a class, and whether their initialization has begun. -/
structure ClassStatics where
  slots : Array Value
  initialized : Bool
deriving DecidableEq, Repr, Inhabited

structure ClassDef where
  name : String
  qualified : String
  moduleId : ModuleId
  parent : Option ClassId
  instanceFieldCount : UInt32
  fields : List (Symbol × FieldSlot)
  methods : List (MethodKey × MethodEntry)
  statics : ClassStatics
  facade : Option Facade
  /-- The constants that initialization stores in static fields. -/
  enumValues : List (Symbol × Int32)
  /-- Whether the members of the ancestors are in. -/
  expanded : Bool
deriving Inhabited

/-- The classes of a program, in the order of their numbers. -/
structure Catalog where
  classes : Array ClassDef

/-- Names of the methods that no class inherits. -/
def constructorName : String := "<init>"

/-- Name of the method that initializes the static fields of a class. -/
def initializerName : String := "<clinit>"

namespace ClassStatics

def value (statics : ClassStatics) (slot : UInt32) : Value :=
  Heap.readSlot statics.slots slot

def set (statics : ClassStatics) (slot : UInt32) (value : Value) : ClassStatics :=
  { statics with slots := Heap.writeSlot statics.slots slot value }

/-- Begins the initialization. The answer is whether nobody has before. -/
def begin (statics : ClassStatics) : Bool × ClassStatics :=
  (!statics.initialized, { statics with initialized := true })

end ClassStatics

/-- Puts an entry in the place of the one with the same key, or behind all others. -/
def putEntry [BEq κ] (entries : List (κ × ν)) (key : κ) (value : ν) : List (κ × ν) :=
  if entries.any (·.1 == key) then
    entries.map fun entry => if entry.1 == key then (key, value) else entry
  else entries ++ [(key, value)]

/-- Entries with those of the second list whose keys the first one does not have. -/
def withInherited [BEq κ] (own inherited : List (κ × ν)) : List (κ × ν) :=
  own ++ inherited.filter fun entry => !own.any (·.1 == entry.1)

namespace ClassDef

/-- A class without members. -/
def new (name moduleName : String) (moduleId : ModuleId) : ClassDef where
  name := name
  qualified := moduleName ++ "." ++ name
  moduleId := moduleId
  parent := none
  instanceFieldCount := 0
  fields := []
  methods := []
  statics := ⟨#[], false⟩
  facade := none
  enumValues := []
  expanded := false

def field? (info : ClassDef) (name : Symbol) : Option FieldSlot :=
  info.fields.lookup name

def method? (info : ClassDef) (key : MethodKey) : Option MethodEntry :=
  info.methods.lookup key

/-- Makes room for the slot of a new field. -/
def reserve (info : ClassDef) (field : FieldSlot) : ClassDef :=
  if field.isStatic then
    let missing := field.slot.toNat - info.statics.slots.size
    let slots := info.statics.slots ++ Array.replicate missing Value.null
    { info with statics := { info.statics with slots } }
  else { info with instanceFieldCount := max info.instanceFieldCount field.slot }

/-- Declares a field. The later one of two equal names stands, but without room of its own. -/
def declareField (symbols : SymbolTable) (name : Symbol) (field : FieldSlot) :
    EStateM LoadError ClassDef Unit := do
  let before ← get
  set { before with fields := putEntry before.fields name field }
  if (before.field? name).isSome then
    throw (.duplicateField before.qualified (symbols.name name))
  modify (·.reserve field)

/-- Declares a method. The later one of two equal signatures stands. -/
def declareMethod (symbols : SymbolTable) (key : MethodKey) (entry : MethodEntry) :
    EStateM LoadError ClassDef Unit := do
  let before ← get
  set { before with methods := putEntry before.methods key entry }
  if (before.method? key).isSome then
    throw (.duplicateMethod before.qualified (symbols.signature key))

/-- An own field moved behind those of a parent. -/
def shifted (parent : ClassDef) (field : FieldSlot) : FieldSlot :=
  let room := if field.isStatic then UInt32.ofNat parent.statics.slots.size
    else parent.instanceFieldCount
  { field with slot := field.slot + room }

/-- A class with the members of its flattened parent. The class has all static fields of its
ancestors once more for itself. -/
def inherit (info parent : ClassDef) (notInherited : List Symbol) : ClassDef :=
  let room := Array.replicate parent.statics.slots.size Value.null
  { info with
    fields := withInherited (info.fields.map fun (name, field) => (name, shifted parent field))
      parent.fields
    methods := withInherited info.methods
      (parent.methods.filter fun (key, _) => !notInherited.contains key.name)
    statics := { info.statics with slots := room ++ info.statics.slots }
    instanceFieldCount := info.instanceFieldCount + parent.instanceFieldCount }

/-- A class for a developer, with the numbers of its members. -/
def debugText (info : ClassDef) : String :=
  let parent := (info.parent.map fun id => s!"Some(ClassId({id.index}))").getD "None"
  let facade := (info.facade.map fun facade => s!"Some({Text.quoted facade.typeName})").getD "None"
  s!"ClassDef \x7b qualified: {Text.quoted info.qualified}, parent: {parent}, " ++
    s!"instance_field_count: {info.instanceFieldCount.toNat}, fields: {info.fields.length}, " ++
    s!"methods: {info.methods.length}, facade: {facade} \x7d"

end ClassDef

namespace Catalog

def empty : Catalog := ⟨#[]⟩

def get (catalog : Catalog) (id : ClassId) : ClassDef :=
  catalog.classes.getD id.index default

def modify (catalog : Catalog) (id : ClassId) (change : ClassDef → ClassDef) : Catalog :=
  ⟨catalog.classes.modify id.index change⟩

/-- The qualified name of a class. -/
def name (catalog : Catalog) (id : ClassId) : String :=
  (catalog.get id).qualified

/-- The class of a qualified name. -/
def find? (catalog : Catalog) (qualified : String) : Option ClassId :=
  (catalog.classes.findIdx? (·.qualified == qualified)).map ClassId.mk

def ids (catalog : Catalog) : List ClassId :=
  (List.range catalog.classes.size).map ClassId.mk

/-- Adds a class under a new qualified name. -/
def register (info : ClassDef) : EStateM LoadError Catalog ClassId := do
  let catalog ← MonadState.get
  if (catalog.find? info.qualified).isSome then throw (.duplicateClass info.qualified)
  set (σ := Catalog) ⟨catalog.classes.push info⟩
  pure ⟨catalog.classes.size⟩

/-- As `hierarchy`, from a class whose descendants and itself are in `chain`, for at most so many
more classes. -/
def hierarchyOnto (catalog : Catalog) : Nat → ClassId → List ClassId → List ClassId
  | 0, _, chain => chain.reverse
  | bound + 1, id, chain =>
    match (catalog.get id).parent with
    | none => chain.reverse
    | some parent =>
      if chain.contains parent then chain.reverse
      else catalog.hierarchyOnto bound parent (parent :: chain)

/-- A class and its ancestors, the nearest first. -/
def hierarchy (catalog : Catalog) (id : ClassId) : List ClassId :=
  catalog.hierarchyOnto catalog.classes.size id [id]

/-- Whether a class is another one or inherits from it. -/
def isSubclass (catalog : Catalog) (id ancestor : ClassId) : Bool :=
  (catalog.hierarchy id).contains ancestor

/-- Gives a class its parent's members and marks it as expanded. -/
def expand (catalog : Catalog) (notInherited : List Symbol) (id : ClassId) : Catalog :=
  catalog.modify id fun info =>
    match info.parent with
    | some parent => { info.inherit (catalog.get parent) notInherited with expanded := true }
    | none => { info with expanded := true }

/-- Expands a class after its ancestors. `waiting` are its descendants that wait for it, and
`bound` is more than the number of classes that do not. -/
def flatten (notInherited : List Symbol) :
    Nat → List ClassId → ClassId → EStateM LoadError Catalog Unit
  | 0, _, id => do
    throw (.inheritanceCycle ((← MonadState.get).name id))
  | bound + 1, waiting, id => do
    let catalog ← MonadState.get
    let info := catalog.get id
    if info.expanded then pure ()
    else if waiting.contains id then throw (.inheritanceCycle info.qualified)
    else
      if let some parent := info.parent then
        flatten notInherited bound (id :: waiting) parent
      modifyGet fun catalog => ((), catalog.expand notInherited id)

/-- Expands all classes. -/
def flattenAll (symbols : SymbolTable) : EStateM LoadError Catalog Unit := do
  let catalog ← MonadState.get
  let notInherited := [constructorName, initializerName].filterMap symbols.find?
  catalog.ids.forM (flatten notInherited (catalog.classes.size + 1) [])

end Catalog

end ObjectMachine
