import ObjectMachine.Code.Layout
import ObjectMachine.Program.Program

/-!
# Linking

The units of a program are laid one behind the other, and their classes are registered in that
order. Names of classes become numbers, and a sequence of instructions that calls the main method
comes last.
-/

namespace ObjectMachine

/-- A unit with its accepted metadata. -/
structure LoadedUnit where
  code : Bytes
  view : Metadata
deriving DecidableEq, Repr

/-- The names and classes of a program that is being linked. -/
structure Linkage where
  symbols : SymbolTable
  catalog : Catalog

abbrev Link := EStateM LoadError Linkage

/-- Name of the module that holds the references of the entry sequence. -/
def entryModuleName : String := "<entry>"

/-- Name of the method that a program starts with. -/
def mainName : String := "main"

namespace Link

def intern (name : String) : Link Symbol :=
  modifyGet fun linkage =>
    let (symbol, symbols) := linkage.symbols.intern name
    (symbol, { linkage with symbols })

def inCatalog (step : EStateM LoadError Catalog α) : Link α := fun linkage =>
  match step linkage.catalog with
  | .ok result catalog => .ok result { linkage with catalog }
  | .error fault catalog => .error fault { linkage with catalog }

/-- Declares a member of a class that is not registered yet. -/
def declare (info : ClassDef) (step : SymbolTable → EStateM LoadError ClassDef Unit) :
    Link ClassDef := do
  match step (← get).symbols info with
  | .ok _ info => pure info
  | .error fault _ => throw fault

def declareField (info : ClassDef) (name : String) (slot : FieldSlot) : Link ClassDef := do
  let symbol ← intern name
  declare info fun symbols => ClassDef.declareField symbols symbol slot

/-- Declares fields with slots from 1 on. -/
def declareFields (info : ClassDef) (names : List String) (isStatic : Bool) : Link ClassDef :=
  (names.zipIdx 1).foldlM
    (fun info (name, slot) => declareField info name ⟨UInt32.ofNat slot, isStatic⟩) info

/-- Declares the methods of a native class, unless they are declared already. -/
def declareNativeMethods (info : ClassDef) (id : ClassId) (methods : List MethodRef)
    (isStatic : Bool) : Link ClassDef :=
  methods.foldlM
    (fun info method => do
      let key : MethodKey := ⟨← intern method.name, method.arity⟩
      let entry : MethodEntry := {
        moduleId := info.moduleId
        argCount := method.arity
        body := .native
        isStatic
        declaring := id }
      if (info.method? key).isSome then pure info
      else pure { info with methods := info.methods ++ [(key, entry)] })
    info

def declareNative (info : ClassDef) (id : ClassId) (facade : Facade) : Link ClassDef := do
  let info ← declareFields info facade.staticFields true
  let info ← declareFields info facade.instanceFields false
  let info ← declareNativeMethods info id facade.staticMethods true
  let info ← declareNativeMethods info id facade.instanceMethods false
  pure { info with facade := some facade }

/-- Declares a method whose unit starts at an address of the segment. -/
def declareMethod (id : ClassId) (base : Nat) (info : ClassDef) (method : MethodInfo) :
    Link ClassDef := do
  let header := method.header
  let key : MethodKey := ⟨← intern header.name, header.argCount⟩
  let entry : MethodEntry := {
    moduleId := info.moduleId
    argCount := header.argCount
    body := .bytecode (base + header.codeOffset.toNat) header.localCount
    isStatic := header.isStatic
    declaring := id }
  declare info fun symbols => ClassDef.declareMethod symbols key entry

def nativeType? : ClassKind → Option String
  | .plain => none
  | .facade nativeType _ => some nativeType
  | .implicit hostType => some hostType

/-- Registers a class of a unit that starts at an address of the segment. -/
def registerClass (facades : List Facade) (moduleName : String) (moduleId : ModuleId)
    (base : Nat) (info : ClassInfo) : Link ClassId := do
  let id : ClassId := ⟨(← get).catalog.classes.size⟩
  let empty := ClassDef.new info.name moduleName moduleId
  let complete ←
    match nativeType? info.kind with
    | some nativeType =>
      match Facade.find? facades nativeType with
      | some facade => declareNative empty id facade
      | none => throw (.unknownFacade empty.qualified nativeType)
    | none => do
      let withFields ← info.fields.toList.foldlM
        (fun info field => declareField info field.name ⟨field.number, field.isStatic⟩) empty
      info.methods.toList.foldlM (declareMethod id base) withFields
  inCatalog (Catalog.register complete)

/-- Registers an enumeration as a class whose static fields are the constants. -/
def registerEnum (moduleName : String) (moduleId : ModuleId) (info : EnumInfo) :
    Link ClassId := do
  let empty := ClassDef.new info.name moduleName moduleId
  let complete ← declareFields empty (info.members.map (·.1)) true
  let symbols := (← get).symbols
  let enumValues := info.members.filterMap fun (name, value) =>
    (symbols.find? name).map fun symbol => (symbol, value)
  inCatalog (Catalog.register { complete with enumValues })

/-- Adjacent entries of one class reduced to the first of them. -/
def withoutRepeats : List (String × ClassId) → List (String × ClassId)
  | first :: second :: rest =>
    if first.2 = second.2 then withoutRepeats (first :: rest)
    else first :: withoutRepeats (second :: rest)
  | short => short
termination_by candidates => candidates.length

/-- The class that a name means in a module: one of that qualified name, one of the module
itself, or the only one among the used modules. -/
def resolveClass (catalog : Catalog) (moduleName : String) (uses : List String) (name : String) :
    Except LoadError ClassId :=
  match (catalog.find? name).or (catalog.find? (moduleName ++ "." ++ name)) with
  | some id => .ok id
  | none =>
    let candidates := uses.filterMap fun used =>
      let qualified := used ++ "." ++ name
      (catalog.find? qualified).map fun id => (qualified, id)
    match withoutRepeats candidates with
    | [] => .error (.unresolvedClass moduleName name)
    | [(_, id)] => .ok id
    | several => .error (.ambiguousClass name (several.map (·.1)))

def resolve (view : Metadata) (name : String) : Link ClassId := do
  match resolveClass (← get).catalog view.moduleName view.uses.toList name with
  | .ok id => pure id
  | .error fault => throw fault

/-- Gives a class its parent. Native classes neither have nor are parents. -/
def setParent (view : Metadata) (id : ClassId) (parentName : String) : Link Unit := do
  let parent ← resolve view parentName
  let catalog := (← get).catalog
  let child := catalog.get id
  if child.facade.isSome || (catalog.get parent).facade.isSome then
    throw (.facadeInheritance child.qualified (catalog.name parent))
  modify fun linkage =>
    { linkage with
      catalog := linkage.catalog.modify id fun info => { info with parent := some parent } }

/-- Registers the classes and enumerations of a unit. The answer are the classes that have a
parent. -/
def registerUnit (facades : List Facade) (moduleId : ModuleId) (base : Nat) (view : Metadata) :
    Link (List (ClassId × String)) := do
  let children ← view.classes.toList.mapM fun info => do
    let id ← registerClass facades view.moduleName moduleId base info
    pure (info.parent.map fun parent => (id, parent))
  view.enums.toList.forM fun info => do
    let _ ← registerEnum view.moduleName moduleId info
  pure (children.filterMap id)

def moduleRecord (view : Metadata) : Link ModuleRecord := do
  let classRefs ← view.classRefs.mapM (resolve view)
  let fieldNames ← view.fieldAccesses.mapM intern
  let methodCalls ← view.methodCalls.mapM fun method => do
    pure (MethodKey.mk (← intern method.name) method.arity)
  pure {
    name := view.moduleName
    uses := view.uses.toList
    classRefs := classRefs.toArray
    fieldNames := fieldNames.toArray
    methodCalls := methodCalls.toArray
    strings := view.strings.toArray }

def offersMain (info : ClassDef) (key : MethodKey) : Bool :=
  info.moduleId == ⟨0⟩ && info.facade.isNone && (info.method? key).any (·.isStatic)

/-- The first class of the main module that has a main method, one that takes the arguments of
the program if there is any. -/
def findMain (mainModule : String) : Link (ClassId × MethodKey) := do
  let name ← intern mainName
  let catalog := (← get).catalog
  let found (arity : UInt16) : Option (ClassId × MethodKey) :=
    let key : MethodKey := ⟨name, arity⟩
    (catalog.ids.find? fun id => offersMain (catalog.get id) key).map fun id => (id, key)
  match (found 1).or (found 0) with
  | some main => pure main
  | none => throw (.missingEntryPoint mainModule)

/-- The instructions that load the main class, push the arguments if they are taken, call the
main method and exit. -/
def entrySequence (takesArgs : Bool) : Bytes :=
  let narrow (opcode : Opcode) (operand : Operand) : Bytes :=
    Instruction.encode ⟨0, opcode, .narrow, operand⟩
  narrow .loadClass (.index 1) ++ (if takesArgs then narrow .loadLocal (.index 0) else []) ++
    narrow .call (.index 1) ++ narrow .exit .absent

def address? (entry : MethodEntry) : Option Nat :=
  match entry.body with
  | .bytecode address _ => some address
  | .native => none

def relocated (moved : UInt32 → Option UInt32) (entry : MethodEntry) : MethodEntry :=
  match entry.body with
  | .bytecode address localCount =>
    match moved (UInt32.ofNat address) with
    | some target => { entry with body := .bytecode target.toNat localCount }
    | none => entry
  | .native => entry

/-- Shrinks the branches of the segment and moves the entry sequence and all methods along. -/
def shrinkSegment (code : Bytes) (entry : Nat) : Link (Bytes × Nat) := do
  let catalog := (← get).catalog
  let methods := catalog.classes.toList.flatMap fun info =>
    info.methods.filterMap fun (_, method) => address? method
  let entryPoints := (entry :: methods).map UInt32.ofNat
  match Code.shrink code entryPoints with
  | .error fault => throw (.optimize fault)
  | .ok shrunk =>
    let moves := entryPoints.zip shrunk.entryPoints
    let moved (address : UInt32) := moves.lookup address
    let relocate (info : ClassDef) : ClassDef :=
      { info with methods := info.methods.map fun (key, method) => (key, relocated moved method) }
    modify fun linkage => { linkage with catalog := ⟨linkage.catalog.classes.map relocate⟩ }
    let entry := UInt32.ofNat entry
    pure (shrunk.code, ((moved entry).getD entry).toNat)

/-- The reference tables of units, and the method that their program starts with. -/
structure Assembly where
  records : List ModuleRecord
  mainClass : ClassId
  mainKey : MethodKey

/-- Registers the classes of units, the first of which has the main method, and resolves what they
refer to. -/
def assemble (facades : List Facade) (units : List LoadedUnit) : Link Assembly := do
  let bases := units.scanl (fun base unit => base + unit.code.length) 0
  let places := (units.zip bases).zipIdx
  let children ← places.mapM fun ((unit, base), index) => do
    let children ← registerUnit facades ⟨index⟩ base unit.view
    pure (children.map fun (id, parent) => (unit.view, id, parent))
  children.flatten.forM fun (view, id, parent) => setParent view id parent
  let records ← units.mapM fun unit => moduleRecord unit.view
  let (mainClass, mainKey) ← findMain ((units.head?.map (·.view.moduleName)).getD "")
  pure { records, mainClass, mainKey }

/-- The code of units, one behind the other, and that of the entry sequence. -/
def wholeCode (units : List LoadedUnit) (takesArgs : Bool) : Bytes :=
  units.flatMap (·.code) ++ entrySequence takesArgs

/-- Puts a program together from its code, in which the entry sequence has an address. -/
def complete (assembly : Assembly) (code : Bytes) (entry : Nat) : Link Program := do
  let symbols := (← get).symbols
  inCatalog (Catalog.flattenAll symbols)
  let entryRecord : ModuleRecord := {
    name := entryModuleName
    uses := []
    classRefs := #[assembly.mainClass]
    fieldNames := #[]
    methodCalls := #[assembly.mainKey]
    strings := #[] }
  pure {
    code := Segment.ofBytes code
    modules := (assembly.records ++ [entryRecord]).toArray
    catalog := (← get).catalog
    symbols
    entry
    entryModule := ⟨assembly.records.length⟩
    mainClass := assembly.mainClass
    mainTakesArgs := assembly.mainKey.arity == 1 }

/-- Links units, the first of which has the main method. -/
def link (facades : List Facade) (optimize : Bool) (units : List LoadedUnit) : Link Program := do
  let assembly ← assemble facades units
  let whole := wholeCode units (assembly.mainKey.arity == 1)
  let entry := (units.flatMap (·.code)).length
  let (code, entry) ← if optimize then shrinkSegment whole entry else pure (whole, entry)
  complete assembly code entry

end Link

def Program.link (facades : List Facade) (optimize : Bool) (units : List LoadedUnit) :
    Except LoadError Program :=
  match Link.link facades optimize units ⟨.empty, .empty⟩ with
  | .ok program _ => .ok program
  | .error fault _ => .error fault

end ObjectMachine
