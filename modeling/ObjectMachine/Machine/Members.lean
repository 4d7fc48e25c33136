import ObjectMachine.Machine.Step

/-!
# Members of objects and classes

The class of a member is the one that its object is seen as, or the class itself.
-/

namespace ObjectMachine

namespace Step

/-- The class that a member of a value belongs to. -/
def memberClass (member : String) (target : Value) : Step ClassId := do
  match target with
  | .object view _ => pure view
  | .classRef id => pure id
  | .null => throw (.nullReceiver member)
  | other => throw (.notAnObject (← describe other))

/-- The object that an operation of a native class is about; none is the class itself. -/
def nativeTarget (target : Value) : Step (Option ObjectId) := do
  match target with
  | .object _ id => pure (if (← heap).isNative id then some id else none)
  | _ => pure none

/-- An operation of a native class. -/
def native (facade : Facade) (operation : Store → Except String (α × Store)) : Step α := do
  let store := (← get).world.store
  match operation store with
  | .ok (result, store) =>
    onStore fun _ => store
    pure result
  | .error problem => throw (.facade facade.typeName problem)

/-- The slot of a field; one of an instance needs an instance. -/
def fieldSlot (info : ClassDef) (target : Value) (name : Symbol) : Step FieldSlot := do
  let text := (← program).symbols.name name
  match info.field? name with
  | none => throw (.unknownField info.qualified text)
  | some field =>
    match field.isStatic, target with
    | true, _ | _, .object _ _ => pure field
    | _, _ => throw (.notStatic info.qualified text)

def readField (target : Value) (name : Symbol) : Step Value := do
  let program ← program
  let text := program.symbols.name name
  let id ← memberClass text target
  let info := program.catalog.get id
  match info.facade with
  | some facade =>
    let object ← nativeTarget target
    native facade fun store => store.readNative facade object text
  | none =>
    let field ← fieldSlot info target name
    match field.isStatic, target with
    | false, .object _ object => pure ((← heap).field object field.slot)
    | _, _ => pure (((← get).world.store.staticsOf id).value field.slot)

def writeField (target : Value) (name : Symbol) (value : Value) : Step Unit := do
  let program ← program
  let text := program.symbols.name name
  let id ← memberClass text target
  let info := program.catalog.get id
  match info.facade with
  | some facade =>
    let object ← nativeTarget target
    native facade fun store => store.writeNative facade object text value
  | none =>
    let field ← fieldSlot info target name
    match field.isStatic, target with
    | false, .object _ object =>
      onStore fun store => { store with heap := store.heap.setField object field.slot value }
    | _, _ => onStore (·.setStatic id field.slot value)

def loadField (index : UInt32) : Step Unit := do
  let name ← require ((← moduleRecord).fieldName index)
  let target ← pop
  push (← readField target name)

def storeField (index : UInt32) : Step Unit := do
  let name ← require ((← moduleRecord).fieldName index)
  let value ← pop
  let target ← pop
  writeField target name value

def instanceOf (index : UInt32) : Step Unit := do
  let id ← require ((← moduleRecord).classRef index)
  let value ← pop
  match value with
  | .object view _ => push (.bool ((← program).catalog.isSubclass view id))
  | .null => push (.bool false)
  | other => throw (.illegalTarget "instanceof" (← describe other))

/-- The names of a class and its ancestors. -/
def hierarchy : Step Unit := do
  let target ← pop
  let id ← memberClass "hierarchy" target
  let catalog := (← program).catalog
  pushTexts ((catalog.hierarchy id).map catalog.name)

/-- The order in which fields are listed: static ones first, then by slot. -/
def listedBefore (a b : Symbol × FieldSlot) : Bool :=
  if a.2.isStatic = b.2.isStatic then a.2.slot ≤ b.2.slot else a.2.isStatic

/-- The names of the fields of a class. -/
def fields : Step Unit := do
  let target ← pop
  let program ← program
  let info := program.catalog.get (← memberClass "fields" target)
  match info.facade with
  | some facade => pushTexts (facade.staticFields ++ facade.instanceFields)
  | none =>
    let sorted := info.fields.mergeSort listedBefore
    pushTexts (sorted.map fun (name, _) => program.symbols.name name)

/-- The signatures of the methods of a class, in alphabetical order. -/
def methods : Step Unit := do
  let target ← pop
  let program ← program
  let info := program.catalog.get (← memberClass "methods" target)
  let signatures := info.methods.map fun (key, _) => program.symbols.signature key
  pushTexts (signatures.mergeSort fun a b => decide (a ≤ b))

/-- The name of a member, given as a text. -/
def memberName (operation : String) (name : Value) : Step String :=
  match name.asText? with
  | some text => pure text
  | none =>
    throw (.typeError s!"{operation} needs a member name string, got {name.typeName}")

/-- The symbol of a field of a class, given as a text. -/
def fieldSymbol (info : ClassDef) (name : Value) : Step Symbol := do
  let text ← memberName "field access" name
  match (← program).symbols.find? text with
  | some symbol => pure symbol
  | none => throw (.unknownField info.qualified text)

def getField : Step Unit := do
  let name ← pop
  let target ← pop
  let info := (← program).catalog.get (← memberClass "getfield" target)
  push (← readField target (← fieldSymbol info name))

def setField : Step Unit := do
  let value ← pop
  let name ← pop
  let target ← pop
  let info := (← program).catalog.get (← memberClass "setfield" target)
  writeField target (← fieldSymbol info name) value

end Step

end ObjectMachine
