import ObjectMachine.Class.Catalog

/-!
# The store

What outlives a run: the heap, the static fields of all classes, what native classes keep, and
the text they have printed.
-/

namespace ObjectMachine

structure Store where
  heap : Heap
  statics : Array ClassStatics
  /-- The values that native classes share, by type. -/
  shared : List (String × Array Value)
  printed : String
deriving DecidableEq, Repr

namespace Store

def empty : Store := ⟨.empty, #[], [], ""⟩

/-- The store before the first run of a program. -/
def ofCatalog (catalog : Catalog) : Store :=
  { empty with statics := catalog.classes.map (·.statics) }

def staticsOf (store : Store) (id : ClassId) : ClassStatics :=
  store.statics.getD id.index default

def setStatic (store : Store) (id : ClassId) (slot : UInt32) (value : Value) : Store :=
  { store with statics := store.statics.modify id.index (·.set slot value) }

/-- Marks a class as initialized. -/
def beginInitialization (store : Store) (id : ClassId) : Store :=
  { store with statics := store.statics.modify id.index fun statics => statics.begin.2 }

/-- The values that an operation works on. An object of another type is of no use to it. -/
def scopeOf (store : Store) (facade : Facade) (target : Option ObjectId) :
    Except String NativeScope := do
  let own ← match target.map store.heap.content? with
    | none => pure none
    | some (some (.native typeName slots)) =>
      if typeName = facade.typeName then pure (some slots) else throw "foreign native handle"
    | some _ => throw "foreign native handle"
  let shared := (store.shared.lookup facade.typeName).getD facade.shared
  pure { shared, own, printed := store.printed }

/-- The store after an operation that left its values as in a scope. -/
def withScope (store : Store) (facade : Facade) (target : Option ObjectId) (scope : NativeScope) :
    Store :=
  let heap := match target, scope.own with
    | some id, some slots => store.heap.setContent id (.native facade.typeName slots)
    | _, _ => store.heap
  { store with
    heap
    shared := putEntry store.shared facade.typeName scope.shared
    printed := scope.printed }

/-- Runs an operation of a native class on an object, or on the class itself. -/
def operate (store : Store) (facade : Facade) (target : Option ObjectId) (operation : Native α) :
    Except String (α × Store) := do
  let scope ← store.scopeOf facade target
  let (result, scope) ← operation.run scope
  pure (result, store.withScope facade target scope)

/-- A new object of a native class. -/
def newNative (store : Store) (facade : Facade) : Except String (ObjectId × Store) := do
  let (slots, store) ← store.operate facade none facade.create
  let (id, heap) := store.heap.newObject (.native facade.typeName slots)
  pure (id, { store with heap })

def readNative (store : Store) (facade : Facade) (target : Option ObjectId) (name : String) :
    Except String (Value × Store) :=
  store.operate facade target (facade.get name)

def writeNative (store : Store) (facade : Facade) (target : Option ObjectId) (name : String)
    (value : Value) : Except String (Unit × Store) :=
  store.operate facade target (facade.set store.heap.text name value)

def callNative (store : Store) (facade : Facade) (target : Option ObjectId) (name : String)
    (args : List Value) : Except String (Value × Store) :=
  store.operate facade target (facade.call store.heap.text name args)

end Store

end ObjectMachine
