import ObjectMachine.Machine.Members

/-!
# Calls

A call finds the receiver under the arguments on the stack. They become the first slots of the
callee's frame, and its locals follow.
-/

namespace ObjectMachine

namespace Step

/-- Enters a method of bytecode whose receiver and arguments are on the stack. -/
def enterFrame (key : MethodKey) (entry : MethodEntry) (address : Nat) (localCount : UInt16)
    (kind : FrameKind) (returnIp : Nat) : Step Unit := do
  let limit := (← read).limits.callDepth
  if limit ≤ (← ofThread (·.calls.size)) then throw (.callDepthExceeded limit)
  let depth ← ofThread (·.stack.depth)
  let own := key.arity.toNat + 1
  if depth < own then throw .stackUnderflow
  onThread fun thread =>
    let call : CallRecord := ⟨thread.dp, returnIp, thread.moduleId, thread.frame⟩
    { thread with calls := thread.calls.push call }
  onStack (Stack.reserve localCount.toNat)
  onThread fun thread =>
    { thread with
      dp := depth - own
      ip := address
      moduleId := entry.moduleId
      frame := .method entry.declaring key kind }

/-- Calls a method of a native class, which leaves its result at once. -/
def callNative (info : ClassDef) (receiver : Value) (key : MethodKey) : Step Unit := do
  match info.facade with
  | none => throw (.facade info.qualified "native method without a facade")
  | some facade =>
    let args ← onStack (Stack.popMany key.arity.toNat)
    let _ ← pop
    let object ← nativeTarget receiver
    let name := (← program).symbols.name key.name
    push (← native facade fun store => store.callNative facade object name args.toList)

/-- The kind of frame that a call of a method makes. -/
def callKind (symbols : SymbolTable) (key : MethodKey) : FrameKind → FrameKind
  | .normal => if symbols.name key.name = constructorName then .constructor else .normal
  | other => other

def enterMethod (key : MethodKey) (kind : FrameKind) (info : ClassDef) (receiver : Value)
    (entry : MethodEntry) : Step Unit :=
  match entry.body with
  | .native => callNative info receiver key
  | .bytecode address localCount => do
    let returnIp ← ofThread (·.ip)
    enterFrame key entry address localCount kind returnIp

/-- Calls the method that the receiver under the arguments has. -/
def callMethod (key : MethodKey) (kind : FrameKind) : Step Unit := do
  let program ← program
  let receiver ← onStack (Stack.peek key.arity.toNat)
  let id ← memberClass (program.symbols.signature key) receiver
  let info := program.catalog.get id
  match info.method? key with
  | none => throw (.unknownMethod info.qualified (program.symbols.name key.name) key.arity)
  | some entry =>
    match receiver, entry.isStatic with
    | .classRef _, false => throw (.notStatic info.qualified (program.symbols.signature key))
    | receiver, _ => enterMethod key (callKind program.symbols key kind) info receiver entry

def call (index : UInt32) : Step Unit := do
  callMethod (← require ((← moduleRecord).methodCall index)) .normal

def storeConstants (id : ClassId) (info : ClassDef) : Step Unit :=
  info.enumValues.forM fun (name, value) =>
    match info.field? name with
    | some field => onStore (·.setStatic id field.slot (.int value))
    | none => pure ()

/-- The code of a class's own static initializer. -/
def initializerOf (program : Program) (id : ClassId) :
    Option (MethodKey × MethodEntry × Nat × UInt16) := do
  let key : MethodKey := ⟨← program.symbols.find? initializerName, 0⟩
  let entry ← (program.catalog.get id).method? key
  match entry.body with
  | .bytecode address localCount =>
    if entry.declaring = id then some (key, entry, address, localCount) else none
  | .native => none

/-- Initializes a class when it is first loaded. The answer is whether its static initializer
has been entered. -/
def initializeClass (id : ClassId) (resumeIp : Nat) : Step Bool := do
  if ((← get).world.store.staticsOf id).initialized then pure false
  else
    let program ← program
    onStore (·.beginInitialization id)
    storeConstants id (program.catalog.get id)
    match initializerOf program id with
    | none => pure false
    | some (key, entry, address, localCount) =>
      push (.classRef id)
      enterFrame key entry address localCount .initializer resumeIp
      pure true

/-- Pushes a class. If it has to be initialized first, this instruction runs once more after
that. -/
def loadClass (index : UInt32) (offset : Nat) : Step Unit := do
  let id ← require ((← moduleRecord).classRef index)
  unless ← initializeClass id offset do
    push (.classRef id)

def new (index : UInt32) : Step Unit := do
  let id ← require ((← moduleRecord).classRef index)
  let info := (← program).catalog.get id
  let object ← match info.facade with
    | some facade => native facade fun store => store.newNative facade
    | none =>
      modifyGet fun scene =>
        let (object, heap) := scene.world.store.heap.newFields info.instanceFieldCount.toNat
        (object,
          { scene with world := { scene.world with store := { scene.world.store with heap } } })
  push (.object id object)

/-- The receiver seen as the parent of the class whose code is being executed. -/
def asParent : Step Unit := do
  let value ← pop
  let catalog := (← program).catalog
  match (← ofThread (·.frame)).declaring? with
  | none => throw (.noParent entryFrameName)
  | some declaring =>
    match (catalog.get declaring).parent with
    | none => throw (.noParent (catalog.name declaring))
    | some parent =>
      match value with
      | .object _ object => push (.object parent object)
      | .classRef _ => push (.classRef parent)
      | .null => throw (.nullReceiver "super")
      | other => throw (.notAnObject (← describe other))

/-- Calls a method by name with its arguments in an array. -/
def invoke : Step Unit := do
  let args ← pop
  let name ← pop
  let target ← pop
  match args with
  | .array id =>
    let items := (← heap).items id
    let program ← program
    let info := program.catalog.get (← memberClass "invoke" target)
    let method ← memberName "invoke" name
    if 65535 < items.size then
      throw (.typeError (s!"invoke of {method} passes {items.size} arguments, " ++
        "more than a method can take"))
    let arity := UInt16.ofNat items.size
    match program.symbols.find? method with
    | none => throw (.unknownMethod info.qualified method arity)
    | some symbol =>
      push target
      items.forM push
      callMethod ⟨symbol, arity⟩ .invoke
  | other => throw (.typeError s!"invoke needs an argument array, got {other.typeName}")

end Step

end ObjectMachine
