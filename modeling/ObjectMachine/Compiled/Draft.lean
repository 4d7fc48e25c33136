import ObjectMachine.Code.Assembly
import ObjectMachine.Compiled.File

/-!
# Units under construction

A draft collects the declarations of a module beside its code. Names and strings that code refers
to are numbered from 1 on in the order of their first use, equal ones sharing a number.
-/

namespace ObjectMachine

structure MethodDraft where
  name : String
  codeOffset : Nat
  argCount : UInt16
  localCount : UInt16
  isStatic : Bool
  locals : Array (String × UInt32)
deriving Repr

/-- A class that a draft declares. -/
structure ClassDeclaration where
  name : String
  parent : Option String
  kind : ClassKind
  staticFields : Array String
  fields : Array String
  methods : Array MethodDraft
deriving Repr

structure UnitDraft where
  name : String
  uses : Array String
  classes : Array ClassDeclaration
  enums : Array EnumInfo
  strings : Array String
  classRefs : Array String
  fieldAccesses : Array String
  methodCalls : Array MethodRef
  assembly : Assembly
deriving Repr

/-- The place of a class among those of its draft. -/
structure ClassHandle where
  index : Nat
deriving DecidableEq, Repr

/-- The number of a key among the keys seen, and the keys with it. -/
def intern [BEq α] (keys : Array α) (key : α) : UInt32 × Array α :=
  match keys.idxOf? key with
  | some place => (UInt32.ofNat (place + 1), keys)
  | none => (UInt32.ofNat (keys.size + 1), keys.push key)

/-- A step of a unit's construction. -/
abbrev Declare := StateM UnitDraft

namespace UnitDraft

def start (name : String) : UnitDraft :=
  ⟨name, #[], #[], #[], #[], #[], #[], #[], .empty⟩

def fieldRecords (names : Array String) (isStatic : Bool) : List MetaRecord :=
  (names.toList.zipIdx 1).map fun (name, number) =>
    .field ⟨name, UInt32.ofNat number, isStatic⟩

def methodRecords (method : MethodDraft) (number : Nat) : List MetaRecord :=
  let header : MethodHeader := {
    name := method.name
    number := UInt32.ofNat number
    codeOffset := UInt32.ofNat method.codeOffset
    returnsValue := true
    argCount := method.argCount
    localCount := method.localCount
    isStatic := method.isStatic }
  .method header :: method.locals.toList.map fun (name, slot) => .localName name slot

def classRecords (declaration : ClassDeclaration) : List MetaRecord :=
  let header : ClassHeader := {
    name := declaration.name
    parent := declaration.parent.getD ""
    staticFieldCount := UInt32.ofNat declaration.staticFields.size
    instanceFieldCount := UInt32.ofNat declaration.fields.size
    methodCount := UInt32.ofNat declaration.methods.size
    kind := declaration.kind }
  .classHeader header :: fieldRecords declaration.staticFields true ++
    fieldRecords declaration.fields false ++
    (declaration.methods.toList.zipIdx 1).flatMap fun (method, number) =>
      methodRecords method number

/-- The records of keys with their numbers. -/
def numberedRecords (keys : Array α) (record : α → UInt32 → MetaRecord) : List MetaRecord :=
  (keys.toList.zipIdx 1).map fun (key, number) => record key (UInt32.ofNat number)

/-- A string literal in its shorter form if it fits. -/
def stringRecord (value : String) (number : UInt32) : MetaRecord :=
  .string number value (value.utf8ByteSize ≤ 255)

/-- The metadata of a draft. -/
def records (draft : UnitDraft) : List MetaRecord :=
  let header : MetaRecord :=
    .moduleHeader draft.name (UInt32.ofNat draft.classRefs.size)
      (UInt32.ofNat draft.fieldAccesses.size) (UInt32.ofNat draft.methodCalls.size)
      (UInt32.ofNat draft.strings.size)
  header :: draft.uses.toList.map .use ++ draft.classes.toList.flatMap classRecords ++
    draft.enums.toList.map (fun info => .enumeration info.name info.members) ++
    numberedRecords draft.strings stringRecord ++
    numberedRecords draft.classRefs .classRef ++
    numberedRecords draft.fieldAccesses .fieldAccess ++
    numberedRecords draft.methodCalls (fun method number =>
      .methodCall method.name method.arity number) ++
    [.finish]

def finish (draft : UnitDraft) : Except AssemblyError CompiledUnit := do
  let code ← draft.assembly.finish
  pure ⟨MetaRecord.encodeAll draft.records, code⟩

end UnitDraft

namespace Declare

/-- Emits code. -/
def code (emission : Assemble α) : Declare α :=
  modifyGet fun draft =>
    let (result, assembly) := emission.run draft.assembly
    (result, { draft with assembly })

/-- Declares that another module is used, once. -/
def use (moduleName : String) : Declare Unit :=
  modify fun draft =>
    if draft.uses.contains moduleName then draft
    else { draft with uses := draft.uses.push moduleName }

def string (value : String) : Declare UInt32 :=
  modifyGet fun draft =>
    let (number, strings) := intern draft.strings value
    (number, { draft with strings })

def classRef (name : String) : Declare UInt32 :=
  modifyGet fun draft =>
    let (number, classRefs) := intern draft.classRefs name
    (number, { draft with classRefs })

def fieldRef (name : String) : Declare UInt32 :=
  modifyGet fun draft =>
    let (number, fieldAccesses) := intern draft.fieldAccesses name
    (number, { draft with fieldAccesses })

def methodRef (name : String) (arity : UInt16) : Declare UInt32 :=
  modifyGet fun draft =>
    let (number, methodCalls) := intern draft.methodCalls ⟨name, arity⟩
    (number, { draft with methodCalls })

def declareClass (name : String) (parent : Option String) (kind : ClassKind) :
    Declare ClassHandle :=
  modifyGet fun draft =>
    (⟨draft.classes.size⟩,
      { draft with classes := draft.classes.push ⟨name, parent, kind, #[], #[], #[]⟩ })

/-- Changes a class of the draft and answers with a part of it. -/
def inClass (handle : ClassHandle) (change : ClassDeclaration → ClassDeclaration)
    (answer : ClassDeclaration → Nat) : Declare UInt32 :=
  modifyGet fun draft =>
    let classes := draft.classes.modify handle.index change
    (UInt32.ofNat ((classes[handle.index]?.map answer).getD 0), { draft with classes })

/-- An instance field; the answer is its slot. -/
def field (handle : ClassHandle) (name : String) : Declare UInt32 :=
  inClass handle (fun declaration => { declaration with fields := declaration.fields.push name })
    (·.fields.size)

/-- A static field; the answer is its slot. -/
def staticField (handle : ClassHandle) (name : String) : Declare UInt32 :=
  inClass handle
    (fun declaration => { declaration with staticFields := declaration.staticFields.push name })
    (·.staticFields.size)

/-- A method whose code starts here; the answer is its number. -/
def method (handle : ClassHandle) (name : String) (argCount localCount : UInt16)
    (isStatic : Bool) : Declare UInt32 := do
  let codeOffset := (← get).assembly.position
  let draft : MethodDraft := { name, codeOffset, argCount, localCount, isStatic, locals := #[] }
  inClass handle (fun declaration => { declaration with methods := declaration.methods.push draft })
    (·.methods.size)

/-- Names a slot of the class's last method. -/
def localName (handle : ClassHandle) (name : String) (slot : UInt32) : Declare Unit := do
  let _ ← inClass handle
    (fun declaration =>
      { declaration with
        methods := declaration.methods.modify (declaration.methods.size - 1) fun method =>
          { method with locals := method.locals.push (name, slot) } })
    (·.methods.size)

def enumeration (name : String) (members : List (String × Int32)) : Declare Unit :=
  modify fun draft => { draft with enums := draft.enums.push ⟨name, members⟩ }

end Declare

end ObjectMachine
