import ObjectMachine.Compiled.Error
import ObjectMachine.Compiled.Record

/-!
# Checked metadata

The records of a unit are accepted if they are a module header, then the declarations in any
order, then one end record. The fields and methods of a class follow its header at once and
carry the numbers from 1 to the declared counts; the entries of each reference table do so
anywhere. The view lists what was declared, a table entry at the place of its number.
-/

namespace ObjectMachine

/-- The name of a local slot. -/
structure LocalInfo where
  name : String
  slot : UInt32
deriving DecidableEq, Repr

structure MethodInfo where
  header : MethodHeader
  locals : Array LocalInfo
deriving DecidableEq, Repr

structure ClassInfo where
  name : String
  parent : Option String
  kind : ClassKind
  staticFieldCount : UInt32
  instanceFieldCount : UInt32
  fields : Array FieldHeader
  methods : Array MethodInfo
deriving DecidableEq, Repr

/-- A method by name and number of arguments. -/
structure MethodRef where
  name : String
  arity : UInt16
deriving DecidableEq, Repr

/-- A method as name and number of arguments. -/
def MethodRef.signature (method : MethodRef) : String :=
  s!"{method.name}/{method.arity.toNat}"

structure EnumInfo where
  name : String
  members : List (String × Int32)
deriving DecidableEq, Repr

/-- The declarations of a module. -/
structure Metadata where
  moduleName : String
  uses : Array String
  classes : Array ClassInfo
  enums : Array EnumInfo
  strings : List String
  classRefs : List String
  fieldAccesses : List String
  methodCalls : List MethodRef
deriving DecidableEq, Repr

/-- Entries with numbers from 1 to a declared size, the last one found first. -/
structure Numbered (α : Type) where
  size : UInt32
  entries : List (UInt32 × α)

namespace Numbered

def empty (size : UInt32) : Numbered α := ⟨size, []⟩

def insert (table : NumberedTable) (numbered : Numbered α) (number : UInt32) (entry : α) :
    Except UnitError (Numbered α) :=
  if number = 0 ∨ numbered.size < number then
    .error (.numberOutOfRange table number numbered.size)
  else if (numbered.entries.lookup number).isSome then
    .error (.duplicateNumber table number)
  else .ok { numbered with entries := (number, entry) :: numbered.entries }

/-- The entries of the `count` numbers from `number` on, after those already found. -/
def collect (table : NumberedTable) (entries : List (UInt32 × α)) :
    Nat → Nat → List α → Except UnitError (List α)
  | 0, _, found => .ok found.reverse
  | count + 1, number, found =>
    match entries.lookup (UInt32.ofNat number) with
    | some entry => collect table entries count (number + 1) (entry :: found)
    | none => .error (.missingEntry table number)

/-- The entries by number. None may be missing. -/
def toList (table : NumberedTable) (numbered : Numbered α) : Except UnitError (List α) :=
  collect table numbered.entries numbered.size.toNat 1 []

end Numbered

/-- A class whose fields and methods are being read. -/
structure ClassDraft where
  info : ClassInfo
  methodCount : UInt32

namespace ClassDraft

def ofHeader (header : ClassHeader) : ClassDraft where
  info := {
    name := header.name
    parent := if header.parent.isEmpty then none else some header.parent
    kind := header.kind
    staticFieldCount := header.staticFieldCount
    instanceFieldCount := header.instanceFieldCount
    fields := #[]
    methods := #[] }
  methodCount := header.methodCount

/-- How many field and method records are still to come, counted in 32 bits. -/
def remaining (draft : ClassDraft) : UInt32 :=
  let declared := draft.info.staticFieldCount.toNat + draft.info.instanceFieldCount.toNat +
    draft.methodCount.toNat
  UInt32.ofNat (declared - (draft.info.fields.size + draft.info.methods.size))

def addField (draft : ClassDraft) (field : FieldHeader) : Except UnitError ClassDraft :=
  let greatest :=
    if field.isStatic then draft.info.staticFieldCount else draft.info.instanceFieldCount
  let table : NumberedTable := if field.isStatic then .staticFields else .fields
  if field.number = 0 ∨ greatest < field.number then
    .error (.numberOutOfRange table field.number greatest)
  else if draft.info.fields.any fun other =>
      other.isStatic == field.isStatic && other.number == field.number then
    .error (.duplicateNumber table field.number)
  else .ok { draft with info := { draft.info with fields := draft.info.fields.push field } }

def addMethod (draft : ClassDraft) (method : MethodHeader) : Except UnitError ClassDraft :=
  if method.number = 0 ∨ draft.methodCount < method.number then
    .error (.numberOutOfRange .methods method.number draft.methodCount)
  else if draft.info.methods.any fun other => other.header.number == method.number then
    .error (.duplicateNumber .methods method.number)
  else
    .ok { draft with info := { draft.info with methods := draft.info.methods.push ⟨method, #[]⟩ } }

/-- Names a slot of the method read last. -/
def addLocal (draft : ClassDraft) (name : String) (slot : UInt32) : ClassDraft :=
  let last := draft.info.methods.size - 1
  { draft with
    info := { draft.info with
      methods := draft.info.methods.modify last fun method =>
        { method with locals := method.locals.push ⟨name, slot⟩ } } }

/-- Takes a record into the class, or leaves one that does not belong to it. -/
def accept (draft : ClassDraft) (record : MetaRecord) : Except UnitError (Option ClassDraft) :=
  match record with
  | .localName name slot =>
    if draft.info.methods.isEmpty then .error (.unexpectedRecord record.kindName)
    else .ok (some (draft.addLocal name slot))
  | record =>
    if draft.remaining = 0 then .ok none
    else
      match record with
      | .field field => some <$> draft.addField field
      | .method method => some <$> draft.addMethod method
      | _ => .error (.incompleteClass draft.info.name)

end ClassDraft

/-- The view as far as the records have been read. -/
structure MetadataDraft where
  moduleName : String
  uses : Array String
  classes : Array ClassInfo
  enums : Array EnumInfo
  strings : Numbered String
  classRefs : Numbered String
  fieldAccesses : Numbered String
  methodCalls : Numbered MethodRef
  /-- The class that the next records may still belong to. -/
  openClass : Option ClassDraft
  ended : Bool

namespace MetadataDraft

/-- Takes a record that belongs to no class body. -/
def declare (draft : MetadataDraft) (record : MetaRecord) : Except UnitError MetadataDraft :=
  match record with
  | .finish => .ok { draft with ended := true }
  | .use moduleName => .ok { draft with uses := draft.uses.push moduleName }
  | .classHeader header => .ok { draft with openClass := some (ClassDraft.ofHeader header) }
  | .string number value _ => do
    let strings ← draft.strings.insert .strings number value
    pure { draft with strings }
  | .classRef name number => do
    let classRefs ← draft.classRefs.insert .classRefs number name
    pure { draft with classRefs }
  | .fieldAccess name number => do
    let fieldAccesses ← draft.fieldAccesses.insert .fieldAccesses number name
    pure { draft with fieldAccesses }
  | .methodCall name arity number => do
    let methodCalls ← draft.methodCalls.insert .methodCalls number ⟨name, arity⟩
    pure { draft with methodCalls }
  | .enumeration name members => .ok { draft with enums := draft.enums.push ⟨name, members⟩ }
  | .moduleHeader .. | .field _ | .method _ | .localName .. =>
    .error (.unexpectedRecord record.kindName)

/-- Takes the next record. -/
def add (draft : MetadataDraft) (record : MetaRecord) : Except UnitError MetadataDraft :=
  if draft.ended then .error (.unexpectedRecord record.kindName)
  else
    match draft.openClass with
    | none => draft.declare record
    | some openClass => do
      match ← openClass.accept record with
      | some openClass => pure { draft with openClass := some openClass }
      | none =>
        let closed :=
          { draft with classes := draft.classes.push openClass.info, openClass := none }
        closed.declare record

/-- The finished view. -/
def finish (draft : MetadataDraft) : Except UnitError Metadata :=
  match draft.openClass with
  | some openClass => .error (.incompleteClass openClass.info.name)
  | none =>
    if draft.ended then do
      let strings ← draft.strings.toList .strings
      let classRefs ← draft.classRefs.toList .classRefs
      let fieldAccesses ← draft.fieldAccesses.toList .fieldAccesses
      let methodCalls ← draft.methodCalls.toList .methodCalls
      pure {
        moduleName := draft.moduleName
        uses := draft.uses
        classes := draft.classes
        enums := draft.enums
        strings, classRefs, fieldAccesses, methodCalls }
    else .error .missingEnd

end MetadataDraft

namespace Metadata

/-- The view of a unit's records. -/
def ofRecords : List MetaRecord → Except UnitError Metadata
  | .moduleHeader name classRefs fieldAccesses methodCalls strings :: records => do
    let start : MetadataDraft := {
      moduleName := name
      uses := #[]
      classes := #[]
      enums := #[]
      strings := .empty strings
      classRefs := .empty classRefs
      fieldAccesses := .empty fieldAccesses
      methodCalls := .empty methodCalls
      openClass := none
      ended := false }
    let draft ← records.foldlM MetadataDraft.add start
    draft.finish
  | _ => .error .missingModule

end Metadata

end ObjectMachine
