import ObjectMachine.Machine.Engine
import ObjectMachine.Report.Code

/-!
# Reports on values, programs and runs
-/

namespace ObjectMachine

namespace Report

/-- A value with what it refers to, so many levels deep, and classes shown by `name`. -/
def ofValue (name : ClassId → String) (heap : Heap) : Nat → Value → Report
  | depth, value =>
    match value with
    | .null => null
    | .bool value => bool value
    | .byte value => ofOperand (.byte value)
    | .char codeUnit => ofOperand (.char codeUnit)
    | .short value => ofOperand (.short value)
    | .int value => ofOperand (.int value)
    | .long value => ofOperand (.long value)
    | .double bits => ofOperand (.double bits)
    | .text value => object [("str", text value)]
    | .classRef id => object [("class", text (name id))]
    | .array id =>
      let items := (heap.items id).toList
      match depth with
      | 0 => object [("array_len", report items.length)]
      | depth + 1 => object [("array", list (items.map (ofValue name heap depth)))]
    | .object view id =>
      let className := text (name view)
      match heap.content? id, depth with
      | some (.fields slots), 0 =>
        object [("field_count", report slots.size), ("object", className)]
      | some (.fields slots), depth + 1 =>
        let fields := slots.toList.map (ofValue name heap depth)
        object [("fields", list fields), ("object", className)]
      | _, _ => object [("native", bool true), ("object", className)]

/-- Two numbers with the name of their kind. -/
def ofPair : NumberPair → Report
  | .bytes a b => list [text "byte", ofOperand (.byte a), ofOperand (.byte b)]
  | .chars a b => list [text "char", ofOperand (.char a), ofOperand (.char b)]
  | .shorts a b => list [text "short", ofOperand (.short a), ofOperand (.short b)]
  | .ints a b => list [text "int", ofOperand (.int a), ofOperand (.int b)]
  | .longs a b => list [text "long", ofOperand (.long a), ofOperand (.long b)]
  | .doubles a b => list [text "double", ofOperand (.double a), ofOperand (.double b)]

/-- Entries in the order of their names. -/
def sorted (entries : List (String × Report)) : Report :=
  list ((entries.mergeSort fun a b => decide (a.1 ≤ b.1)).map (·.2))

def ofBody : MethodBody → Report
  | .bytecode address localCount => list [report address, report localCount]
  | .native => text "native"

/-- A class with its static fields as they are at some time. -/
def ofClass (catalog : Catalog) (symbols : SymbolTable) (statics : ClassStatics)
    (info : ClassDef) : Report :=
  let field (symbol : Symbol) (field : FieldSlot) : String × Report :=
    let name := symbols.name symbol
    (name, list [text name, report field.slot, bool field.isStatic])
  let method (key : MethodKey) (entry : MethodEntry) : String × Report :=
    let name := symbols.signature key
    (name, list [text name, report entry.moduleId.index, report entry.argCount,
      ofBody entry.body, bool entry.isStatic, text (catalog.name entry.declaring)])
  let constants := info.enumValues.map fun (symbol, value) => (symbols.name symbol, value)
  object [("enum_values", report constants), ("expanded", bool info.expanded),
    ("facade", report (info.facade.map (·.typeName))),
    ("fields", sorted (info.fields.map fun (name, slot) => field name slot)),
    ("initialized", bool statics.initialized),
    ("instance_field_count", report info.instanceFieldCount),
    ("methods", sorted (info.methods.map fun (key, entry) => method key entry)),
    ("module", report info.moduleId.index), ("name", text info.name),
    ("parent", report (info.parent.map catalog.name)), ("qualified", text info.qualified),
    ("statics", report statics.slots.size)]

def ofModule (program : Program) (record : ModuleRecord) : Report :=
  object [("class_refs", report (record.classRefs.map program.catalog.name)),
    ("fields", report (record.fieldNames.map program.symbols.name)),
    ("index", report ((program.findModule? record.name).map (·.index))),
    ("methods", report (record.methodCalls.map program.symbols.signature)),
    ("name", text record.name), ("strings", report record.strings), ("uses", report record.uses)]

def ofProgram (program : Program) : Report :=
  let classes := program.catalog.classes.map fun info =>
    ofClass program.catalog program.symbols info.statics info
  object [("classes", report classes), ("code", ofBytes program.code.bytes),
    ("entry", report program.entry), ("entry_module", report program.entryModule.index),
    ("main_class", text (program.catalog.name program.mainClass)),
    ("main_takes_args", bool program.mainTakesArgs),
    ("modules", report (program.modules.map (ofModule program))),
    ("symbols", report program.symbols.names.size)]

/-- The classes of a program with their static fields in a store. -/
def ofStatics (program : Program) (store : Store) : Report :=
  list (program.catalog.ids.map fun id =>
    let statics := store.staticsOf id
    let values := statics.slots.map (ofValue program.catalog.name store.heap 3)
    list [text (program.catalog.name id), bool statics.initialized, report values])

/-- How a run has ended. One that has crashed has nothing to show. -/
def ofOutcome (program : Program) (faulted : Fault → List (String × Report)) (outcome : Outcome) :
    Option Report :=
  let heap := outcome.store.heap
  match outcome.ending with
  | .finished value => some (object [("describe", text (program.describe heap value)),
      ("display", text (heap.text value)), ("ok", ofValue program.catalog.name heap 4 value)])
  | .faulted fault trace =>
    let calls := trace.map (·.describe program.catalog program.symbols)
    some (object (("backtrace", report calls) :: faulted fault))
  | .crashed => none

end Report

end ObjectMachine
