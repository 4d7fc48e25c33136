import ObjectMachine.Compiled.Metadata
import ObjectMachine.Report.Tree

/-!
# Reports on metadata
-/

namespace ObjectMachine

namespace Report

def ofKind : ClassKind → Report
  | .plain => object [("type", text "plain")]
  | .facade nativeType handle =>
    object [("extension", text handle), ("native_type", text nativeType), ("type", text "facade")]
  | .implicit hostType => object [("host_type", text hostType), ("type", text "implicit")]

def ofField (field : FieldHeader) : Report :=
  object [("is_static", report field.isStatic), ("name", report field.name),
    ("number", report field.number)]

def ofLocal (info : LocalInfo) : Report :=
  object [("name", report info.name), ("number", report info.slot)]

def ofMethod (method : MethodInfo) : Report :=
  let header := method.header
  object [("arg_count", report header.argCount), ("code_offset", report header.codeOffset),
    ("is_static", report header.isStatic), ("local_count", report header.localCount),
    ("locals", report (method.locals.map ofLocal)), ("name", report header.name),
    ("number", report header.number), ("returns_value", report header.returnsValue)]

def ofClassInfo (info : ClassInfo) : Report :=
  object [("fields", report (info.fields.map ofField)),
    ("instance_field_count", report info.instanceFieldCount), ("kind", ofKind info.kind),
    ("methods", report (info.methods.map ofMethod)), ("name", report info.name),
    ("parent", report info.parent), ("static_field_count", report info.staticFieldCount)]

def ofEnum (info : EnumInfo) : Report :=
  object [("name", report info.name), ("values", report info.members)]

def ofMethodRef (method : MethodRef) : Report :=
  object [("arity", report method.arity), ("name", report method.name)]

def ofMetadata (view : Metadata) : Report :=
  object [("class_refs", report view.classRefs), ("classes", report (view.classes.map ofClassInfo)),
    ("enums", report (view.enums.map ofEnum)), ("field_accesses", report view.fieldAccesses),
    ("method_calls", report (view.methodCalls.map ofMethodRef)),
    ("module", report view.moduleName), ("strings", report view.strings),
    ("uses", report view.uses)]

/-- A record as its name and what it holds. -/
def ofRecord (record : MetaRecord) : Report :=
  let tagged (tag : String) (parts : List Report) : Report := list (text tag :: parts)
  match record with
  | .finish => tagged "end" []
  | .moduleHeader name classes fields methods strings =>
    tagged "module" [report name, report classes, report fields, report methods, report strings]
  | .use name => tagged "use" [report name]
  | .classHeader header =>
    let common := [report header.name, report header.parent, report header.staticFieldCount,
      report header.instanceFieldCount, report header.methodCount]
    match header.kind with
    | .plain => tagged "class" common
    | .facade nativeType handle => tagged "facade_class" (common ++ [text nativeType, text handle])
    | .implicit hostType => tagged "implicit_class" (common ++ [text hostType])
  | .field header =>
    tagged (if header.isStatic then "static_field" else "field")
      [report header.name, report header.number]
  | .method header =>
    tagged (if header.isStatic then "static_method" else "method")
      [report header.name, report header.number, report header.codeOffset,
        report header.returnsValue, report header.argCount, report header.localCount]
  | .localName name slot => tagged "local" [report name, report slot]
  | .string key value short => tagged "string" [report key, report value, report short]
  | .classRef name key => tagged "class_ref" [report name, report key]
  | .fieldAccess name key => tagged "field_access" [report name, report key]
  | .methodCall name arity key => tagged "method_call" [report name, report arity, report key]
  | .enumeration name members => tagged "enum" [report name, report members]

end Report

instance : Reportable Metadata := ⟨.ofMetadata⟩
instance : Reportable MetaRecord := ⟨.ofRecord⟩

end ObjectMachine
