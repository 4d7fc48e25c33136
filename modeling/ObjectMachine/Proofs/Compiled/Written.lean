import ObjectMachine.Compiled.Draft
import ObjectMachine.Proofs.Compiled.Grammar
import ObjectMachine.Proofs.Compiled.RoundTrip

/-!
# The metadata of drafts

The records that a draft writes are a listing of its declarations: each class is complete and each
table is filled in order. They show what the draft holds, and their bytes are read back as long as
every name and every count fits.
-/

namespace ObjectMachine

/-! ## Numbers in order -/

def numbers (count : Nat) : List UInt32 :=
  (List.range' 1 count).map UInt32.ofNat

theorem toNat_ofNat_of_lt {number : Nat} (small : number < 0x100000000) :
    (UInt32.ofNat number).toNat = number :=
  UInt32.toNat_ofNat_of_lt' small

theorem complete_numbers {count : Nat} (small : count < 0x100000000) :
    Complete (UInt32.ofNat count) (numbers count) := by
  have same : (numbers count).map UInt32.toNat = List.range' 1 count := by
    rw [numbers, List.map_map, List.map_congr_left, List.map_id]
    intro number member
    rw [List.mem_range'_1] at member
    exact toNat_ofNat_of_lt (by omega)
  rw [Complete, same, toNat_ofNat_of_lt small]

theorem map_zipIdx_numbers (items : List α) :
    (items.zipIdx 1).map (fun entry => UInt32.ofNat entry.2) = numbers items.length := by
  rw [numbers, ← List.zipIdx_map_snd, List.map_map]
  rfl

/-- The entries of a table whose keys are numbered in order. -/
def numberedEntries (keys : Array α) : List (UInt32 × α) :=
  (keys.toList.zipIdx 1).map fun entry => (UInt32.ofNat entry.2, entry.1)

theorem fills_numberedEntries {keys : Array α} (small : keys.size < 0x100000000) :
    Fills (UInt32.ofNat keys.size) (numberedEntries keys) keys.toList where
  numbers := by
    rw [numberedEntries, List.map_map]
    have same := map_zipIdx_numbers keys.toList
    rw [Array.length_toList] at same
    change Complete _ ((keys.toList.zipIdx 1).map fun entry => UInt32.ofNat entry.2)
    rw [same]
    exact complete_numbers small
  length := by rw [Array.length_toList, toNat_ofNat_of_lt small]
  lists number entry member := by
    obtain ⟨⟨key, place⟩, listed, same⟩ := List.mem_map.mp member
    injection same with same same'
    subst same same'
    obtain ⟨first, here⟩ := List.mk_mem_zipIdx_iff_le_and_getElem?_sub.mp listed
    have inside := (List.getElem?_eq_some_iff.mp here).1
    rw [Array.length_toList] at inside
    rw [toNat_ofNat_of_lt (by omega)]
    exact here

theorem mem_of_mem_numberedEntries {keys : Array α} {entry : UInt32 × α}
    (h : entry ∈ numberedEntries keys) : entry.2 ∈ keys.toList := by
  obtain ⟨listed, among, rfl⟩ := List.mem_map.mp h
  exact List.fst_mem_of_mem_zipIdx among

/-! ## Classes -/

namespace ClassDeclaration

variable (declaration : ClassDeclaration)

def fieldHeaders (names : Array String) (isStatic : Bool) : List FieldHeader :=
  (names.toList.zipIdx 1).map fun entry => ⟨entry.1, UInt32.ofNat entry.2, isStatic⟩

def methodInfo (method : MethodDraft) (number : Nat) : MethodInfo where
  header := {
    name := method.name
    number := UInt32.ofNat number
    codeOffset := UInt32.ofNat method.codeOffset
    returnsValue := true
    argCount := method.argCount
    localCount := method.localCount
    isStatic := method.isStatic }
  locals := method.locals.map fun entry => ⟨entry.1, entry.2⟩

/-- A class as metadata show it: the static fields and the others numbered from 1 on, and so the
methods. An empty name stands for no parent. -/
def info : ClassInfo where
  name := declaration.name
  parent := declaration.parent.filter fun name => !name.isEmpty
  kind := declaration.kind
  staticFieldCount := UInt32.ofNat declaration.staticFields.size
  instanceFieldCount := UInt32.ofNat declaration.fields.size
  fields := (fieldHeaders declaration.staticFields true ++
    fieldHeaders declaration.fields false).toArray
  methods := ((declaration.methods.toList.zipIdx 1).map fun entry =>
    methodInfo entry.1 entry.2).toArray

def header : ClassHeader where
  name := declaration.name
  parent := declaration.parent.getD ""
  staticFieldCount := UInt32.ofNat declaration.staticFields.size
  instanceFieldCount := UInt32.ofNat declaration.fields.size
  methodCount := UInt32.ofNat declaration.methods.size
  kind := declaration.kind

/-- A method with the names of its locals behind it. -/
def methodMembers (method : MethodInfo) : List Member :=
  .method method.header :: method.locals.toList.map fun info => .localName info.name info.slot

def members : List Member :=
  (fieldHeaders declaration.staticFields true ++ fieldHeaders declaration.fields false).map
      Member.field ++
    declaration.info.methods.toList.flatMap methodMembers

theorem classRecords_eq : UnitDraft.classRecords declaration =
    (Declaration.block declaration.header declaration.members).records := by
  simp [UnitDraft.classRecords, Declaration.records, header, members, fieldHeaders, info,
    UnitDraft.fieldRecords, UnitDraft.methodRecords, methodMembers, methodInfo, Member.record,
    List.map_flatMap, List.flatMap_map, Function.comp_def]

theorem outline_fields (fields : List FieldHeader) (rest : List Member) :
    Member.outline (fields.map Member.field ++ rest) = Member.outline rest := by
  induction fields with
  | nil => rfl
  | cons field fields ih => exact ih

theorem outline_locals (locals : List LocalInfo) (rest : List Member) :
    Member.outline ((locals.map fun info => .localName info.name info.slot) ++ rest) =
      (locals ++ (Member.outline rest).1, (Member.outline rest).2) := by
  induction locals with
  | nil => rfl
  | cons info locals ih =>
      rw [List.map_cons, List.cons_append, Member.outline, ih]
      rfl

theorem outline_methods (methods : List MethodInfo) :
    Member.outline (methods.flatMap methodMembers) = ([], methods) := by
  induction methods with
  | nil => rfl
  | cons method methods ih =>
      rw [List.flatMap_cons, methodMembers, List.cons_append, Member.outline, outline_locals, ih]
      simp

theorem outline_members :
    Member.outline declaration.members = ([], declaration.info.methods.toList) := by
  rw [members, outline_fields, outline_methods]

theorem fields_members : Member.fields declaration.members = declaration.info.fields.toList := by
  have own (fields : List FieldHeader) :
      (fields.map Member.field).filterMap Member.field? = fields := by
    rw [List.filterMap_map]
    exact List.filterMap_some
  have none : (declaration.info.methods.toList.flatMap methodMembers).filterMap Member.field? =
      [] := by
    simp [List.filterMap_flatMap, methodMembers, Member.field?]
  rw [Member.fields, members, List.filterMap_append, own, none, List.append_nil]
  rfl

theorem info_eq : declaration.header.info declaration.members = declaration.info := by
  have parent : (if (declaration.parent.getD "").isEmpty then none
      else some (declaration.parent.getD "")) =
        declaration.parent.filter fun name => !name.isEmpty := by
    cases declaration.parent with
    | none => rfl
    | some name => cases empty : name.isEmpty <;> simp [empty, Option.filter]
  rw [ClassHeader.info, Member.methods, outline_members, fields_members, Array.toArray_toList,
    Array.toArray_toList]
  exact congrArg
    (fun parent => { declaration.info with parent := parent }) parent

theorem fieldNumbers_members (isStatic : Bool) :
    Member.fieldNumbers isStatic declaration.members =
      numbers (if isStatic then declaration.staticFields.size else declaration.fields.size) := by
  have own (names : Array String) (kind : Bool) :
      ((fieldHeaders names kind).filter (·.isStatic == kind)).map (·.number) =
        numbers names.size := by
    rw [List.filter_eq_self.mpr, fieldHeaders, List.map_map, ← Array.length_toList]
    · exact map_zipIdx_numbers names.toList
    · intro field member
      obtain ⟨entry, -, rfl⟩ := List.mem_map.mp member
      exact beq_self_eq_true kind
  have other (names : Array String) {kind another : Bool} (apart : another ≠ kind) :
      (fieldHeaders names another).filter (·.isStatic == kind) = [] := by
    refine List.filter_eq_nil_iff.mpr fun field member => ?_
    obtain ⟨entry, -, rfl⟩ := List.mem_map.mp member
    simpa using apart
  rw [Member.fieldNumbers, fields_members]
  simp only [info]
  rw [List.filter_append, List.map_append]
  cases isStatic with
  | true =>
      rw [own, other _ Bool.false_ne_true]
      exact List.append_nil _
  | false =>
      rw [own, other _ Bool.false_ne_true.symm]
      exact List.nil_append _

theorem methodNumbers_members :
    Member.methodNumbers declaration.members = numbers declaration.methods.size := by
  rw [Member.methodNumbers, Member.methods, outline_members]
  simp only [info]
  rw [List.map_map, ← Array.length_toList]
  exact map_zipIdx_numbers declaration.methods.toList

theorem completes (small : declaration.staticFields.size < 0x100000000)
    (small' : declaration.fields.size < 0x100000000)
    (small'' : declaration.methods.size < 0x100000000) :
    declaration.header.Completes declaration.members where
  fields isStatic := by
    rw [fieldNumbers_members]
    cases isStatic with
    | true => exact complete_numbers small
    | false => exact complete_numbers small'
  methods := by
    rw [methodNumbers_members]
    exact complete_numbers small''
  locals := by rw [outline_members]

theorem declared_header (small : declaration.staticFields.size + declaration.fields.size +
    declaration.methods.size < 0x100000000) :
    declaration.header.declared = declaration.staticFields.size + declaration.fields.size +
      declaration.methods.size := by
  simp only [ClassHeader.declared, header]
  rw [toNat_ofNat_of_lt (by omega), toNat_ofNat_of_lt (by omega), toNat_ofNat_of_lt (by omega)]

theorem size_members : declaration.info.fields.size + declaration.info.methods.size =
    declaration.staticFields.size + declaration.fields.size + declaration.methods.size := by
  simp [info, fieldHeaders]

end ClassDeclaration

/-! ## Sizes -/

def ClassKind.names : ClassKind → List String
  | .plain => []
  | .facade nativeType handle => [nativeType, handle]
  | .implicit hostType => [hostType]

def ClassInfo.names (info : ClassInfo) : List String :=
  info.name :: info.parent.toList ++ info.kind.names ++ info.fields.toList.map (·.name) ++
    info.methods.toList.flatMap fun method =>
      method.header.name :: method.locals.toList.map (·.name)

namespace Metadata

def names (view : Metadata) : List String :=
  view.moduleName :: view.uses.toList ++ view.classes.toList.flatMap ClassInfo.names ++
    view.enums.toList.flatMap (fun info => info.name :: info.members.map (·.1)) ++
    view.classRefs ++ view.fieldAccesses ++ view.methodCalls.map (·.name)

/-- Whether the fields of the format hold the sizes of all that metadata show. -/
structure Sized (view : Metadata) : Prop where
  names : ∀ name ∈ view.names, name.utf8ByteSize < 0x10000
  enums : ∀ info ∈ view.enums.toList, info.members.length < 0x10000
  strings : ∀ value ∈ view.strings, value.utf8ByteSize < 0x100000000
  tables : view.strings.length < 0x100000000 ∧ view.classRefs.length < 0x100000000 ∧
    view.fieldAccesses.length < 0x100000000 ∧ view.methodCalls.length < 0x100000000
  members : ∀ info ∈ view.classes.toList, info.fields.size + info.methods.size < 0x100000000

end Metadata

theorem MetaRecord.names_classHeader (header : ClassHeader) :
    (MetaRecord.classHeader header).names =
      header.name :: header.parent :: header.kind.names := by
  cases kind : header.kind <;> simp [ClassKind.names, kind]

/-! ## Units -/

namespace UnitDraft

variable (draft : UnitDraft)

def view : Metadata where
  moduleName := draft.name
  uses := draft.uses
  classes := draft.classes.map ClassDeclaration.info
  enums := draft.enums
  strings := draft.strings.toList
  classRefs := draft.classRefs.toList
  fieldAccesses := draft.fieldAccesses.toList
  methodCalls := draft.methodCalls.toList

/-- The declarations of a draft in the order in which they are written. -/
def listing : Listing where
  moduleName := draft.name
  classRefs := UInt32.ofNat draft.classRefs.size
  fieldAccesses := UInt32.ofNat draft.fieldAccesses.size
  methodCalls := UInt32.ofNat draft.methodCalls.size
  strings := UInt32.ofNat draft.strings.size
  declarations :=
    draft.uses.toList.map .use ++
      draft.classes.toList.map (fun declaration =>
        .block declaration.header declaration.members) ++
      draft.enums.toList.map (fun info => .enumeration info.name info.members) ++
      (numberedEntries draft.strings).map (fun entry =>
        .string entry.1 entry.2 (entry.2.utf8ByteSize ≤ 255)) ++
      (numberedEntries draft.classRefs).map (fun entry => .classRef entry.2 entry.1) ++
      (numberedEntries draft.fieldAccesses).map (fun entry => .fieldAccess entry.2 entry.1) ++
      (numberedEntries draft.methodCalls).map (fun entry =>
        .methodCall entry.2.name entry.2.arity entry.1)

theorem numberedRecords_eq (keys : Array α) (record : α → UInt32 → MetaRecord) :
    numberedRecords keys record =
      (numberedEntries keys).map fun entry => record entry.2 entry.1 := by
  rw [numberedEntries, List.map_map]
  rfl

theorem records_eq : draft.records = draft.listing.records := by
  have single {α : Type} (items : List α) (form : α → Declaration) (record : α → MetaRecord)
      (one : ∀ item, (form item).records = [record item]) :
      (items.map form).flatMap Declaration.records = items.map record := by
    rw [List.flatMap_map, List.map_eq_flatMap]
    exact List.flatMap_congr fun item _ => one item
  have classes : (draft.classes.toList.map fun declaration =>
        Declaration.block declaration.header declaration.members).flatMap Declaration.records =
      draft.classes.toList.flatMap classRecords := by
    rw [List.flatMap_map]
    exact List.flatMap_congr fun declaration _ => declaration.classRecords_eq.symm
  simp only [records, Listing.records, listing, List.flatMap_append, classes]
  rw [single _ _ _ fun _ => rfl, single _ _ _ fun _ => rfl, single _ _ _ fun _ => rfl,
    single _ _ _ fun _ => rfl, single _ _ _ fun _ => rfl, single _ _ _ fun _ => rfl]
  rw [numberedRecords_eq, numberedRecords_eq, numberedRecords_eq, numberedRecords_eq]
  rfl

theorem shows (strings : draft.strings.size < 0x100000000)
    (classRefs : draft.classRefs.size < 0x100000000)
    (fieldAccesses : draft.fieldAccesses.size < 0x100000000)
    (methodCalls : draft.methodCalls.size < 0x100000000) : draft.listing.Shows draft.view where
  moduleName := rfl
  uses := by
    simp [listing, view, Function.comp_def, Declaration.use?]
  enums := by
    simp [listing, view, Function.comp_def, Declaration.enumeration?]
  classes := by
    simp [listing, view, Function.comp_def, Declaration.class?, ClassDeclaration.info_eq]
  strings := by
    have entries : draft.listing.declarations.filterMap Declaration.string? =
        numberedEntries draft.strings := by
      simp [listing, Function.comp_def, Declaration.string?]
    rw [entries]
    exact fills_numberedEntries strings
  classRefs := by
    have entries : draft.listing.declarations.filterMap Declaration.classRef? =
        numberedEntries draft.classRefs := by
      simp [listing, Function.comp_def, Declaration.classRef?]
    rw [entries]
    exact fills_numberedEntries classRefs
  fieldAccesses := by
    have entries : draft.listing.declarations.filterMap Declaration.fieldAccess? =
        numberedEntries draft.fieldAccesses := by
      simp [listing, Function.comp_def, Declaration.fieldAccess?]
    rw [entries]
    exact fills_numberedEntries fieldAccesses
  methodCalls := by
    have entries : draft.listing.declarations.filterMap Declaration.methodCall? =
        numberedEntries draft.methodCalls := by
      simp [listing, Function.comp_def, Declaration.methodCall?]
    rw [entries]
    exact fills_numberedEntries methodCalls

variable {draft}

/-- What a draft writes is accepted and shows what it declares, unless something cannot be counted
in 32 bits. -/
theorem ofRecords_records (sized : draft.view.Sized) :
    Metadata.ofRecords draft.records = .ok draft.view := by
  obtain ⟨strings, classRefs, fieldAccesses, methodCalls⟩ := sized.tables
  simp only [view, Array.length_toList] at strings classRefs fieldAccesses methodCalls
  refine Metadata.ofRecords_eq_ok_iff.mpr ⟨draft.listing, draft.records_eq, ?_,
    draft.shows strings classRefs fieldAccesses methodCalls⟩
  intro header members member
  have listed : ∃ declaration ∈ draft.classes.toList,
      declaration.header = header ∧ declaration.members = members := by
    simpa [listing] using member
  obtain ⟨declaration, among, rfl, rfl⟩ := listed
  have small := sized.members declaration.info
    (by rw [view, Array.toList_map]; exact List.mem_map_of_mem among)
  rw [declaration.size_members] at small
  refine (ClassHeader.closes_iff_completes ?_).mpr
    (declaration.completes (by omega) (by omega) (by omega))
  rw [declaration.declared_header small]
  exact small

/-! ## Bytes -/

theorem ended_records (draft : UnitDraft) : MetaRecord.Ended draft.records := by
  refine ⟨_, rfl, fun member => ?_⟩
  simp [classRecords, fieldRecords, methodRecords, numberedRecords, stringRecord] at member

theorem names_header {declaration : ClassDeclaration} {name : String}
    (own : name ∈ (MetaRecord.classHeader declaration.header).names) :
    name = "" ∨ name ∈ declaration.info.names := by
  rw [MetaRecord.names_classHeader, List.mem_cons, List.mem_cons] at own
  rcases own with rfl | rfl | kind
  · exact .inr List.mem_cons_self
  · by_cases empty : declaration.header.parent = ""
    · exact .inl empty
    · refine .inr ?_
      have given : declaration.info.parent = some declaration.header.parent := by
        change declaration.parent.getD "" ≠ "" at empty
        change declaration.parent.filter _ = some (declaration.parent.getD "")
        cases parent : declaration.parent <;> simp_all
      simp [ClassInfo.names, given]
  · refine .inr ?_
    have same : declaration.info.kind = declaration.header.kind := rfl
    simp [ClassInfo.names, same, kind]

theorem names_members {declaration : ClassDeclaration} {member : Member}
    (listed : member ∈ declaration.members) {name : String} (own : name ∈ member.record.names) :
    name ∈ declaration.info.names := by
  rcases List.mem_append.mp listed with field | method
  · obtain ⟨header, among, rfl⟩ := List.mem_map.mp field
    have here : header ∈ declaration.info.fields.toList := among
    rw [List.mem_singleton.mp own]
    simp only [ClassInfo.names, List.mem_append, List.mem_map]
    exact .inl (.inr ⟨header, here, rfl⟩)
  · obtain ⟨method, among, here⟩ := List.mem_flatMap.mp method
    simp only [ClassInfo.names, List.mem_append, List.mem_flatMap]
    refine .inr ⟨method, among, ?_⟩
    rcases List.mem_cons.mp here with rfl | here
    · rw [List.mem_singleton.mp own]
      exact List.mem_cons_self
    · obtain ⟨info, among, rfl⟩ := List.mem_map.mp here
      rw [List.mem_singleton.mp own]
      exact List.mem_cons_of_mem _ (List.mem_map_of_mem among)

theorem names_classRecords {declaration : ClassDeclaration} {record : MetaRecord}
    (listed : record ∈ classRecords declaration) {name : String} (own : name ∈ record.names) :
    name = "" ∨ name ∈ declaration.info.names := by
  rw [declaration.classRecords_eq, Declaration.records, List.mem_cons] at listed
  rcases listed with rfl | listed
  · exact names_header own
  · obtain ⟨member, among, rfl⟩ := List.mem_map.mp listed
    exact .inr (names_members among own)

/-- The records of a draft, one kind after the other. -/
theorem mem_records_iff {record : MetaRecord} : record ∈ draft.records ↔
    record = .moduleHeader draft.name (UInt32.ofNat draft.classRefs.size)
        (UInt32.ofNat draft.fieldAccesses.size) (UInt32.ofNat draft.methodCalls.size)
        (UInt32.ofNat draft.strings.size) ∨
      (∃ name ∈ draft.uses.toList, .use name = record) ∨
      (∃ declaration ∈ draft.classes.toList, record ∈ classRecords declaration) ∨
      (∃ info ∈ draft.enums.toList, .enumeration info.name info.members = record) ∨
      (∃ entry ∈ numberedEntries draft.strings, stringRecord entry.2 entry.1 = record) ∨
      (∃ entry ∈ numberedEntries draft.classRefs, .classRef entry.2 entry.1 = record) ∨
      (∃ entry ∈ numberedEntries draft.fieldAccesses, .fieldAccess entry.2 entry.1 = record) ∨
      (∃ entry ∈ numberedEntries draft.methodCalls,
        .methodCall entry.2.name entry.2.arity entry.1 = record) ∨
      record = .finish := by
  simp only [records, List.cons_append, List.mem_cons, List.mem_append, List.mem_map,
    List.mem_flatMap, numberedRecords_eq, List.not_mem_nil, or_false, or_assoc]

theorem names_records {record : MetaRecord} (listed : record ∈ draft.records) {name : String}
    (own : name ∈ record.names) : name = "" ∨ name ∈ draft.view.names := by
  rw [mem_records_iff] at listed
  simp only [Metadata.names, view, List.cons_append, List.mem_cons, List.mem_append,
    List.mem_flatMap, List.mem_map, Array.toList_map]
  rcases listed with rfl | ⟨used, among, rfl⟩ | ⟨declaration, among, listed⟩ |
    ⟨info, among, rfl⟩ | ⟨entry, among, rfl⟩ | ⟨entry, among, rfl⟩ | ⟨entry, among, rfl⟩ |
    ⟨entry, among, rfl⟩ | rfl
  · rw [List.mem_singleton.mp own]
    simp
  · rw [List.mem_singleton.mp own]
    simp [among]
  · rcases names_classRecords listed own with empty | own
    · exact .inl empty
    · grind
  · simp only [MetaRecord.names, List.mem_cons, List.mem_map] at own
    grind
  · exact absurd own List.not_mem_nil
  · have key := mem_of_mem_numberedEntries among
    rw [List.mem_singleton.mp own]
    simp [key]
  · have key := mem_of_mem_numberedEntries among
    rw [List.mem_singleton.mp own]
    simp [key]
  · have key := mem_of_mem_numberedEntries among
    rw [List.mem_singleton.mp own]
    grind
  · exact absurd own List.not_mem_nil

theorem counts_records (sized : draft.view.Sized) {record : MetaRecord}
    (listed : record ∈ draft.records) : record.Counts := by
  rw [mem_records_iff] at listed
  rcases listed with rfl | ⟨used, among, rfl⟩ | ⟨declaration, among, listed⟩ |
    ⟨info, among, rfl⟩ | ⟨entry, among, rfl⟩ | ⟨entry, among, rfl⟩ | ⟨entry, among, rfl⟩ |
    ⟨entry, among, rfl⟩ | rfl
  · trivial
  · trivial
  · rw [declaration.classRecords_eq, Declaration.records, List.mem_cons] at listed
    rcases listed with rfl | listed
    · trivial
    · obtain ⟨member, -, rfl⟩ := List.mem_map.mp listed
      cases member <;> trivial
  · exact sized.enums info among
  · have key := sized.strings _ (mem_of_mem_numberedEntries among)
    by_cases short : entry.2.utf8ByteSize ≤ 255
    · have few : entry.2.utf8ByteSize < 0x100 := by omega
      simpa [stringRecord, short] using few
    · simpa [stringRecord, short] using key
  · trivial
  · trivial
  · trivial
  · trivial

theorem decodeAll_records (sized : draft.view.Sized) :
    MetaRecord.decodeAll (MetaRecord.encodeAll draft.records) = .ok draft.records := by
  refine MetaRecord.decodeAll_encodeAll draft.ended_records fun record listed =>
    ⟨fun name own => ?_, counts_records sized listed⟩
  rcases names_records listed own with rfl | named
  · decide
  · exact sized.names name named

end UnitDraft

end ObjectMachine
