import ObjectMachine.Compiled.Shrink
import ObjectMachine.Proofs.Compiled.Grammar
import ObjectMachine.Proofs.Compiled.RoundTrip

/-!
# Metadata with methods at other places

The metadata of a unit do not tie the places of its methods to anything: with the methods at other
places, the records are accepted as before, and the view shows the same but for these places.
-/

namespace ObjectMachine

/-! ## Views -/

section

variable (Offset : UInt32 → UInt32 → Prop)

/-- Whether a method is another one at a corresponding place. -/
structure MethodHeader.Relocated (header header' : MethodHeader) : Prop where
  offset : Offset header.codeOffset header'.codeOffset
  same : header' = { header with codeOffset := header'.codeOffset }

structure MethodInfo.Relocated (method method' : MethodInfo) : Prop where
  header : method.header.Relocated Offset method'.header
  locals : method'.locals = method.locals

structure ClassInfo.Relocated (info info' : ClassInfo) : Prop where
  methods : List.Forall₂ (MethodInfo.Relocated Offset) info.methods.toList info'.methods.toList
  same : info' = { info with methods := info'.methods }

structure Metadata.Relocated (view view' : Metadata) : Prop where
  classes : List.Forall₂ (ClassInfo.Relocated Offset) view.classes.toList view'.classes.toList
  same : view' = { view with classes := view'.classes }

inductive MetaRecord.Relocated : MetaRecord → MetaRecord → Prop
  | method {header header' : MethodHeader} (moved : header.Relocated Offset header') :
    Relocated (.method header) (.method header')
  | other {record : MetaRecord} (none : record.codeOffset? = none) : Relocated record record

end

variable {Offset : UInt32 → UInt32 → Prop}

/-! ## Records -/

namespace MetaRecord

theorem relocated_moveMethods {records : List MetaRecord} {moved : List UInt32}
    (h : List.Forall₂ Offset (records.filterMap codeOffset?) moved) :
    List.Forall₂ (Relocated Offset) records (moveMethods records moved) := by
  induction records generalizing moved with
  | nil => exact .nil
  | cons record rest ih =>
      cases record with
      | method header =>
          change List.Forall₂ Offset (header.codeOffset :: rest.filterMap codeOffset?) moved at h
          cases h with
          | cons here others => exact .cons (.method ⟨here, rfl⟩) (ih others)
      | _ => exact .cons (.other rfl) (ih h)

theorem Relocated.fits {record record' : MetaRecord} (h : record.Relocated Offset record')
    (fits : record.Fits) : record'.Fits := by
  cases h with
  | other => exact fits
  | @method header header' moved =>
      rw [moved.same]
      exact ⟨fits.names, trivial⟩

theorem Relocated.finish_iff {record record' : MetaRecord} (h : record.Relocated Offset record') :
    record' = finish ↔ record = finish := by
  cases h with
  | other => rfl
  | method => simp

theorem ended_relocated {records records' : List MetaRecord}
    (h : List.Forall₂ (Relocated Offset) records records') (ended : Ended records) :
    Ended records' := by
  obtain ⟨front, rfl, absent⟩ := ended
  obtain ⟨front', last, rfl, others, final⟩ := exists_append_of_forall₂ h
  obtain ⟨record, _, finished, none, rfl⟩ := List.forall₂_cons_left_iff.mp final
  obtain rfl := List.forall₂_nil_left_iff.mp none
  refine ⟨front', by rw [finished.finish_iff.mpr rfl], fun member => ?_⟩
  obtain ⟨record', listed, moved⟩ := exists_of_mem_right others member
  exact absent (moved.finish_iff.mp rfl ▸ listed)

/-- Records are read back from what is written of them with the methods at other places. -/
theorem decodeAll_relocated {metadata : Bytes} {records records' : List MetaRecord}
    (read : decodeAll metadata = .ok records)
    (h : List.Forall₂ (Relocated Offset) records records') :
    decodeAll (encodeAll records') = .ok records' := by
  obtain ⟨ended, fits, -⟩ := decodeAll_eq_ok_iff.mp read
  refine decodeAll_encodeAll (ended_relocated h ended) fun record' member => ?_
  obtain ⟨record, listed, moved⟩ := exists_of_mem_right h member
  exact moved.fits (fits record listed)

end MetaRecord

/-! ## Declarations -/

abbrev Member.Relocated (Offset : UInt32 → UInt32 → Prop) (member member' : Member) : Prop :=
  member.record.Relocated Offset member'.record

namespace Member

theorem exists_member_of_relocated {member : Member} {record : MetaRecord}
    (h : member.record.Relocated Offset record) :
    ∃ member' : Member, record = member'.record ∧ member.Relocated Offset member' := by
  cases member with
  | method header =>
      cases h with
      | @method _ header' moved => exact ⟨method header', rfl, .method moved⟩
      | other none => cases none
  | _ =>
      cases h
      exact ⟨_, rfl, .other rfl⟩

theorem field?_relocated {member member' : Member} (h : member.Relocated Offset member') :
    member'.field? = member.field? := by
  cases member <;> cases member' <;> cases h <;> rfl

theorem fields_relocated {members members' : List Member}
    (h : List.Forall₂ (Relocated Offset) members members') : fields members' = fields members := by
  induction h with
  | nil => rfl
  | cons here _ ih =>
      unfold fields at ih ⊢
      rw [List.filterMap_cons, List.filterMap_cons, field?_relocated here, ih]

theorem outline_relocated {members members' : List Member}
    (h : List.Forall₂ (Relocated Offset) members members') :
    (outline members').1 = (outline members).1 ∧
      List.Forall₂ (MethodInfo.Relocated Offset) (outline members).2 (outline members').2 := by
  induction h with
  | nil => exact ⟨rfl, .nil⟩
  | @cons member member' _ _ here _ ih =>
      obtain ⟨locals, methods⟩ := ih
      cases member with
      | field header =>
          cases member' <;> cases here
          exact ⟨locals, methods⟩
      | localName name slot =>
          cases member' <;> cases here
          exact ⟨by simp only [outline, locals], methods⟩
      | method header =>
          cases member' with
          | method header' =>
              cases here with
              | method moved => exact ⟨rfl, .cons ⟨moved, by rw [locals]⟩ methods⟩
              | other none => cases none
          | _ => cases here

theorem methodNumbers_relocated {members members' : List Member}
    (h : List.Forall₂ (Relocated Offset) members members') :
    methodNumbers members' = methodNumbers members := by
  refine map_eq_of_forall₂ ((outline_relocated h).2.imp fun method method' moved => ?_)
  rw [moved.header.same]

end Member

theorem ClassHeader.closes_relocated {header : ClassHeader} {members members' : List Member}
    (h : List.Forall₂ (Member.Relocated Offset) members members') (closes : header.Closes members) :
    header.Closes members' := by
  have fields := Member.fields_relocated h
  have outlines := Member.outline_relocated h
  refine ⟨⟨fun isStatic => ?_, ?_, outlines.1.trans closes.locals⟩, ?_⟩
  · rw [Member.fieldNumbers, fields]
    exact closes.fields isStatic
  · rw [Member.methodNumbers_relocated h]
    exact closes.methods
  · rw [Member.count, fields, Member.methods, ← outlines.2.length_eq]
    exact closes.count

inductive Declaration.Relocated (Offset : UInt32 → UInt32 → Prop) :
    Declaration → Declaration → Prop
  | block (header : ClassHeader) {members members' : List Member}
    (moved : List.Forall₂ (Member.Relocated Offset) members members') :
    Relocated Offset (.block header members) (.block header members')
  | other {declaration : Declaration} (plain : declaration.class? = none) :
    Relocated Offset declaration declaration

namespace Declaration

theorem exists_relocated {declaration : Declaration} {records : List MetaRecord}
    (h : List.Forall₂ (MetaRecord.Relocated Offset) declaration.records records) :
    ∃ declaration', records = declaration'.records ∧
      declaration.Relocated Offset declaration' := by
  cases declaration with
  | block header members =>
      obtain ⟨_, rest, first, others, rfl⟩ := List.forall₂_cons_left_iff.mp h
      cases first
      have made : ∃ members' : List Member, rest = members'.map Member.record ∧
          List.Forall₂ (Member.Relocated Offset) members members' := by
        clear h
        induction members generalizing rest with
        | nil =>
            obtain rfl := List.forall₂_nil_left_iff.mp others
            exact ⟨[], rfl, .nil⟩
        | cons member members ih =>
            obtain ⟨record, rest, here, there, rfl⟩ := List.forall₂_cons_left_iff.mp others
            obtain ⟨member', rfl, moved⟩ := Member.exists_member_of_relocated here
            obtain ⟨members', rfl, more⟩ := ih rest there
            exact ⟨member' :: members', rfl, .cons moved more⟩
      obtain ⟨members', rfl, moved⟩ := made
      exact ⟨.block header members', rfl, .block header moved⟩
  | _ =>
      obtain ⟨record, _, here, none, rfl⟩ := List.forall₂_cons_left_iff.mp h
      obtain rfl := List.forall₂_nil_left_iff.mp none
      cases here
      exact ⟨_, rfl, .other rfl⟩

theorem exists_relocated_of_flatMap {declarations : List Declaration} {records : List MetaRecord}
    (h : List.Forall₂ (MetaRecord.Relocated Offset) (declarations.flatMap Declaration.records)
      records) :
    ∃ declarations', records = declarations'.flatMap Declaration.records ∧
      List.Forall₂ (Relocated Offset) declarations declarations' := by
  induction declarations generalizing records with
  | nil =>
      obtain rfl := List.forall₂_nil_left_iff.mp h
      exact ⟨[], rfl, .nil⟩
  | cons declaration rest ih =>
      rw [List.flatMap_cons] at h
      obtain ⟨first, others, rfl, here, there⟩ := exists_append_of_forall₂ h
      obtain ⟨declaration', rfl, moved⟩ := exists_relocated here
      obtain ⟨rest', rfl, more⟩ := ih there
      exact ⟨declaration' :: rest', by rw [List.flatMap_cons], .cons moved more⟩

/-- What says nothing about classes says the same about relocated declarations. -/
theorem filterMap_relocated {part? : Declaration → Option α}
    {declarations others : List Declaration}
    (h : List.Forall₂ (Relocated Offset) declarations others)
    (plain : ∀ header members, part? (.block header members) = none) :
    others.filterMap part? = declarations.filterMap part? := by
  induction h with
  | nil => rfl
  | cons here _ ih =>
      cases here with
      | block => rw [List.filterMap_cons_none (plain _ _), List.filterMap_cons_none (plain _ _), ih]
      | other => rw [List.filterMap_cons, List.filterMap_cons, ih]

theorem classes_relocated {declarations others : List Declaration}
    (h : List.Forall₂ (Relocated Offset) declarations others) :
    List.Forall₂ (ClassInfo.Relocated Offset) (declarations.filterMap class?)
      (others.filterMap class?) := by
  induction h with
  | nil => exact .nil
  | cons here _ ih =>
      cases here with
      | block header moved =>
          refine .cons ⟨(Member.outline_relocated moved).2, ?_⟩ ih
          rw [ClassHeader.info, ClassHeader.info, Member.fields_relocated moved]
      | other plain =>
          rw [List.filterMap_cons_none plain, List.filterMap_cons_none plain]
          exact ih

end Declaration

/-! ## Units -/

theorem Metadata.Relocated.imp {Offset' : UInt32 → UInt32 → Prop} {view view' : Metadata}
    (h : view.Relocated Offset view')
    (stronger : ∀ info ∈ view.classes.toList, ∀ method ∈ info.methods.toList, ∀ offset,
      Offset method.header.codeOffset offset → Offset' method.header.codeOffset offset) :
    view.Relocated Offset' view' := by
  refine ⟨?_, h.same⟩
  refine ((List.forall₂_and_left _ _).mpr ⟨fun _ => id, h.classes⟩).imp ?_
  rintro info info' ⟨listed, moved⟩
  refine ⟨?_, moved.same⟩
  refine ((List.forall₂_and_left _ _).mpr ⟨fun _ => id, moved.methods⟩).imp ?_
  rintro method method' ⟨own, same⟩
  exact ⟨⟨stronger info listed method own _ same.header.offset, same.header.same⟩, same.locals⟩

theorem Metadata.relocated_self {view : Metadata}
    (stay : ∀ info ∈ view.classes.toList, ∀ method ∈ info.methods.toList,
      Offset method.header.codeOffset method.header.codeOffset) : view.Relocated Offset view :=
  ⟨List.forall₂_same.mpr fun info listed => ⟨List.forall₂_same.mpr fun method own =>
    ⟨⟨stay info listed method own, rfl⟩, rfl⟩, rfl⟩, rfl⟩

theorem Metadata.Relocated.exists_method {view view' : Metadata} (h : view.Relocated Offset view')
    {info' : ClassInfo} (listed : info' ∈ view'.classes.toList) {method' : MethodInfo}
    (own : method' ∈ info'.methods.toList) :
    ∃ info ∈ view.classes.toList, ∃ method ∈ info.methods.toList,
      Offset method.header.codeOffset method'.header.codeOffset := by
  obtain ⟨info, declared, moved⟩ := exists_of_mem_right h.classes listed
  obtain ⟨method, member, same⟩ := exists_of_mem_right moved.methods own
  exact ⟨info, declared, method, member, same.header.offset⟩

theorem Member.filterMap_codeOffset? (members : List Member) :
    (members.map Member.record).filterMap MetaRecord.codeOffset? =
      (methods members).map (·.header.codeOffset) := by
  unfold methods
  induction members with
  | nil => rfl
  | cons member rest ih =>
      cases member with
      | method header => exact congrArg (header.codeOffset :: ·) ih
      | _ => exact ih

/-- The places of methods that stand in records are those of the methods in their view. -/
theorem Metadata.codeOffsets_eq {records : List MetaRecord} {view : Metadata}
    (accepted : ofRecords records = .ok view) :
    records.filterMap MetaRecord.codeOffset? =
      view.classes.toList.flatMap fun info => info.methods.toList.map (·.header.codeOffset) := by
  obtain ⟨listing, rfl, -, shows⟩ := ofRecords_eq_ok_iff.mp accepted
  have declared (declarations : List Declaration) :
      (declarations.flatMap Declaration.records).filterMap MetaRecord.codeOffset? =
        (declarations.filterMap Declaration.class?).flatMap fun info =>
          info.methods.toList.map (·.header.codeOffset) := by
    induction declarations with
    | nil => rfl
    | cons declaration rest ih =>
        rw [List.flatMap_cons, List.filterMap_append, ih]
        cases declaration with
        | block header members =>
            exact congrArg (· ++ _) (Member.filterMap_codeOffset? members)
        | _ => rfl
  rw [shows.classes, ← declared, Listing.records]
  change List.filterMap _ (_ ++ _) = _
  rw [List.filterMap_append]
  exact List.append_nil _

/-- Records with the methods at other places are accepted like the records themselves, and have the
view with the methods at these places. -/
theorem Metadata.ofRecords_relocated {records records' : List MetaRecord} {view : Metadata}
    (accepted : ofRecords records = .ok view)
    (h : List.Forall₂ (MetaRecord.Relocated Offset) records records') :
    ∃ view', ofRecords records' = .ok view' ∧ view.Relocated Offset view' := by
  obtain ⟨listing, rfl, closes, shows⟩ := ofRecords_eq_ok_iff.mp accepted
  obtain ⟨_, _, header, others, rfl⟩ := List.forall₂_cons_left_iff.mp h
  obtain ⟨_, last, rfl, declared, final⟩ := exists_append_of_forall₂ others
  obtain ⟨_, _, finished, none, rfl⟩ := List.forall₂_cons_left_iff.mp final
  obtain rfl := List.forall₂_nil_left_iff.mp none
  obtain ⟨declarations, rfl, moved⟩ := Declaration.exists_relocated_of_flatMap declared
  cases header
  cases finished
  have classes := Declaration.classes_relocated moved
  rw [← shows.classes] at classes
  refine ⟨{ view with classes := (declarations.filterMap Declaration.class?).toArray },
    ofRecords_eq_ok_iff.mpr ⟨{ listing with declarations }, rfl, ?_, ?_⟩, classes, rfl⟩
  · intro header members among
    obtain ⟨declaration, listed, same⟩ := exists_of_mem_right moved among
    cases same with
    | block _ both => exact ClassHeader.closes_relocated both (closes header _ listed)
    | other plain => cases plain
  · have same {α : Type} (part? : Declaration → Option α)
        (plain : ∀ header members, part? (.block header members) = Option.none) :=
      Declaration.filterMap_relocated moved plain
    exact {
      moduleName := shows.moduleName
      uses := shows.uses.trans (same Declaration.use? fun _ _ => rfl).symm
      enums := shows.enums.trans (same Declaration.enumeration? fun _ _ => rfl).symm
      classes := rfl
      strings := (same Declaration.string? fun _ _ => rfl) ▸ shows.strings
      classRefs := (same Declaration.classRef? fun _ _ => rfl) ▸ shows.classRefs
      fieldAccesses := (same Declaration.fieldAccess? fun _ _ => rfl) ▸ shows.fieldAccesses
      methodCalls := (same Declaration.methodCall? fun _ _ => rfl) ▸ shows.methodCalls }

end ObjectMachine
