import Mathlib.Data.List.Induction
import Mathlib.Data.List.Nodup
import Mathlib.Data.List.Perm.Subperm
import ObjectMachine.Compiled.Metadata
import ObjectMachine.Proofs.Results

/-!
# The members of a class

The records behind a class header are its members: fields and methods with numbers, in any order,
and the names of locals behind the methods that they belong to. The numbers of each kind are all
those up to the count that the header declares for it.

A class counts as complete when the number of members that are still missing is a multiple of 2³²,
so that a header whose counts add up to that much or more asks for fewer members than it declares.
-/

namespace ObjectMachine

/-! ## Numbers -/

/-- Whether numbers are different ones from 1 to a greatest one. -/
structure Fresh (greatest : UInt32) (numbers : List UInt32) : Prop where
  nodup : numbers.Nodup
  range : ∀ number ∈ numbers, number ≠ 0 ∧ number ≤ greatest

/-- Whether numbers are those from 1 to a greatest one, each once and in any order. -/
def Complete (greatest : UInt32) (numbers : List UInt32) : Prop :=
  (numbers.map UInt32.toNat).Perm (List.range' 1 greatest.toNat)

namespace Fresh

variable {greatest : UInt32} {numbers : List UInt32}

theorem nil (greatest : UInt32) : Fresh greatest [] :=
  ⟨.nil, nofun⟩

theorem concat_iff {number : UInt32} :
    Fresh greatest (numbers ++ [number]) ↔
      Fresh greatest numbers ∧ (number ≠ 0 ∧ number ≤ greatest) ∧ number ∉ numbers := by
  constructor
  · rintro ⟨nodup, range⟩
    rw [List.nodup_append] at nodup
    obtain ⟨nodup, -, apart⟩ := nodup
    refine ⟨⟨nodup, fun other member => range other (List.mem_append_left _ member)⟩,
      range number (List.mem_append_right _ (List.mem_singleton.mpr rfl)), fun member => ?_⟩
    exact apart number member number (List.mem_singleton.mpr rfl) rfl
  · rintro ⟨⟨nodup, range⟩, own, other⟩
    refine ⟨List.nodup_append.mpr ⟨nodup, List.nodup_singleton number, ?_⟩, ?_⟩
    · rintro _ member _ last rfl
      exact other (List.mem_singleton.mp last ▸ member)
    · intro found member
      rcases List.mem_append.mp member with member | last
      · exact range found member
      · exact List.mem_singleton.mp last ▸ own

theorem subperm (h : Fresh greatest numbers) :
    (numbers.map UInt32.toNat).Subperm (List.range' 1 greatest.toNat) := by
  have nodup : (numbers.map UInt32.toNat).Nodup := h.nodup.map fun _ _ => UInt32.toNat_inj.mp
  refine List.subperm_of_subset nodup fun place member => ?_
  obtain ⟨number, found, rfl⟩ := List.mem_map.mp member
  obtain ⟨positive, small⟩ := h.range number found
  have : number.toNat ≠ 0 := fun zero => positive (UInt32.toNat_inj.mp zero)
  have := UInt32.le_iff_toNat_le.mp small
  rw [List.mem_range'_1]
  omega

theorem length_le (h : Fresh greatest numbers) : numbers.length ≤ greatest.toNat := by
  simpa using h.subperm.length_le

/-- Different numbers are all numbers if there are enough of them. -/
theorem complete_iff (h : Fresh greatest numbers) :
    Complete greatest numbers ↔ numbers.length = greatest.toNat := by
  refine ⟨fun all => by simpa using all.length_eq, fun length => ?_⟩
  refine h.subperm.perm_of_length_le ?_
  simp [length]

end Fresh

theorem Complete.fresh {greatest : UInt32} {numbers : List UInt32}
    (h : Complete greatest numbers) : Fresh greatest numbers := by
  refine ⟨.of_map UInt32.toNat (h.nodup_iff.mpr List.nodup_range'), fun number member => ?_⟩
  have inside := h.subset (List.mem_map_of_mem member)
  rw [List.mem_range'_1] at inside
  refine ⟨?_, UInt32.le_iff_toNat_le.mpr (by omega)⟩
  rintro rfl
  simp at inside

/-! ## Classes -/

inductive Member
  | field (header : FieldHeader)
  | method (header : MethodHeader)
  | localName (name : String) (slot : UInt32)
deriving DecidableEq, Repr

namespace Member

def record : Member → MetaRecord
  | field header => .field header
  | method header => .method header
  | localName name slot => .localName name slot

def field? : Member → Option FieldHeader
  | field header => some header
  | _ => none

/-- The names of locals that stand before all methods, and the methods, each with the names that
stand between it and the next one. -/
def outline : List Member → List LocalInfo × List MethodInfo
  | [] => ([], [])
  | field _ :: rest => outline rest
  | method header :: rest => ([], ⟨header, (outline rest).1.toArray⟩ :: (outline rest).2)
  | localName name slot :: rest => (⟨name, slot⟩ :: (outline rest).1, (outline rest).2)

def fields (members : List Member) : List FieldHeader :=
  members.filterMap field?

def methods (members : List Member) : List MethodInfo :=
  (outline members).2

def fieldNumbers (isStatic : Bool) (members : List Member) : List UInt32 :=
  ((fields members).filter (·.isStatic == isStatic)).map (·.number)

def methodNumbers (members : List Member) : List UInt32 :=
  (methods members).map (·.header.number)

theorem length_fieldNumbers_le (isStatic : Bool) (members : List Member) :
    (fieldNumbers isStatic members).length ≤ members.length := by
  unfold fieldNumbers
  rw [List.length_map]
  exact Nat.le_trans (List.length_filter_le _ _) (List.length_filterMap_le _ _)

def count (members : List Member) : Nat :=
  (fields members).length + (methods members).length

variable {members : List Member}

theorem fields_concat (member : Member) :
    fields (members ++ [member]) = fields members ++ member.field?.toList := by
  unfold fields
  rw [List.filterMap_append]
  cases member <;> rfl

@[simp] theorem fields_concat_field (header : FieldHeader) :
    fields (members ++ [field header]) = fields members ++ [header] :=
  fields_concat _

@[simp] theorem fields_concat_method (header : MethodHeader) :
    fields (members ++ [method header]) = fields members :=
  (fields_concat _).trans (List.append_nil _)

@[simp] theorem fields_concat_local (name : String) (slot : UInt32) :
    fields (members ++ [localName name slot]) = fields members :=
  (fields_concat _).trans (List.append_nil _)

theorem outline_concat_field (header : FieldHeader) :
    outline (members ++ [field header]) = outline members := by
  induction members with
  | nil => rfl
  | cons member rest ih => cases member <;> simp [outline, ih]

theorem outline_concat_method (header : MethodHeader) :
    outline (members ++ [method header]) =
      ((outline members).1, (outline members).2 ++ [⟨header, #[]⟩]) := by
  induction members with
  | nil => rfl
  | cons member rest ih => cases member <;> simp [outline, ih]

/-- A name belongs to the last method, if there is one. -/
theorem outline_concat_local (name : String) (slot : UInt32) :
    outline (members ++ [localName name slot]) =
      if (outline members).2.isEmpty then ((outline members).1 ++ [⟨name, slot⟩], [])
      else ((outline members).1, (outline members).2.modify ((outline members).2.length - 1)
        fun method => { method with locals := method.locals.push ⟨name, slot⟩ }) := by
  induction members with
  | nil => rfl
  | cons member rest ih =>
      cases member with
      | field => exact ih
      | localName =>
          simp only [List.cons_append, outline, ih]
          by_cases none : (outline rest).2.isEmpty = true <;>
            simp only [none, if_true, if_false, Bool.false_eq_true]
      | method header =>
          simp only [List.cons_append, outline, ih]
          cases (outline rest).2 <;> simp

@[simp] theorem methods_concat_field (header : FieldHeader) :
    methods (members ++ [field header]) = methods members :=
  congrArg Prod.snd (outline_concat_field header)

@[simp] theorem methods_concat_method (header : MethodHeader) :
    methods (members ++ [method header]) = methods members ++ [⟨header, #[]⟩] :=
  congrArg Prod.snd (outline_concat_method header)

@[simp] theorem methods_concat_local (name : String) (slot : UInt32) :
    methods (members ++ [localName name slot]) =
      (methods members).modify ((methods members).length - 1) fun method =>
        { method with locals := method.locals.push ⟨name, slot⟩ } := by
  unfold methods
  rw [outline_concat_local]
  cases (outline members).2 <;> rfl

theorem count_concat_field (header : FieldHeader) :
    count (members ++ [field header]) = count members + 1 := by
  rw [count, fields_concat_field, methods_concat_field, List.length_append, List.length_singleton,
    count]
  omega

theorem count_concat_method (header : MethodHeader) :
    count (members ++ [method header]) = count members + 1 := by
  rw [count, fields_concat_method, methods_concat_method, List.length_append,
    List.length_singleton, count]
  omega

theorem count_concat_local (name : String) (slot : UInt32) :
    count (members ++ [localName name slot]) = count members := by
  rw [count, fields_concat_local, methods_concat_local, List.length_modify, count]

end Member

namespace ClassHeader

open Member

variable {header : ClassHeader} {members : List Member} {member : Member}

/-- What a class shows of its header and its members. -/
def info (header : ClassHeader) (members : List Member) : ClassInfo where
  name := header.name
  parent := if header.parent.isEmpty then none else some header.parent
  kind := header.kind
  staticFieldCount := header.staticFieldCount
  instanceFieldCount := header.instanceFieldCount
  fields := (fields members).toArray
  methods := (methods members).toArray

def fieldCount (header : ClassHeader) (isStatic : Bool) : UInt32 :=
  if isStatic then header.staticFieldCount else header.instanceFieldCount

def declared (header : ClassHeader) : Nat :=
  header.staticFieldCount.toNat + header.instanceFieldCount.toNat + header.methodCount.toNat

/-- Whether members have different numbers, as far as a header lets them, and the names of locals
stand behind methods. -/
structure Fits (header : ClassHeader) (members : List Member) : Prop where
  fields : ∀ isStatic, Fresh (header.fieldCount isStatic) (fieldNumbers isStatic members)
  methods : Fresh header.methodCount (methodNumbers members)
  locals : (outline members).1 = []

/-- Whether the members of a class are those that its header declares. -/
structure Completes (header : ClassHeader) (members : List Member) : Prop where
  fields : ∀ isStatic, Complete (header.fieldCount isStatic) (fieldNumbers isStatic members)
  methods : Complete header.methodCount (methodNumbers members)
  locals : (outline members).1 = []

/-- Whether the members of a class are as many as its header declares if counted in 32 bits. -/
structure Closes (header : ClassHeader) (members : List Member) : Prop extends
    header.Fits members where
  count : count members = header.declared % UInt32.size

theorem length_fields (members : List Member) :
    (Member.fields members).length =
      (fieldNumbers true members).length + (fieldNumbers false members).length := by
  unfold fieldNumbers
  rw [List.length_map, List.length_map,
    List.length_eq_length_filter_add (·.isStatic) (l := Member.fields members)]
  congr 3
  · funext field
    cases field.isStatic <;> rfl
  · funext field
    cases field.isStatic <;> rfl

theorem count_eq (members : List Member) :
    count members = (fieldNumbers true members).length + (fieldNumbers false members).length +
      (methodNumbers members).length := by
  rw [count, length_fields, methodNumbers, List.length_map]

/-- If the counts of a header stay in 32 bits its class is complete exactly with all its members. -/
theorem closes_iff_completes (small : header.declared < UInt32.size) :
    header.Closes members ↔ header.Completes members := by
  have declared : header.declared = (header.fieldCount true).toNat +
    (header.fieldCount false).toNat + header.methodCount.toNat := rfl
  constructor
  · rintro ⟨⟨fields, methods, locals⟩, enough⟩
    rw [Nat.mod_eq_of_lt small, count_eq] at enough
    -- No kind can have more members than the header declares, so that none has fewer.
    have statics := (fields true).length_le
    have others := (fields false).length_le
    have below := methods.length_le
    refine ⟨fun isStatic => (fields isStatic).complete_iff.mpr ?_,
      methods.complete_iff.mpr (by omega), locals⟩
    cases isStatic <;> omega
  · rintro ⟨fields, methods, locals⟩
    refine ⟨⟨fun isStatic => (fields isStatic).fresh, methods.fresh, locals⟩, ?_⟩
    rw [Nat.mod_eq_of_lt small, count_eq, declared,
      (fields true).fresh.complete_iff.mp (fields true),
      (fields false).fresh.complete_iff.mp (fields false),
      methods.fresh.complete_iff.mp methods]

/-! ## Reading a class -/

def draft (header : ClassHeader) (members : List Member) : ClassDraft :=
  ⟨header.info members, header.methodCount⟩

theorem draft_concat_field (field : FieldHeader) :
    header.draft (members ++ [.field field]) =
      { header.draft members with info := { header.info members with
        fields := (header.info members).fields.push field } } := by
  simp [draft, info]

theorem draft_concat_method (method : MethodHeader) :
    header.draft (members ++ [.method method]) =
      { header.draft members with info := { header.info members with
        methods := (header.info members).methods.push ⟨method, #[]⟩ } } := by
  simp [draft, info]

theorem draft_concat_local (name : String) (slot : UInt32) :
    header.draft (members ++ [.localName name slot]) =
      (header.draft members).addLocal name slot := by
  simp [draft, info, ClassDraft.addLocal]

theorem addField_eq_ok_iff {field : FieldHeader} {next : ClassDraft} :
    (header.draft members).addField field = .ok next ↔
      (field.number ≠ 0 ∧ field.number ≤ header.fieldCount field.isStatic) ∧
        field.number ∉ fieldNumbers field.isStatic members ∧
        next = header.draft (members ++ [.field field]) := by
  have greatest : (if field.isStatic then (header.draft members).info.staticFieldCount
      else (header.draft members).info.instanceFieldCount) =
      header.fieldCount field.isStatic := rfl
  have taken : (((header.draft members).info.fields.any fun other =>
      other.isStatic == field.isStatic && other.number == field.number) = true) ↔
      field.number ∈ fieldNumbers field.isStatic members := by
    change ((Member.fields members).toArray.any _ = true) ↔ _
    simp [fieldNumbers, and_assoc]
  unfold ClassDraft.addField
  dsimp only
  rw [greatest, draft_concat_field]
  by_cases inside : field.number = 0 ∨ header.fieldCount field.isStatic < field.number
  · rw [if_pos inside]
    refine ⟨nofun, fun ⟨⟨positive, small⟩, _⟩ => ?_⟩
    rcases inside with zero | large
    · exact absurd zero positive
    · exact absurd small (UInt32.not_le.mpr large)
  · rw [if_neg inside]
    obtain ⟨positive, small⟩ := not_or.mp inside
    by_cases found : field.number ∈ fieldNumbers field.isStatic members
    · rw [if_pos (taken.mpr found)]
      exact ⟨nofun, fun ⟨_, other, _⟩ => absurd found other⟩
    · rw [if_neg (taken.not.mpr found), Except.ok.injEq]
      exact ⟨fun same => ⟨⟨positive, UInt32.not_lt.mp small⟩, found, same.symm⟩,
        fun ⟨_, _, same⟩ => same.symm⟩

theorem addMethod_eq_ok_iff {method : MethodHeader} {next : ClassDraft} :
    (header.draft members).addMethod method = .ok next ↔
      (method.number ≠ 0 ∧ method.number ≤ header.methodCount) ∧
        method.number ∉ methodNumbers members ∧
        next = header.draft (members ++ [.method method]) := by
  have taken : (((header.draft members).info.methods.any fun other =>
      other.header.number == method.number) = true) ↔
      method.number ∈ methodNumbers members := by
    change ((Member.methods members).toArray.any _ = true) ↔ _
    simp [methodNumbers]
  unfold ClassDraft.addMethod
  rw [draft_concat_method]
  change (if method.number = 0 ∨ header.methodCount < method.number then _ else _) = _ ↔ _
  by_cases inside : method.number = 0 ∨ header.methodCount < method.number
  · rw [if_pos inside]
    refine ⟨nofun, fun ⟨⟨positive, small⟩, _⟩ => ?_⟩
    rcases inside with zero | large
    · exact absurd zero positive
    · exact absurd small (UInt32.not_le.mpr large)
  · rw [if_neg inside]
    obtain ⟨positive, small⟩ := not_or.mp inside
    by_cases found : method.number ∈ methodNumbers members
    · rw [if_pos (taken.mpr found)]
      exact ⟨nofun, fun ⟨_, other, _⟩ => absurd found other⟩
    · rw [if_neg (taken.not.mpr found), Except.ok.injEq]
      exact ⟨fun same => ⟨⟨positive, UInt32.not_lt.mp small⟩, found, same.symm⟩,
        fun ⟨_, _, same⟩ => same.symm⟩

theorem remaining_eq_zero_iff (fits : count members ≤ header.declared % UInt32.size) :
    (header.draft members).remaining = 0 ↔ count members = header.declared % UInt32.size := by
  have seen : (header.draft members).info.fields.size + (header.draft members).info.methods.size =
      count members := by
    simp [draft, info, count]
  unfold ClassDraft.remaining
  change UInt32.ofNat (header.declared - _) = 0 ↔ _
  rw [seen, ← UInt32.toNat_inj, UInt32.toNat_ofNat']
  change (header.declared - count members) % UInt32.size = 0 ↔ _
  unfold UInt32.size at fits ⊢
  omega

/-- Whether members are the first ones of a class. -/
structure Opens (header : ClassHeader) (members : List Member) : Prop extends
    header.Fits members where
  count : count members ≤ header.declared % UInt32.size

theorem opens_nil (header : ClassHeader) : header.Opens [] :=
  ⟨⟨fun _ => .nil _, .nil _, rfl⟩, Nat.zero_le _⟩

theorem fits_concat_field {field : FieldHeader} :
    header.Fits (members ++ [.field field]) ↔ header.Fits members ∧
      (field.number ≠ 0 ∧ field.number ≤ header.fieldCount field.isStatic) ∧
      field.number ∉ fieldNumbers field.isStatic members := by
  have own : fieldNumbers field.isStatic (members ++ [.field field]) =
      fieldNumbers field.isStatic members ++ [field.number] := by
    simp [fieldNumbers]
  have other {isStatic : Bool} (apart : isStatic ≠ field.isStatic) :
      fieldNumbers isStatic (members ++ [.field field]) = fieldNumbers isStatic members := by
    simp [fieldNumbers, apart.symm]
  have methods : methodNumbers (members ++ [.field field]) = methodNumbers members := by
    simp [methodNumbers]
  constructor
  · rintro ⟨fields, fresh, locals⟩
    obtain ⟨before, range, apart⟩ := Fresh.concat_iff.mp (own ▸ fields field.isStatic)
    refine ⟨⟨fun isStatic => ?_, methods ▸ fresh, outline_concat_field field ▸ locals⟩, range,
      apart⟩
    by_cases same : isStatic = field.isStatic
    · exact same ▸ before
    · exact other same ▸ fields isStatic
  · rintro ⟨⟨fields, fresh, locals⟩, range, apart⟩
    refine ⟨fun isStatic => ?_, methods.symm ▸ fresh, (outline_concat_field field).symm ▸ locals⟩
    by_cases same : isStatic = field.isStatic
    · rw [same, own]
      exact Fresh.concat_iff.mpr ⟨fields _, range, apart⟩
    · exact (other same).symm ▸ fields isStatic

theorem fits_concat_method {method : MethodHeader} :
    header.Fits (members ++ [.method method]) ↔ header.Fits members ∧
      (method.number ≠ 0 ∧ method.number ≤ header.methodCount) ∧
      method.number ∉ methodNumbers members := by
  have own : methodNumbers (members ++ [.method method]) =
      methodNumbers members ++ [method.number] := by
    simp [methodNumbers]
  have fields (isStatic : Bool) :
      fieldNumbers isStatic (members ++ [.method method]) = fieldNumbers isStatic members := by
    simp [fieldNumbers]
  have locals : (outline (members ++ [.method method])).1 = (outline members).1 := by
    rw [outline_concat_method]
  constructor
  · rintro ⟨fresh, methods, none⟩
    obtain ⟨before, range, apart⟩ := Fresh.concat_iff.mp (own ▸ methods)
    exact ⟨⟨fun isStatic => fields isStatic ▸ fresh isStatic, before, locals ▸ none⟩, range, apart⟩
  · rintro ⟨⟨fresh, methods, none⟩, range, apart⟩
    exact ⟨fun isStatic => (fields isStatic).symm ▸ fresh isStatic,
      own ▸ Fresh.concat_iff.mpr ⟨methods, range, apart⟩, locals.symm ▸ none⟩

theorem fits_concat_local {name : String} {slot : UInt32} :
    header.Fits (members ++ [.localName name slot]) ↔
      header.Fits members ∧ Member.methods members ≠ [] := by
  have numbers : methodNumbers (members ++ [.localName name slot]) = methodNumbers members := by
    unfold methodNumbers
    rw [methods_concat_local]
    refine List.ext_getElem? fun place => ?_
    rw [List.getElem?_map, List.getElem?_modify, List.getElem?_map]
    cases (Member.methods members)[place]? with
    | none => rfl
    | some method => by_cases last : (Member.methods members).length - 1 = place <;> simp [last]
  have fields (isStatic : Bool) :
      fieldNumbers isStatic (members ++ [.localName name slot]) =
        fieldNumbers isStatic members := by
    simp [fieldNumbers]
  have locals : (outline (members ++ [.localName name slot])).1 = [] ↔
      (outline members).1 = [] ∧ Member.methods members ≠ [] := by
    rw [outline_concat_local, Member.methods]
    cases (outline members).2 <;> simp
  constructor
  · rintro ⟨fresh, methods, none⟩
    obtain ⟨none, some⟩ := locals.mp none
    exact ⟨⟨fun isStatic => fields isStatic ▸ fresh isStatic, numbers ▸ methods, none⟩, some⟩
  · rintro ⟨⟨fresh, methods, none⟩, some⟩
    exact ⟨fun isStatic => (fields isStatic).symm ▸ fresh isStatic, numbers.symm ▸ methods,
      locals.mpr ⟨none, some⟩⟩

theorem Fits.of_append {more : List Member} (h : header.Fits (members ++ more)) :
    header.Fits members ∧ count members ≤ count (members ++ more) := by
  induction more using List.reverseRecOn with
  | nil => exact ⟨List.append_nil members ▸ h, Nat.le_of_eq (by rw [List.append_nil])⟩
  | append_singleton more last ih =>
      rw [← List.append_assoc] at h ⊢
      suffices header.Fits (members ++ more) ∧
          count (members ++ more) ≤ count (members ++ more ++ [last]) by
        obtain ⟨fits, le⟩ := ih this.1
        exact ⟨fits, Nat.le_trans le this.2⟩
      cases last with
      | field => exact ⟨(fits_concat_field.mp h).1, by rw [count_concat_field]; omega⟩
      | method => exact ⟨(fits_concat_method.mp h).1, by rw [count_concat_method]; omega⟩
      | localName => exact ⟨(fits_concat_local.mp h).1, Nat.le_of_eq (count_concat_local _ _).symm⟩

theorem Closes.opens {more : List Member} (h : header.Closes (members ++ more)) :
    header.Opens members := by
  obtain ⟨fits, le⟩ := h.toFits.of_append
  exact ⟨fits, Nat.le_trans le (Nat.le_of_eq h.count)⟩

/-- A member with a number is taken in if there are some to come, and its number fits. -/
theorem accept_counted (opens : header.Opens members) {result : Except UnitError ClassDraft}
    (accepts : (header.draft members).accept member.record =
      if (header.draft members).remaining = 0 then .ok none else some <$> result)
    (count : Member.count (members ++ [member]) = Member.count members + 1)
    (added : ∀ next, result = .ok next ↔
      header.Fits (members ++ [member]) ∧ next = header.draft (members ++ [member]))
    {next : ClassDraft} :
    (header.draft members).accept member.record = .ok (some next) ↔
      header.Opens (members ++ [member]) ∧ next = header.draft (members ++ [member]) := by
  obtain ⟨-, few⟩ := opens
  have closed := remaining_eq_zero_iff few
  rw [accepts]
  by_cases full : (header.draft members).remaining = 0
  · rw [if_pos full]
    refine ⟨nofun, fun ⟨⟨_, enough⟩, _⟩ => ?_⟩
    have := closed.mp full
    omega
  · have room := closed.not.mp full
    rw [if_neg full]
    have same : some <$> result = .ok (some next) ↔ result = .ok next := by
      cases result with
      | error => exact ⟨nofun, nofun⟩
      | ok found => exact ⟨fun same => by cases same; rfl, fun same => by cases same; rfl⟩
    rw [same, added]
    constructor
    · rintro ⟨fits, rfl⟩
      exact ⟨⟨fits, by omega⟩, rfl⟩
    · rintro ⟨⟨fits, -⟩, rfl⟩
      exact ⟨fits, rfl⟩

/-- A record is taken into a class exactly if it can be one of its members. -/
theorem accept_eq_some_iff (opens : header.Opens members) {next : ClassDraft} :
    (header.draft members).accept member.record = .ok (some next) ↔
      header.Opens (members ++ [member]) ∧ next = header.draft (members ++ [member]) := by
  have fits := opens.toFits
  cases member with
  | field field =>
      refine accept_counted opens rfl (count_concat_field field) fun next => ?_
      rw [addField_eq_ok_iff, fits_concat_field]
      exact ⟨fun ⟨range, apart, same⟩ => ⟨⟨fits, range, apart⟩, same⟩,
        fun ⟨⟨_, range, apart⟩, same⟩ => ⟨range, apart, same⟩⟩
  | method method =>
      refine accept_counted opens rfl (count_concat_method method) fun next => ?_
      rw [addMethod_eq_ok_iff, fits_concat_method]
      exact ⟨fun ⟨range, apart, same⟩ => ⟨⟨fits, range, apart⟩, same⟩,
        fun ⟨⟨_, range, apart⟩, same⟩ => ⟨range, apart, same⟩⟩
  | localName name slot =>
      have count : Member.count (members ++ [.localName name slot]) = Member.count members :=
        count_concat_local name slot
      have few := opens.count
      rw [draft_concat_local]
      cases some : Member.methods members with
      | nil =>
          have accepts : (header.draft members).accept (Member.localName name slot).record =
              .error (.unexpectedRecord (MetaRecord.localName name slot).kindName) :=
            if_pos (by simp [draft, info, some])
          rw [accepts]
          refine ⟨nofun, fun ⟨⟨fits, _⟩, _⟩ => ?_⟩
          exact absurd some (fits_concat_local.mp fits).2
      | cons =>
          have accepts : (header.draft members).accept (Member.localName name slot).record =
              .ok (Option.some ((header.draft members).addLocal name slot)) :=
            if_neg (by simp [draft, info, some])
          rw [accepts]
          refine ⟨fun same => ?_, ?_⟩
          · cases same
            exact ⟨⟨fits_concat_local.mpr ⟨fits, by rw [some]; nofun⟩, by omega⟩, rfl⟩
          · rintro ⟨-, rfl⟩
            rfl

theorem exists_member_of_accept {record : MetaRecord} {next : ClassDraft}
    (h : (header.draft members).accept record = .ok (some next)) :
    ∃ member : Member, record = member.record := by
  unfold ClassDraft.accept at h
  split at h
  · exact ⟨.localName _ _, rfl⟩
  · split at h
    · cases h
    · split at h
      · exact ⟨.field _, rfl⟩
      · exact ⟨.method _, rfl⟩
      · cases h

/-- A record ends the body of a class exactly if the class is complete. -/
theorem accept_eq_none_iff (opens : header.Opens members) {record : MetaRecord} :
    (header.draft members).accept record = .ok none ↔
      (∀ name slot, record ≠ .localName name slot) ∧ header.Closes members := by
  have closed := remaining_eq_zero_iff opens.count
  have closes : header.Closes members ↔ (header.draft members).remaining = 0 :=
    ⟨fun closes => closed.mpr closes.count, fun full => ⟨opens.toFits, closed.mp full⟩⟩
  rw [closes]
  unfold ClassDraft.accept
  split
  · next name slot =>
      refine ⟨fun same => ?_, fun ⟨other, _⟩ => absurd rfl (other name slot)⟩
      split at same <;> cases same
  · next other =>
      by_cases full : (header.draft members).remaining = 0
      · rw [if_pos full]
        exact ⟨fun _ => ⟨other, full⟩, fun _ => rfl⟩
      · rw [if_neg full]
        refine ⟨fun same => ?_, fun ⟨_, done⟩ => absurd done full⟩
        split at same
        · cases added : (header.draft members).addField _ with
          | error => rw [added] at same; cases same
          | ok => rw [added] at same; cases same
        · cases added : (header.draft members).addMethod _ with
          | error => rw [added] at same; cases same
          | ok => rw [added] at same; cases same
        · cases same

end ClassHeader

end ObjectMachine
