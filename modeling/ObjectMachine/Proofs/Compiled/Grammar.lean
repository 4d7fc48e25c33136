import ObjectMachine.Proofs.Compiled.Members

/-!
# The grammar of metadata

The records of a unit are a header, declarations in any order and an end. A class is declared by its
header with the records of its members behind it. The view shows what the declarations say, and says
it in the order of the declarations or, for the reference tables, in that of the numbers.
-/

namespace ObjectMachine

/-! ## Reference tables -/

/-- Whether a table lists entries by their numbers, which are all those of the table. -/
structure Fills (size : UInt32) (entries : List (UInt32 × α)) (table : List α) : Prop where
  numbers : Complete size (entries.map (·.1))
  length : table.length = size.toNat
  lists : ∀ number entry, (number, entry) ∈ entries → table[number.toNat - 1]? = some entry

namespace Numbered

variable {numbered : Numbered α} {table : NumberedTable} {number : UInt32} {entry : α}

def put (numbered : Numbered α) (number : UInt32) (entry : α) : Numbered α :=
  { numbered with entries := (number, entry) :: numbered.entries }

def found (numbered : Numbered α) : List (UInt32 × α) :=
  numbered.entries.reverse

/-- Whether the numbers that have been found are different ones of a table. -/
def Sound (numbered : Numbered α) : Prop :=
  Fresh numbered.size (numbered.found.map (·.1))

theorem found_put : (numbered.put number entry).found = numbered.found ++ [(number, entry)] :=
  List.reverse_cons

theorem sound_put_iff : (numbered.put number entry).Sound ↔
    numbered.Sound ∧ (number ≠ 0 ∧ number ≤ numbered.size) ∧
      number ∉ numbered.found.map (·.1) := by
  unfold Sound
  rw [found_put, List.map_append]
  exact Fresh.concat_iff

theorem lookup_isSome_iff :
    (numbered.entries.lookup number).isSome ↔ number ∈ numbered.found.map (·.1) := by
  rw [List.lookup_isSome_iff]
  simp [found]

theorem insert_eq_ok_iff (sound : numbered.Sound) {next : Numbered α} :
    numbered.insert table number entry = .ok next ↔
      (numbered.put number entry).Sound ∧ next = numbered.put number entry := by
  rw [sound_put_iff]
  unfold insert
  by_cases inside : number = 0 ∨ numbered.size < number
  · rw [if_pos inside]
    refine ⟨nofun, fun ⟨⟨_, ⟨positive, small⟩, _⟩, _⟩ => ?_⟩
    rcases inside with zero | large
    · exact absurd zero positive
    · exact absurd small (UInt32.not_le.mpr large)
  · rw [if_neg inside]
    obtain ⟨positive, small⟩ := not_or.mp inside
    by_cases there : number ∈ numbered.found.map (·.1)
    · rw [if_pos (lookup_isSome_iff.mpr there)]
      exact ⟨nofun, fun ⟨⟨_, _, apart⟩, _⟩ => absurd there apart⟩
    · rw [if_neg (lookup_isSome_iff.not.mpr there), Except.ok.injEq]
      exact ⟨fun same => ⟨⟨sound, ⟨positive, UInt32.not_lt.mp small⟩, there⟩, same.symm⟩,
        fun ⟨_, same⟩ => same.symm⟩

theorem collect_eq_ok_iff {entries : List (UInt32 × α)} {count first : Nat} {before list : List α} :
    collect table entries count first before = .ok list ↔
      ∃ values, list = before.reverse ++ values ∧ values.length = count ∧
        ∀ place < count, entries.lookup (UInt32.ofNat (first + place)) = values[place]? := by
  induction count generalizing first before with
  | zero =>
      constructor
      · intro h
        cases h
        exact ⟨[], (List.append_nil _).symm, rfl, nofun⟩
      · rintro ⟨values, rfl, none, -⟩
        rw [List.length_eq_zero_iff.mp none, List.append_nil]
        rfl
  | succ count ih =>
      unfold collect
      cases here : entries.lookup (UInt32.ofNat first) with
      | none =>
          refine ⟨nofun, fun ⟨values, _, length, listed⟩ => ?_⟩
          have first := listed 0 (Nat.succ_pos _)
          rw [Nat.add_zero, here, eq_comm, List.getElem?_eq_none_iff] at first
          omega
      | some entry =>
          dsimp only
          rw [ih]
          constructor
          · rintro ⟨values, rfl, length, listed⟩
            refine ⟨entry :: values, by simp, by simp [length], fun place inside => ?_⟩
            cases place with
            | zero => exact here
            | succ place =>
                rw [List.getElem?_cons_succ, ← listed place (Nat.lt_of_succ_lt_succ inside)]
                congr 2
                omega
          · rintro ⟨values, rfl, length, listed⟩
            cases values with
            | nil => cases length
            | cons value values =>
                obtain rfl : entry = value :=
                  Option.some.inj (here.symm.trans (listed 0 (Nat.succ_pos _)))
                refine ⟨values, by simp, Nat.succ.inj length, fun place inside => ?_⟩
                rw [← List.getElem?_cons_succ, ← listed _ (Nat.succ_lt_succ inside)]
                congr 2
                omega

theorem lookup_eq_some_iff (sound : numbered.Sound) :
    numbered.entries.lookup number = some entry ↔ (number, entry) ∈ numbered.found := by
  have different : (numbered.entries.map (·.1)).Nodup := by
    have nodup := sound.nodup
    unfold found at nodup
    rwa [List.map_reverse, List.nodup_reverse] at nodup
  rw [List.lookup_eq_some_iff, found, List.mem_reverse]
  constructor
  · rintro ⟨before, after, all, -⟩
    rw [all]
    exact List.mem_append_right _ List.mem_cons_self
  · intro member
    obtain ⟨before, after, all⟩ := List.append_of_mem member
    refine ⟨before, after, all, fun other earlier => ?_⟩
    rw [all, List.map_append, List.nodup_append] at different
    have apart := different.2.2 other.1 (List.mem_map_of_mem earlier) number List.mem_cons_self
    simpa using apart.symm

theorem toList_eq_ok_iff (sound : numbered.Sound) {list : List α} :
    numbered.toList table = .ok list ↔ Fills numbered.size numbered.found list := by
  have position {place : Nat} (inside : place < numbered.size.toNat) :
      (UInt32.ofNat (1 + place)).toNat = 1 + place := by
    have := numbered.size.toNat_lt
    exact UInt32.toNat_ofNat_of_lt' (by change _ < 2 ^ 32; omega)
  unfold toList
  rw [collect_eq_ok_iff]
  constructor
  · rintro ⟨values, rfl, length, listed⟩
    have all : numbered.size.toNat ≤ (numbered.found.map (·.1)).length := by
      have inside : List.range' 1 numbered.size.toNat ⊆
          (numbered.found.map (·.1)).map UInt32.toNat := by
        intro number member
        rw [List.mem_range'_1] at member
        obtain ⟨place, rfl⟩ := Nat.exists_eq_add_of_le member.1
        have small : place < numbered.size.toNat := by omega
        have there := listed place small
        rw [List.getElem?_eq_getElem (by omega)] at there
        refine List.mem_map.mpr ⟨_, ?_, position small⟩
        exact lookup_isSome_iff.mp (Option.isSome_iff_exists.mpr ⟨_, there⟩)
      simpa using (List.subperm_of_subset List.nodup_range' inside).length_le
    refine ⟨sound.complete_iff.mpr (Nat.le_antisymm sound.length_le all), length,
      fun number entry member => ?_⟩
    obtain ⟨positive, small⟩ := sound.range number (List.mem_map_of_mem member)
    have nonzero : number.toNat ≠ 0 := fun zero => positive (UInt32.toNat_inj.mp zero)
    have small := UInt32.le_iff_toNat_le.mp small
    rw [← listed (number.toNat - 1) (by omega), Nat.add_sub_cancel' (by omega), UInt32.ofNat_toNat]
    exact (lookup_eq_some_iff sound).mpr member
  · rintro ⟨numbers, length, lists⟩
    refine ⟨list, rfl, length, fun place inside => ?_⟩
    have member : 1 + place ∈ (numbered.found.map (·.1)).map UInt32.toNat :=
      numbers.symm.subset (List.mem_range'_1.mpr (by omega))
    obtain ⟨number, there, same⟩ := List.mem_map.mp member
    obtain ⟨⟨_, entry⟩, found, rfl⟩ := List.mem_map.mp there
    dsimp only at same
    have listed := lists _ entry found
    rw [same, Nat.add_sub_cancel_left] at listed
    rw [listed, ← same, UInt32.ofNat_toNat]
    exact (lookup_eq_some_iff sound).mpr found

end Numbered

theorem Fills.sound {numbered : Numbered α} {size : UInt32} {entries : List (UInt32 × α)}
    {table : List α} (h : Fills size entries table)
    (same : numbered.size = size ∧ numbered.found = entries) : numbered.Sound := by
  rw [Numbered.Sound, same.1, same.2]
  exact h.numbers.fresh

/-! ## Units -/

/-- What a unit declares by one record, or by those of a class. -/
inductive Declaration
  | use (moduleName : String)
  | enumeration (name : String) (members : List (String × Int32))
  | string (number : UInt32) (value : String) (short : Bool)
  | classRef (name : String) (number : UInt32)
  | fieldAccess (name : String) (number : UInt32)
  | methodCall (name : String) (arity : UInt16) (number : UInt32)
  | block (header : ClassHeader) (members : List Member)
deriving DecidableEq, Repr

namespace Declaration

def records : Declaration → List MetaRecord
  | use moduleName => [.use moduleName]
  | enumeration name members => [.enumeration name members]
  | string number value short => [.string number value short]
  | classRef name number => [.classRef name number]
  | fieldAccess name number => [.fieldAccess name number]
  | methodCall name arity number => [.methodCall name arity number]
  | block header members => .classHeader header :: members.map Member.record

def use? : Declaration → Option String
  | use moduleName => some moduleName
  | _ => none

def enumeration? : Declaration → Option EnumInfo
  | enumeration name members => some ⟨name, members⟩
  | _ => none

def string? : Declaration → Option (UInt32 × String)
  | string number value _ => some (number, value)
  | _ => none

def classRef? : Declaration → Option (UInt32 × String)
  | classRef name number => some (number, name)
  | _ => none

def fieldAccess? : Declaration → Option (UInt32 × String)
  | fieldAccess name number => some (number, name)
  | _ => none

def methodCall? : Declaration → Option (UInt32 × MethodRef)
  | methodCall name arity number => some (number, ⟨name, arity⟩)
  | _ => none

def class? : Declaration → Option ClassInfo
  | block header members => some (header.info members)
  | _ => none

theorem exists_single {declaration : Declaration} (plain : declaration.class? = none) :
    ∃ record, declaration.records = [record] := by
  cases declaration with
  | block => cases plain
  | _ => exact ⟨_, rfl⟩

end Declaration

/-- A unit's metadata as it is written: the header and the declarations behind it. -/
structure Listing where
  moduleName : String
  classRefs : UInt32
  fieldAccesses : UInt32
  methodCalls : UInt32
  strings : UInt32
  declarations : List Declaration
deriving DecidableEq, Repr

namespace Listing

def records (listing : Listing) : List MetaRecord :=
  .moduleHeader listing.moduleName listing.classRefs listing.fieldAccesses listing.methodCalls
      listing.strings ::
    (listing.declarations.flatMap Declaration.records ++ [.finish])

/-- Whether a view lists exactly what a unit declares. -/
structure Shows (listing : Listing) (view : Metadata) : Prop where
  moduleName : view.moduleName = listing.moduleName
  uses : view.uses.toList = listing.declarations.filterMap Declaration.use?
  enums : view.enums.toList = listing.declarations.filterMap Declaration.enumeration?
  classes : view.classes.toList = listing.declarations.filterMap Declaration.class?
  strings : Fills listing.strings (listing.declarations.filterMap Declaration.string?) view.strings
  classRefs : Fills listing.classRefs (listing.declarations.filterMap Declaration.classRef?)
    view.classRefs
  fieldAccesses : Fills listing.fieldAccesses
    (listing.declarations.filterMap Declaration.fieldAccess?) view.fieldAccesses
  methodCalls : Fills listing.methodCalls
    (listing.declarations.filterMap Declaration.methodCall?) view.methodCalls

def Completes (listing : Listing) : Prop :=
  ∀ header members, .block header members ∈ listing.declarations → header.Completes members

/-- Whether all classes of a unit are complete if counted in 32 bits. -/
def Closes (listing : Listing) : Prop :=
  ∀ header members, .block header members ∈ listing.declarations → header.Closes members

variable {listing : Listing} {header : ClassHeader}

theorem header_mem {members : List Member} (among : .block header members ∈ listing.declarations) :
    .classHeader header ∈ listing.records :=
  List.mem_cons_of_mem _ (List.mem_append_left _
    (List.mem_flatMap.mpr ⟨.block header members, among, List.mem_cons_self⟩))

/-- The header of a class stands before all its members. -/
theorem exists_block (member : .classHeader header ∈ listing.records) :
    ∃ members, .block header members ∈ listing.declarations ∧
      members.length < listing.records.length := by
  have inside : MetaRecord.classHeader header ∈
      listing.declarations.flatMap Declaration.records := by
    simpa [records] using member
  obtain ⟨declaration, among, found⟩ := List.mem_flatMap.mp inside
  cases declaration with
  | block header' members =>
      rcases List.mem_cons.mp found with same | found
      · cases same
        refine ⟨members, among, ?_⟩
        obtain ⟨before, after, all⟩ := List.append_of_mem among
        rw [records, all, List.flatMap_append, List.flatMap_cons, Declaration.records]
        simp only [List.length_cons, List.length_append, List.length_map]
        omega
      · obtain ⟨inner, -, same⟩ := List.mem_map.mp found
        cases inner <;> cases same
  | _ =>
      rw [Declaration.records, List.mem_singleton] at found
      cases found

end Listing

namespace MetadataDraft

open Declaration

variable {draft : MetadataDraft}

def declared (draft : MetadataDraft) : Declaration → MetadataDraft
  | .use moduleName => { draft with uses := draft.uses.push moduleName }
  | .enumeration name members => { draft with enums := draft.enums.push ⟨name, members⟩ }
  | .string number value _ => { draft with strings := draft.strings.put number value }
  | .classRef name number => { draft with classRefs := draft.classRefs.put number name }
  | .fieldAccess name number => { draft with fieldAccesses := draft.fieldAccesses.put number name }
  | .methodCall name arity number =>
    { draft with methodCalls := draft.methodCalls.put number ⟨name, arity⟩ }
  | .block header members => { draft with classes := draft.classes.push (header.info members) }

/-- Whether the reference tables have been given different numbers. -/
structure Sound (draft : MetadataDraft) : Prop where
  strings : draft.strings.Sound
  classRefs : draft.classRefs.Sound
  fieldAccesses : draft.fieldAccesses.Sound
  methodCalls : draft.methodCalls.Sound

/-- Whether records complete what has been read to a view. -/
def Reads (draft : MetadataDraft) (records : List MetaRecord) (view : Metadata) : Prop :=
  (do (← records.foldlM add draft).finish) = .ok view

theorem reads_nil {view : Metadata} : draft.Reads [] view ↔ draft.finish = .ok view :=
  Iff.rfl

theorem reads_cons {record : MetaRecord} {records : List MetaRecord} {view : Metadata} :
    draft.Reads (record :: records) view ↔
      ∃ next, draft.add record = .ok next ∧ next.Reads records view := by
  unfold Reads
  rw [List.foldlM_cons, bind_assoc, Except.bind_eq_ok_iff]

/-- Between declarations the next record begins one, or ends the unit. -/
theorem add_of_closed (draft : MetadataDraft) (idle : draft.openClass = none)
    (goesOn : draft.ended = false) (record : MetaRecord) :
    draft.add record = draft.declare record := by
  unfold add
  rw [idle, goesOn]
  rfl

/-- In a class the next record is a member if there is one missing. -/
theorem add_of_open (draft : MetadataDraft) (goesOn : draft.ended = false) (header : ClassHeader)
    (members : List Member) (record : MetaRecord) :
    add { draft with openClass := some (header.draft members) } record = (do
      match ← (header.draft members).accept record with
      | some openClass => pure { draft with openClass := some openClass }
      | none => declare { draft.declared (.block header members) with openClass := none } record) :=
  if_neg (by rw [goesOn]; nofun)

/-- In a class the next record is one of its members, or the first one behind it. -/
theorem reads_cons_of_open {header : ClassHeader} {members : List Member}
    (goesOn : draft.ended = false) {record : MetaRecord} {records : List MetaRecord}
    {view : Metadata} :
    { draft with openClass := some (header.draft members) }.Reads (record :: records) view ↔
      (∃ next, (header.draft members).accept record = .ok (some next) ∧
        { draft with openClass := some next }.Reads records view) ∨
      (header.draft members).accept record = .ok none ∧
        { draft.declared (.block header members) with openClass := none }.Reads
          (record :: records) view := by
  rw [reads_cons, reads_cons, add_of_open draft goesOn]
  cases (header.draft members).accept record with
  | error =>
      constructor
      · rintro ⟨_, failed, _⟩
        cases failed
      · rintro (⟨_, failed, _⟩ | ⟨failed, _⟩) <;> cases failed
  | ok accepted =>
      cases accepted with
      | some open' =>
          constructor
          · rintro ⟨next, same, reads⟩
            cases same
            exact .inl ⟨open', rfl, reads⟩
          · rintro (⟨next, same, reads⟩ | ⟨same, _⟩)
            · cases same
              exact ⟨_, rfl, reads⟩
            · cases same
      | none =>
          have closed := add_of_closed
            { draft.declared (.block header members) with openClass := none } rfl goesOn record
          constructor
          · rintro ⟨next, declares, reads⟩
            exact .inr ⟨rfl, next, closed.trans declares, reads⟩
          · rintro (⟨_, same, _⟩ | ⟨_, next, declares, reads⟩)
            · cases same
            · exact ⟨next, closed.symm.trans declares, reads⟩

/-- The rest of a class is the members that it is missing, and then what follows it. -/
theorem reads_of_open {header : ClassHeader} {members : List Member}
    (opens : header.Opens members) (goesOn : draft.ended = false) {records : List MetaRecord}
    {view : Metadata} :
    { draft with openClass := some (header.draft members) }.Reads records view ↔
      ∃ more rest, records = more.map Member.record ++ rest ∧ header.Closes (members ++ more) ∧
        { draft.declared (.block header (members ++ more)) with openClass := none }.Reads
          rest view := by
  induction records generalizing members with
  | nil =>
      refine ⟨nofun, ?_⟩
      rintro ⟨more, rest, empty, -, reads⟩
      obtain ⟨-, rfl⟩ := List.append_eq_nil_iff.mp empty.symm
      have finished : finish { draft.declared (.block header (members ++ more)) with
          openClass := none } = .error .missingEnd :=
        if_neg (by change draft.ended ≠ true; rw [goesOn]; nofun)
      rw [reads_nil, finished] at reads
      cases reads
  | cons record records ih =>
      rw [reads_cons_of_open goesOn]
      constructor
      · rintro (⟨next, accepts, reads⟩ | ⟨closes, reads⟩)
        · obtain ⟨member, rfl⟩ := ClassHeader.exists_member_of_accept accepts
          obtain ⟨opens, rfl⟩ := (ClassHeader.accept_eq_some_iff opens).mp accepts
          obtain ⟨more, rest, rfl, closes, reads⟩ := (ih opens).mp reads
          rw [List.append_assoc] at closes reads
          exact ⟨member :: more, rest, rfl, closes, reads⟩
        · obtain ⟨-, closes⟩ := (ClassHeader.accept_eq_none_iff opens).mp closes
          rw [← List.append_nil members] at closes reads
          exact ⟨[], record :: records, rfl, closes, reads⟩
      · rintro ⟨more, rest, all, closes, reads⟩
        cases more with
        | nil =>
            obtain rfl : rest = record :: records := all.symm
            rw [List.append_nil] at closes reads
            refine .inr ⟨(ClassHeader.accept_eq_none_iff opens).mpr ⟨?_, closes⟩, reads⟩
            rintro name slot rfl
            obtain ⟨next, added, -⟩ := reads_cons.mp reads
            rw [add_of_closed { draft.declared (.block header members) with openClass := none } rfl
              goesOn] at added
            cases added
        | cons member more =>
            obtain ⟨rfl, rfl⟩ := List.cons.inj all
            rw [← List.singleton_append, ← List.append_assoc] at closes reads
            have opened : header.Opens (members ++ [member]) := closes.opens
            exact .inl ⟨_, (ClassHeader.accept_eq_some_iff opens).mpr ⟨opened, rfl⟩,
              (ih opened).mpr ⟨more, rest, rfl, closes, reads⟩⟩

theorem declare_eq_ok (sound : draft.Sound) {record : MetaRecord} {next : MetadataDraft}
    (h : draft.declare record = .ok next) :
    (record = .finish ∧ next = { draft with ended := true }) ∨
      (∃ header, record = .classHeader header ∧
        next = { draft with openClass := some (header.draft []) }) ∨
      ∃ declaration : Declaration, declaration.records = [record] ∧ declaration.class? = none ∧
        next = draft.declared declaration ∧ next.Sound := by
  obtain ⟨strings, classRefs, fieldAccesses, methodCalls⟩ := sound
  cases record with
  | finish =>
      cases h
      exact .inl ⟨rfl, rfl⟩
  | classHeader header =>
      cases h
      exact .inr (.inl ⟨header, rfl, rfl⟩)
  | use moduleName =>
      cases h
      exact .inr (.inr ⟨.use moduleName, rfl, rfl, rfl, strings, classRefs, fieldAccesses,
        methodCalls⟩)
  | enumeration name members =>
      cases h
      exact .inr (.inr ⟨.enumeration name members, rfl, rfl, rfl, strings, classRefs, fieldAccesses,
        methodCalls⟩)
  | string number value short =>
      obtain ⟨table, inserted, same⟩ := Except.bind_eq_ok_iff.mp h
      cases same
      obtain ⟨more, rfl⟩ := (Numbered.insert_eq_ok_iff strings).mp inserted
      exact .inr (.inr ⟨.string number value short, rfl, rfl, rfl, more, classRefs, fieldAccesses,
        methodCalls⟩)
  | classRef name number =>
      obtain ⟨table, inserted, same⟩ := Except.bind_eq_ok_iff.mp h
      cases same
      obtain ⟨more, rfl⟩ := (Numbered.insert_eq_ok_iff classRefs).mp inserted
      exact .inr (.inr ⟨.classRef name number, rfl, rfl, rfl, strings, more, fieldAccesses,
        methodCalls⟩)
  | fieldAccess name number =>
      obtain ⟨table, inserted, same⟩ := Except.bind_eq_ok_iff.mp h
      cases same
      obtain ⟨more, rfl⟩ := (Numbered.insert_eq_ok_iff fieldAccesses).mp inserted
      exact .inr (.inr ⟨.fieldAccess name number, rfl, rfl, rfl, strings, classRefs, more,
        methodCalls⟩)
  | methodCall name arity number =>
      obtain ⟨table, inserted, same⟩ := Except.bind_eq_ok_iff.mp h
      cases same
      obtain ⟨more, rfl⟩ := (Numbered.insert_eq_ok_iff methodCalls).mp inserted
      exact .inr (.inr ⟨.methodCall name arity number, rfl, rfl, rfl, strings, classRefs,
        fieldAccesses, more⟩)
  | moduleHeader | field | method | localName => cases h

theorem declare_of_sound (sound : draft.Sound) {declaration : Declaration} {record : MetaRecord}
    (single : declaration.records = [record]) (plain : declaration.class? = none)
    (fresh : (draft.declared declaration).Sound) :
    draft.declare record = .ok (draft.declared declaration) := by
  cases declaration with
  | use | enumeration =>
      cases single
      rfl
  | string =>
      cases single
      exact Except.bind_eq_ok_iff.mpr
        ⟨_, (Numbered.insert_eq_ok_iff sound.strings).mpr ⟨fresh.strings, rfl⟩, rfl⟩
  | classRef =>
      cases single
      exact Except.bind_eq_ok_iff.mpr
        ⟨_, (Numbered.insert_eq_ok_iff sound.classRefs).mpr ⟨fresh.classRefs, rfl⟩, rfl⟩
  | fieldAccess =>
      cases single
      exact Except.bind_eq_ok_iff.mpr
        ⟨_, (Numbered.insert_eq_ok_iff sound.fieldAccesses).mpr ⟨fresh.fieldAccesses, rfl⟩, rfl⟩
  | methodCall =>
      cases single
      exact Except.bind_eq_ok_iff.mpr
        ⟨_, (Numbered.insert_eq_ok_iff sound.methodCalls).mpr ⟨fresh.methodCalls, rfl⟩, rfl⟩
  | block => cases plain

theorem Sound.of_declared {declaration : Declaration} (h : (draft.declared declaration).Sound) :
    draft.Sound := by
  obtain ⟨strings, classRefs, fieldAccesses, methodCalls⟩ := h
  cases declaration with
  | use | enumeration | block => exact ⟨strings, classRefs, fieldAccesses, methodCalls⟩
  | string =>
      exact ⟨(Numbered.sound_put_iff.mp strings).1, classRefs, fieldAccesses, methodCalls⟩
  | classRef =>
      exact ⟨strings, (Numbered.sound_put_iff.mp classRefs).1, fieldAccesses, methodCalls⟩
  | fieldAccess =>
      exact ⟨strings, classRefs, (Numbered.sound_put_iff.mp fieldAccesses).1, methodCalls⟩
  | methodCall =>
      exact ⟨strings, classRefs, fieldAccesses, (Numbered.sound_put_iff.mp methodCalls).1⟩

theorem Sound.of_declarations {declarations : List Declaration}
    (h : (declarations.foldl declared draft).Sound) : draft.Sound := by
  induction declarations generalizing draft with
  | nil => exact h
  | cons declaration rest ih => exact (ih h).of_declared

theorem openClass_declared (declaration : Declaration) :
    (draft.declared declaration).openClass = draft.openClass := by
  cases declaration <;> rfl

theorem ended_declared (declaration : Declaration) :
    (draft.declared declaration).ended = draft.ended := by
  cases declaration <;> rfl

theorem closed_eq (idle : draft.openClass = none) (declaration : Declaration) :
    { draft.declared declaration with openClass := none } = draft.declared declaration := by
  rw [← idle, ← openClass_declared declaration]

/-- Whether declarations complete what has been read to a view. -/
structure Ends (draft : MetadataDraft) (declarations : List Declaration) (view : Metadata) :
    Prop where
  closes : ∀ header members, .block header members ∈ declarations → header.Closes members
  sound : (declarations.foldl declared draft).Sound
  finished : finish { declarations.foldl declared draft with ended := true } = .ok view

theorem ends_nil {view : Metadata} (sound : draft.Sound)
    (finished : finish { draft with ended := true } = .ok view) : draft.Ends [] view :=
  ⟨nofun, sound, finished⟩

theorem ends_cons_iff {declaration : Declaration} {rest : List Declaration} {view : Metadata} :
    draft.Ends (declaration :: rest) view ↔
      (∀ header members, declaration = .block header members → header.Closes members) ∧
        (draft.declared declaration).Ends rest view := by
  constructor
  · intro h
    exact ⟨fun header members same => h.closes header members (same ▸ List.mem_cons_self),
      fun header members among => h.closes header members (List.mem_cons_of_mem _ among),
      h.sound, h.finished⟩
  · rintro ⟨closes, h⟩
    refine ⟨fun header members among => ?_, h.sound, h.finished⟩
    rcases List.mem_cons.mp among with same | among
    · exact closes header members same.symm
    · exact h.closes header members among

theorem exists_declarations (idle : draft.openClass = none) (goesOn : draft.ended = false)
    (sound : draft.Sound) {records : List MetaRecord} {view : Metadata}
    (h : draft.Reads records view) : ∃ declarations : List Declaration,
      records = declarations.flatMap Declaration.records ++ [.finish] ∧
        draft.Ends declarations view := by
  induction length : records.length using Nat.strongRecOn generalizing draft records with
  | ind count ih =>
    cases records with
    | nil =>
        have finished : draft.finish = .error .missingEnd := by
          unfold finish
          rw [idle, goesOn]
          rfl
        rw [reads_nil, finished] at h
        cases h
    | cons record rest =>
        have more (declaration : Declaration) {after : List MetaRecord}
            (fewer : after.length < count) (sound : (draft.declared declaration).Sound)
            (reads : (draft.declared declaration).Reads after view) :=
          ih after.length fewer ((openClass_declared declaration).trans idle)
            ((ended_declared declaration).trans goesOn) sound reads rfl
        obtain ⟨next, added, reads⟩ := reads_cons.mp h
        rw [add_of_closed draft idle goesOn] at added
        rw [List.length_cons] at length
        rcases declare_eq_ok sound added with ⟨rfl, rfl⟩ | ⟨header, rfl, rfl⟩ |
          ⟨declaration, single, plain, rfl, sound⟩
        · cases rest with
          | nil => exact ⟨[], rfl, ends_nil sound reads⟩
          | cons other rest =>
              obtain ⟨_, added, -⟩ := reads_cons.mp reads
              cases added
        · obtain ⟨members, after, rfl, closes, reads⟩ :=
            (reads_of_open header.opens_nil goesOn).mp reads
          rw [List.nil_append] at closes reads
          rw [closed_eq idle] at reads
          rw [List.length_append] at length
          obtain ⟨declarations, rfl, ends⟩ := more (.block header members) (by omega)
            ⟨sound.strings, sound.classRefs, sound.fieldAccesses, sound.methodCalls⟩ reads
          refine ⟨.block header members :: declarations, ?_, ends_cons_iff.mpr ⟨?_, ends⟩⟩
          · simp [Declaration.records]
          · intro _ _ same
            cases same
            exact closes
        · obtain ⟨declarations, rfl, ends⟩ := more declaration (by omega) sound reads
          refine ⟨declaration :: declarations, ?_, ends_cons_iff.mpr ⟨?_, ends⟩⟩
          · simp [single]
          · rintro _ _ rfl
            cases plain

/-- The rest of a unit is declarations in any order with complete classes, and an end. -/
theorem reads_iff (idle : draft.openClass = none) (goesOn : draft.ended = false)
    (sound : draft.Sound) {records : List MetaRecord} {view : Metadata} :
    draft.Reads records view ↔ ∃ declarations : List Declaration,
      records = declarations.flatMap Declaration.records ++ [.finish] ∧
        draft.Ends declarations view := by
  refine ⟨exists_declarations idle goesOn sound, ?_⟩
  rintro ⟨declarations, rfl, ends⟩
  induction declarations generalizing draft with
  | nil => exact reads_cons.mpr ⟨_, add_of_closed draft idle goesOn .finish, ends.finished⟩
  | cons declaration rest ih =>
      obtain ⟨closes, ends⟩ := ends_cons_iff.mp ends
      have sound' := ends.sound.of_declarations
      have rest := ih ((openClass_declared declaration).trans idle)
        ((ended_declared declaration).trans goesOn) sound' ends
      rw [List.flatMap_cons, List.append_assoc]
      cases block : declaration.class? with
      | none =>
          obtain ⟨record, single⟩ := exists_single block
          rw [single]
          exact reads_cons.mpr ⟨_, (add_of_closed draft idle goesOn record).trans
            (declare_of_sound sound single block sound'), rest⟩
      | some info =>
          cases declaration with
          | block header members =>
              rw [← closed_eq idle] at rest
              exact reads_cons.mpr ⟨_, add_of_closed draft idle goesOn (.classHeader header),
                (reads_of_open header.opens_nil goesOn).mpr
                  ⟨members, _, rfl, closes header members rfl, rest⟩⟩
          | _ => cases block

/-! ## The view -/

theorem foldl_declared_eq (part : MetadataDraft → β)
    (step : ∀ draft declaration, part (declared draft declaration) = part draft)
    (declarations : List Declaration) :
    part (declarations.foldl declared draft) = part draft := by
  induction declarations generalizing draft with
  | nil => rfl
  | cons declaration rest ih => exact ih.trans (step draft declaration)

theorem foldl_declared_append (part : MetadataDraft → List β) (listed? : Declaration → Option β)
    (step : ∀ draft declaration,
      part (declared draft declaration) = part draft ++ (listed? declaration).toList)
    (declarations : List Declaration) :
    part (declarations.foldl declared draft) = part draft ++ declarations.filterMap listed? := by
  induction declarations generalizing draft with
  | nil => exact (List.append_nil _).symm
  | cons declaration rest ih =>
      refine ih.trans ?_
      rw [step, List.append_assoc, List.filterMap_cons]
      cases listed? declaration <;> rfl

theorem foldl_declared_table (table : MetadataDraft → Numbered β)
    (listed? : Declaration → Option (UInt32 × β))
    (step : ∀ draft declaration, table (declared draft declaration) =
      (listed? declaration).elim (table draft) fun entry => (table draft).put entry.1 entry.2)
    (declarations : List Declaration) :
    (table (declarations.foldl declared draft)).size = (table draft).size ∧
      (table (declarations.foldl declared draft)).found =
        (table draft).found ++ declarations.filterMap listed? := by
  refine ⟨foldl_declared_eq (fun draft => (table draft).size) (fun draft declaration => ?_) _,
    foldl_declared_append (fun draft => (table draft).found) listed?
      (fun draft declaration => ?_) _⟩
  · rw [step]
    cases listed? declaration <;> rfl
  · rw [step]
    cases listed? declaration with
    | none => exact (List.append_nil _).symm
    | some entry => exact Numbered.found_put

theorem finish_eq_ok_iff (idle : draft.openClass = none) (sound : draft.Sound) {view : Metadata} :
    finish { draft with ended := true } = .ok view ↔
      view.moduleName = draft.moduleName ∧ view.uses = draft.uses ∧ view.enums = draft.enums ∧
        view.classes = draft.classes ∧
        Fills draft.strings.size draft.strings.found view.strings ∧
        Fills draft.classRefs.size draft.classRefs.found view.classRefs ∧
        Fills draft.fieldAccesses.size draft.fieldAccesses.found view.fieldAccesses ∧
        Fills draft.methodCalls.size draft.methodCalls.found view.methodCalls := by
  unfold finish
  dsimp only
  rw [idle]
  simp only [if_true, Except.bind_eq_ok_iff, Numbered.toList_eq_ok_iff sound.strings,
    Numbered.toList_eq_ok_iff sound.classRefs, Numbered.toList_eq_ok_iff sound.fieldAccesses,
    Numbered.toList_eq_ok_iff sound.methodCalls]
  constructor
  · rintro ⟨_, strings, _, classRefs, _, fieldAccesses, _, methodCalls, same⟩
    cases same
    exact ⟨rfl, rfl, rfl, rfl, strings, classRefs, fieldAccesses, methodCalls⟩
  · rintro ⟨moduleName, uses, enums, classes, strings, classRefs, fieldAccesses, methodCalls⟩
    refine ⟨_, strings, _, classRefs, _, fieldAccesses, _, methodCalls, ?_⟩
    rw [← moduleName, ← uses, ← enums, ← classes]
    rfl

end MetadataDraft

namespace Metadata

open MetadataDraft

variable {records : List MetaRecord} {view : Metadata}

def start (listing : Listing) : MetadataDraft where
  moduleName := listing.moduleName
  uses := #[]
  classes := #[]
  enums := #[]
  strings := .empty listing.strings
  classRefs := .empty listing.classRefs
  fieldAccesses := .empty listing.fieldAccesses
  methodCalls := .empty listing.methodCalls
  openClass := none
  ended := false

theorem sound_start (listing : Listing) : (start listing).Sound :=
  ⟨.nil _, .nil _, .nil _, .nil _⟩

/-- Whether what has been read is what a unit declares. -/
structure Collects (listing : Listing) (draft : MetadataDraft) : Prop where
  idle : draft.openClass = none
  moduleName : draft.moduleName = listing.moduleName
  uses : draft.uses.toList = listing.declarations.filterMap Declaration.use?
  enums : draft.enums.toList = listing.declarations.filterMap Declaration.enumeration?
  classes : draft.classes.toList = listing.declarations.filterMap Declaration.class?
  strings : draft.strings.size = listing.strings ∧
    draft.strings.found = listing.declarations.filterMap Declaration.string?
  classRefs : draft.classRefs.size = listing.classRefs ∧
    draft.classRefs.found = listing.declarations.filterMap Declaration.classRef?
  fieldAccesses : draft.fieldAccesses.size = listing.fieldAccesses ∧
    draft.fieldAccesses.found = listing.declarations.filterMap Declaration.fieldAccess?
  methodCalls : draft.methodCalls.size = listing.methodCalls ∧
    draft.methodCalls.found = listing.declarations.filterMap Declaration.methodCall?

theorem collects (listing : Listing) :
    Collects listing (listing.declarations.foldl declared (start listing)) where
  idle := foldl_declared_eq (·.openClass) (fun _ => openClass_declared) _
  moduleName :=
    foldl_declared_eq (·.moduleName) (fun _ declaration => by cases declaration <;> rfl) _
  uses := foldl_declared_append (·.uses.toList) Declaration.use?
    (fun _ declaration => by cases declaration <;> simp [declared, Declaration.use?]) _
  enums := foldl_declared_append (·.enums.toList) Declaration.enumeration?
    (fun _ declaration => by cases declaration <;> simp [declared, Declaration.enumeration?]) _
  classes := foldl_declared_append (·.classes.toList) Declaration.class?
    (fun _ declaration => by cases declaration <;> simp [declared, Declaration.class?]) _
  strings := foldl_declared_table (·.strings) Declaration.string?
    (fun _ declaration => by cases declaration <;> rfl) _
  classRefs := foldl_declared_table (·.classRefs) Declaration.classRef?
    (fun _ declaration => by cases declaration <;> rfl) _
  fieldAccesses := foldl_declared_table (·.fieldAccesses) Declaration.fieldAccess?
    (fun _ declaration => by cases declaration <;> rfl) _
  methodCalls := foldl_declared_table (·.methodCalls) Declaration.methodCall?
    (fun _ declaration => by cases declaration <;> rfl) _

/-- A unit ends with a view if its tables are full, and the view is then that of its listing. -/
theorem finish_iff_shows {listing : Listing} {draft : MetadataDraft}
    (read : Collects listing draft) :
    (draft.Sound ∧ finish { draft with ended := true } = .ok view) ↔ listing.Shows view := by
  obtain ⟨idle, moduleName, uses, enums, classes, strings, classRefs, fieldAccesses,
    methodCalls⟩ := read
  have finished (sound : draft.Sound) : finish { draft with ended := true } = .ok view ↔ _ :=
    finish_eq_ok_iff idle sound
  rw [strings.1, strings.2, classRefs.1, classRefs.2, fieldAccesses.1, fieldAccesses.2,
    methodCalls.1, methodCalls.2] at finished
  constructor
  · rintro ⟨sound, ends⟩
    obtain ⟨name, used, enumerated, declared, filled, classes', fields', methods'⟩ :=
      (finished sound).mp ends
    exact ⟨name.trans moduleName, used ▸ uses, enumerated ▸ enums, declared ▸ classes, filled,
      classes', fields', methods'⟩
  · rintro ⟨name, used, enumerated, declared, filled, classes', fields', methods'⟩
    have sound : draft.Sound := ⟨filled.sound strings, classes'.sound classRefs,
      fields'.sound fieldAccesses, methods'.sound methodCalls⟩
    exact ⟨sound, (finished sound).mpr ⟨name.trans moduleName.symm,
      Array.toList_inj.mp (used.trans uses.symm), Array.toList_inj.mp (enumerated.trans enums.symm),
      Array.toList_inj.mp (declared.trans classes.symm), filled, classes', fields', methods'⟩⟩

/-- A unit's metadata are accepted exactly if they are written according to the grammar, where a
class counts as complete with as many members as its header declares in 32 bits. -/
theorem ofRecords_eq_ok_iff :
    ofRecords records = .ok view ↔
      ∃ listing : Listing, records = listing.records ∧ listing.Closes ∧ listing.Shows view := by
  have reads (listing : Listing) (records : List MetaRecord) :
      ofRecords (.moduleHeader listing.moduleName listing.classRefs listing.fieldAccesses
        listing.methodCalls listing.strings :: records) = .ok view ↔
        (start listing).Reads records view :=
    Iff.rfl
  constructor
  · intro h
    cases records with
    | nil => cases h
    | cons record rest =>
        cases record with
        | moduleHeader name classRefs fieldAccesses methodCalls strings =>
            let header (declarations : List Declaration) : Listing :=
              ⟨name, classRefs, fieldAccesses, methodCalls, strings, declarations⟩
            obtain ⟨declarations, rfl, ends⟩ :=
              (reads_iff rfl rfl (sound_start (header []))).mp h
            exact ⟨header declarations, rfl, ends.closes,
              (finish_iff_shows (collects (header declarations))).mp ⟨ends.sound, ends.finished⟩⟩
        | _ => cases h
  · rintro ⟨listing, rfl, closes, shows⟩
    obtain ⟨sound, finished⟩ := (finish_iff_shows (collects listing)).mpr shows
    exact (reads_iff rfl rfl (sound_start listing)).mpr
      ⟨listing.declarations, rfl, closes, sound, finished⟩

/-- A unit's metadata are accepted exactly if they are written according to the grammar and have
the view that lists what they declare. The counts of a class header are added up in 32 bits, so that
the members of a class are as many as they say only if their sum is that small. -/
theorem ofRecords_reads_grammar :
    (ofRecords records = .ok view ↔
      ∃ listing : Listing, records = listing.records ∧ listing.Closes ∧ listing.Shows view) ∧
    ((∀ header, .classHeader header ∈ records → header.declared < UInt32.size) →
      (ofRecords records = .ok view ↔
        ∃ listing : Listing, records = listing.records ∧ listing.Completes ∧
          listing.Shows view)) := by
  refine ⟨ofRecords_eq_ok_iff, fun small => ?_⟩
  rw [ofRecords_eq_ok_iff]
  constructor
  · rintro ⟨listing, rfl, closes, shows⟩
    refine ⟨listing, rfl, fun header members among => ?_, shows⟩
    exact (ClassHeader.closes_iff_completes (small header (Listing.header_mem among))).mp
      (closes header members among)
  · rintro ⟨listing, rfl, completes, shows⟩
    refine ⟨listing, rfl, fun header members among => ?_, shows⟩
    exact (ClassHeader.closes_iff_completes (small header (Listing.header_mem among))).mpr
      (completes header members among)

/-- A class with a method, the name of its receiver and a field. -/
theorem ofRecords_reads_grammar_class :
    ∃ view, ∃ listing : Listing,
      [.moduleHeader "app" 0 0 0 0, .classHeader ⟨"Main", "", 0, 1, 1, .plain⟩,
        .method ⟨"main", 1, 0, true, 0, 0, true⟩, .localName "self" 0, .field ⟨"ran", 1, false⟩,
        .finish] = listing.records ∧ listing.Completes ∧ listing.Shows view := by
  have accepted : ofRecords [.moduleHeader "app" 0 0 0 0,
        .classHeader ⟨"Main", "", 0, 1, 1, .plain⟩, .method ⟨"main", 1, 0, true, 0, 0, true⟩,
        .localName "self" 0, .field ⟨"ran", 1, false⟩, .finish] =
      .ok ⟨"app", #[], #[⟨"Main", none, .plain, 0, 1, #[⟨"ran", 1, false⟩],
        #[⟨⟨"main", 1, 0, true, 0, 0, true⟩, #[⟨"self", 0⟩]⟩]⟩], #[], [], [], [], []⟩ := by
    decide +kernel
  refine ⟨_, (ofRecords_reads_grammar.2 fun header member => ?_).mp accepted⟩
  obtain rfl : header = ⟨"Main", "", 0, 1, 1, .plain⟩ := by simpa using member
  decide

/-- A class header with counts that add up to 2³² asks for no members at all. -/
theorem ofRecords_accepts_incomplete :
    ¬ ∀ (records : List MetaRecord) (view : Metadata), ofRecords records = .ok view ↔
      ∃ listing : Listing, records = listing.records ∧ listing.Completes ∧ listing.Shows view := by
  intro grammar
  have accepted : ofRecords [.moduleHeader "m" 0 0 0 0,
        .classHeader ⟨"C", "", 4294967295, 1, 0, .plain⟩, .finish] =
      .ok ⟨"m", #[], #[⟨"C", none, .plain, 4294967295, 1, #[], #[]⟩], #[], [], [], [], []⟩ := by
    decide +kernel
  obtain ⟨listing, all, completes, -⟩ := (grammar _ _).mp accepted
  have member : .classHeader ⟨"C", "", 4294967295, 1, 0, .plain⟩ ∈ listing.records := by
    rw [← all]
    simp
  obtain ⟨members, among, few⟩ := Listing.exists_block member
  have statics := (completes _ members among).fields true
  have many := statics.fresh.complete_iff.mp statics
  have le := Member.length_fieldNumbers_le true members
  rw [← all] at few
  change _ = 4294967295 at many
  change _ < 3 at few
  omega

end Metadata

end ObjectMachine
