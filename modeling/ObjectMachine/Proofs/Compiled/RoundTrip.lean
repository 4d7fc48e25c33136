import ObjectMachine.Compiled.File
import ObjectMachine.Proofs.Bytes.Codec
import ObjectMachine.Proofs.Code.Encoding

/-!
# Metadata streams and their records

A metadata stream is read back as the records it was written from. The converse fails in one byte
of a method record: any byte but zero says that the method returns a value, and only one of them is
written.
-/

namespace ObjectMachine

namespace MetaRecord

/-! ## The bytes that stand for a record -/

/-- The names in a record, which are stored with their lengths in two bytes. -/
@[simp] def names : MetaRecord → List String
  | finish | string .. => []
  | moduleHeader name .. | use name | localName name _ | classRef name _ | fieldAccess name _
  | methodCall name .. => [name]
  | classHeader header =>
    match header.kind with
    | .plain => [header.name, header.parent]
    | .facade nativeType handle => [header.name, header.parent, nativeType, handle]
    | .implicit hostType => [header.name, header.parent, hostType]
  | field header => [header.name]
  | method header => [header.name]
  | enumeration name members => name :: members.map (·.1)

/-- Whether the text of a literal, or the members of an enumeration, can be counted in the bytes
that a record has for that. -/
@[simp] def Counts : MetaRecord → Prop
  | string _ value short => value.utf8ByteSize < if short then 0x100 else 0x100000000
  | enumeration _ members => members.length < 0x10000
  | _ => True

/-- Whether the bytes of a record hold all its lengths. -/
structure Fits (record : MetaRecord) : Prop where
  names : ∀ name ∈ record.names, name.utf8ByteSize < 0x10000
  counts : record.Counts

theorem fits_iff (record : MetaRecord) :
    record.Fits ↔ (∀ name ∈ record.names, name.utf8ByteSize < 0x10000) ∧ record.Counts :=
  ⟨fun fits => ⟨fits.names, fits.counts⟩, fun fits => ⟨fits.1, fits.2⟩⟩

instance decidableCounts : (record : MetaRecord) → Decidable record.Counts
  | string _ value short =>
    inferInstanceAs (Decidable (value.utf8ByteSize < if short then 0x100 else 0x100000000))
  | enumeration _ members => inferInstanceAs (Decidable (members.length < 0x10000))
  | finish | moduleHeader .. | use _ | classHeader _ | field _ | method _ | localName ..
  | classRef .. | fieldAccess .. | methodCall .. => .isTrue trivial

instance (record : MetaRecord) : Decidable record.Fits :=
  decidable_of_iff _ (fits_iff record).symm

/-- Whether a byte can stand for what a record says in one bit: of a method, whether it returns a
value. Other records have no such byte, and zero takes its place. -/
@[simp] def Tells (flag : UInt8) : MetaRecord → Prop
  | method header => header.returnsValue = decide (flag ≠ 0)
  | _ => flag = 0

/-- The payload of a record with a given byte for what it says in one bit. -/
@[simp] def flaggedPayload (flag : UInt8) : MetaRecord → Bytes
  | method header =>
    Write.name header.name ++ Write.uint32 header.number ++ Write.uint32 header.codeOffset ++
      Write.byte flag ++ Write.uint16 header.argCount ++ Write.uint16 header.localCount
  | record => record.payload

def flagged (flag : UInt8) (record : MetaRecord) : Bytes :=
  record.tag :: record.flaggedPayload flag

theorem tag_le (record : MetaRecord) : record.tag.toNat ≤ 0x10 := by
  cases record with
  | classHeader header => cases h : header.kind <;> simp [tag, h]
  | field header => cases h : header.isStatic <;> simp [tag, h]
  | method header => cases h : header.isStatic <;> simp [tag, h]
  | string _ _ short => cases short <;> simp [tag]
  | _ => simp [tag]

end MetaRecord

namespace Read

open MetaRecord

/-! ## Reading one record -/

theorem accepts_namedNumber (record : String → UInt32 → MetaRecord) :
    Accepts (namedNumber record) fun found word => ∃ name number, found = record name number ∧
      name.utf8ByteSize < 0x10000 ∧ word = Write.name name ++ Write.uint32 number := by
  refine (inverts_name.accepts.bind fun name => inverts_uint32.accepts.bind fun number =>
    accepts_pure _).of_iff fun found word => ?_
  simp
  grind

theorem accepts_fieldHeader (isStatic : Bool) :
    Accepts (fieldHeader isStatic) fun found word => ∃ header, found = field header ∧
      header.isStatic = isStatic ∧ header.name.utf8ByteSize < 0x10000 ∧
        word = Write.name header.name ++ Write.uint32 header.number := by
  refine (inverts_name.accepts.bind fun name => inverts_uint32.accepts.bind fun number =>
    accepts_pure _).of_iff fun found word => ?_
  constructor
  · rintro ⟨⟨name, number, _⟩, rfl, rfl, short, rfl⟩
    simp [short]
  · simp
    grind

theorem accepts_methodHeader (isStatic : Bool) :
    Accepts (methodHeader isStatic) fun found word => ∃ header flag, found = method header ∧
      header.isStatic = isStatic ∧ header.returnsValue = decide (flag ≠ 0) ∧
      header.name.utf8ByteSize < 0x10000 ∧ word = found.flaggedPayload flag := by
  refine (inverts_name.accepts.bind fun name => inverts_uint32.accepts.bind fun number =>
    inverts_uint32.accepts.bind fun codeOffset => inverts_byte.accepts.bind fun flag =>
      inverts_uint16.accepts.bind fun argCount => inverts_uint16.accepts.bind fun localCount =>
        accepts_pure _).of_iff fun found word => ?_
  constructor
  · rintro ⟨⟨name, number, codeOffset, returnsValue, argCount, localCount, _⟩, flag, rfl, rfl,
      rfl, short, rfl⟩
    exact ⟨name, _, ⟨short, rfl⟩, _, ⟨number, _, ⟨trivial, rfl⟩, _, ⟨codeOffset, _, ⟨trivial, rfl⟩,
      _, ⟨flag, _, ⟨trivial, rfl⟩, _, ⟨argCount, _, ⟨trivial, rfl⟩, _, ⟨localCount, _,
        ⟨trivial, rfl⟩, _, ⟨rfl, rfl⟩, rfl⟩, rfl⟩, rfl⟩, rfl⟩, rfl⟩,
      by simp [flaggedPayload, Write.byte]⟩
  · rintro ⟨name, _, ⟨short, rfl⟩, _, ⟨number, _, ⟨-, rfl⟩, _, ⟨codeOffset, _, ⟨-, rfl⟩, _,
      ⟨flag, _, ⟨-, rfl⟩, _, ⟨argCount, _, ⟨-, rfl⟩, _, ⟨localCount, _, ⟨-, rfl⟩, _, ⟨rfl, rfl⟩,
        rfl⟩, rfl⟩, rfl⟩, rfl⟩, rfl⟩, rfl⟩
    exact ⟨_, flag, rfl, rfl, rfl, short, by simp [flaggedPayload, Write.byte]⟩

theorem accepts_classHeader {kind : Read ClassKind} {form : ClassKind → Bytes → Prop}
    (h : Accepts kind form) :
    Accepts (classHeader kind) fun found word => ∃ header back, found = .classHeader header ∧
      form header.kind back ∧
      header.name.utf8ByteSize < 0x10000 ∧ header.parent.utf8ByteSize < 0x10000 ∧
      word = Write.name header.name ++ Write.name header.parent ++
        Write.uint32 header.staticFieldCount ++ Write.uint32 header.instanceFieldCount ++
        Write.uint32 header.methodCount ++ back := by
  refine (inverts_name.accepts.bind fun name => inverts_name.accepts.bind fun parent =>
    inverts_uint32.accepts.bind fun statics => inverts_uint32.accepts.bind fun instances =>
      inverts_uint32.accepts.bind fun methods => h.bind fun kind =>
        accepts_pure _).of_iff fun found word => ?_
  constructor
  · rintro ⟨⟨name, parent, statics, instances, methods, kind⟩, back, rfl, formed, short, short',
      rfl⟩
    exact ⟨name, _, ⟨short, rfl⟩, _, ⟨parent, _, ⟨short', rfl⟩, _, ⟨statics, _, ⟨trivial, rfl⟩,
      _, ⟨instances, _, ⟨trivial, rfl⟩, _, ⟨methods, _, ⟨trivial, rfl⟩, _, ⟨kind, back,
        formed, _, ⟨rfl, rfl⟩, rfl⟩, rfl⟩, rfl⟩, rfl⟩, rfl⟩, by simp⟩
  · rintro ⟨name, _, ⟨short, rfl⟩, _, ⟨parent, _, ⟨short', rfl⟩, _, ⟨statics, _, ⟨-, rfl⟩, _,
      ⟨instances, _, ⟨-, rfl⟩, _, ⟨methods, _, ⟨-, rfl⟩, _, ⟨kind, back, formed, _, ⟨rfl, rfl⟩,
        rfl⟩, rfl⟩, rfl⟩, rfl⟩, rfl⟩, rfl⟩
    exact ⟨_, back, rfl, formed, short, short', by simp⟩

theorem accepts_literal (short : Bool) :
    Accepts (do
        let number ← uint32
        let length ← word (if short then 1 else 4)
        let value ← text length
        pure (.string number value short))
      fun found bytes => ∃ number value, found = MetaRecord.string number value short ∧
        found.Counts ∧ bytes = found.payload := by
  refine (inverts_uint32.accepts.bind fun number => (inverts_word _).accepts.bind
    fun length => (accepts_text length).bind fun value => accepts_pure _).of_iff
      fun found bytes => ?_
  have capacity : LittleEndian.capacity (if short then 1 else 4) =
      if short then 0x100 else 0x100000000 := by
    cases short <;> rfl
  simp [capacity, MetaRecord.payload]
  grind

theorem inverts_member :
    Inverts (do
        let member ← Read.name
        let value ← int32
        pure (member, value))
      (fun member => Write.name member.1 ++ Write.int32 member.2)
      fun member => member.1.utf8ByteSize < 0x10000 := by
  refine Accepts.inverts ?_
  refine (inverts_name.accepts.bind fun name => inverts_int32.accepts.bind fun value =>
    accepts_pure _).of_iff fun member word => ?_
  obtain ⟨name, value⟩ := member
  simp

theorem accepts_enumeration :
    Accepts (do
        let name ← name
        let count ← uint16
        let members ← times count.toNat do
          let member ← Read.name
          let value ← int32
          pure (member, value)
        pure (.enumeration name members))
      fun found word => ∃ name members, found = MetaRecord.enumeration name members ∧
        name.utf8ByteSize < 0x10000 ∧ members.length < 0x10000 ∧
        (∀ member ∈ members, member.1.utf8ByteSize < 0x10000) ∧
        word = Write.name name ++ LittleEndian.bytes 2 members.length ++
          members.flatMap fun member => Write.name member.1 ++ Write.int32 member.2 := by
  refine (inverts_name.accepts.bind fun name => inverts_uint16.accepts.bind fun count =>
    (inverts_member.times count.toNat).accepts.bind fun members => accepts_pure _).of_iff
      fun found word => ?_
  constructor
  · rintro ⟨name, members, rfl, short, few, shorts, rfl⟩
    refine ⟨name, _, ⟨short, rfl⟩, _, ⟨UInt16.ofNat members.length, _, ⟨trivial, rfl⟩, _,
      ⟨members, _, ⟨⟨?_, shorts⟩, rfl⟩, _, ⟨rfl, rfl⟩, rfl⟩, rfl⟩, ?_⟩
    · exact (UInt16.toNat_ofNat_of_lt' few).symm
    · simp [Write.uint16, UInt16.toNat_ofNat_of_lt' few]
  · rintro ⟨name, _, ⟨short, rfl⟩, _, ⟨count, _, ⟨-, rfl⟩, _, ⟨members, _,
      ⟨⟨length, shorts⟩, rfl⟩, _, ⟨rfl, rfl⟩, rfl⟩, rfl⟩, rfl⟩
    refine ⟨name, members, rfl, short, ?_, shorts, ?_⟩
    · rw [length]
      exact count.toNat_lt
    · simp [Write.uint16, length]

def Payload (tag : UInt8) (record : MetaRecord) (word : Bytes) : Prop :=
  record.tag = tag ∧ record.Fits ∧ ∃ flag, record.Tells flag ∧ word = record.flaggedPayload flag

theorem payload_iff {tag : UInt8} {code : Nat} (h : tag.toNat = code) (record : MetaRecord)
    (word : Bytes) : Payload tag record word ↔ record.tag = UInt8.ofNat code ∧ record.Fits ∧
      ∃ flag, record.Tells flag ∧ word = record.flaggedPayload flag := by
  rw [Payload, ← h, UInt8.ofNat_toNat]

theorem accepts_payload (start : Nat) (tag : UInt8) :
    Accepts (payload start tag) (Payload tag) := by
  unfold payload
  -- What each payload is made of gives its form.
  split
  case' h_1 => refine (accepts_pure _).of_iff fun record word => ?_
  case' h_2 =>
    refine (inverts_name.accepts.bind fun _ => inverts_uint32.accepts.bind fun _ =>
      inverts_uint32.accepts.bind fun _ => inverts_uint32.accepts.bind fun _ =>
        inverts_uint32.accepts.bind fun _ => accepts_pure _).of_iff fun record word => ?_
  case' h_3 => refine (inverts_name.accepts.map _).of_iff fun record word => ?_
  case' h_4 => refine (accepts_classHeader (accepts_pure _)).of_iff fun record word => ?_
  case' h_5 =>
    refine (accepts_classHeader (inverts_name.accepts.bind fun _ =>
      inverts_name.accepts.bind fun _ => accepts_pure _)).of_iff fun record word => ?_
  case' h_6 =>
    refine (accepts_classHeader (inverts_name.accepts.map _)).of_iff fun record word => ?_
  case' h_7 => refine (accepts_fieldHeader false).of_iff fun record word => ?_
  case' h_8 => refine (accepts_fieldHeader true).of_iff fun record word => ?_
  case' h_9 => refine (accepts_methodHeader false).of_iff fun record word => ?_
  case' h_10 => refine (accepts_methodHeader true).of_iff fun record word => ?_
  case' h_11 => refine (accepts_namedNumber _).of_iff fun record word => ?_
  case' h_12 => refine (accepts_literal false).of_iff fun record word => ?_
  case' h_13 => refine (accepts_literal true).of_iff fun record word => ?_
  case' h_14 => refine (accepts_namedNumber _).of_iff fun record word => ?_
  case' h_15 => refine (accepts_namedNumber _).of_iff fun record word => ?_
  case' h_16 =>
    refine (inverts_name.accepts.bind fun _ => inverts_uint16.accepts.bind fun _ =>
      inverts_uint32.accepts.bind fun _ => accepts_pure _).of_iff fun record word => ?_
  case' h_17 => refine accepts_enumeration.of_iff fun record word => ?_
  case h_18 =>
    refine (accepts_throw _).of_iff fun record word => ?_
    have bounded := tag_le record
    rw [iff_false]
    rintro ⟨rfl, -⟩
    grind
  -- Of the records, those with the tag have this form, and the others do not.
  all_goals
    next h =>
      rw [payload_iff h]
      cases record <;> simp [MetaRecord.tag, MetaRecord.payload, fits_iff]
      all_goals grind

theorem accepts_metaRecord :
    Accepts metaRecord fun record word =>
      record.Fits ∧ ∃ flag, record.Tells flag ∧ word = record.flagged flag := by
  -- The tag says which payload is read, and the payload says which tag its record has.
  have from_here (start : Nat) : Accepts (byte >>= payload start) fun record word =>
      record.Fits ∧ ∃ flag, record.Tells flag ∧ word = record.flagged flag := by
    apply (inverts_byte.accepts.bind (accepts_payload start)).of_iff
    intro record word
    constructor
    · rintro ⟨fits, flag, tells, rfl⟩
      exact ⟨record.tag, [record.tag], ⟨trivial, rfl⟩, _, ⟨rfl, fits, flag, tells, rfl⟩, rfl⟩
    · rintro ⟨_, _, ⟨-, rfl⟩, _, ⟨rfl, fits, flag, tells, rfl⟩, rfl⟩
      exact ⟨fits, flag, tells, rfl⟩
  intro position
  exact from_here position position

end Read

namespace MetaRecord

/-! ## Reading a stream -/

/-- The bytes of records in a row, given the byte for what each of them says in one bit. -/
def spell (flags : List UInt8) (records : List MetaRecord) : Bytes :=
  (List.zipWith flagged flags records).flatten

@[simp] theorem spell_cons (flag : UInt8) (flags : List UInt8) (record : MetaRecord)
    (records : List MetaRecord) :
    spell (flag :: flags) (record :: records) = record.flagged flag ++ spell flags records := by
  simp [spell]

/-- Whether a list of records ends with its only end record. -/
def Ended (records : List MetaRecord) : Prop :=
  ∃ front, records = front ++ [finish] ∧ finish ∉ front

theorem not_ended_nil : ¬ Ended [] := by
  simp [Ended]

theorem ended_finish_iff (records : List MetaRecord) :
    Ended (finish :: records) ↔ records = [] := by
  constructor
  · rintro ⟨front, whole, absent⟩
    cases front with
    | nil => simpa using whole
    | cons first front => simp_all
  · rintro rfl
    exact ⟨[], rfl, by simp⟩

theorem ended_cons_iff {record : MetaRecord} (other : record ≠ finish) (records : List MetaRecord) :
    Ended (record :: records) ↔ Ended records := by
  constructor
  · rintro ⟨front, whole, absent⟩
    cases front with
    | nil => simp [other] at whole
    | cons first front =>
        simp only [List.cons_append, List.cons.injEq] at whole
        exact ⟨front, whole.2, fun member => absent (List.mem_cons_of_mem _ member)⟩
  · rintro ⟨front, rfl, absent⟩
    exact ⟨record :: front, rfl, by simp [absent, Ne.symm other]⟩

open Cursor

/-- The bytes of records that fit and end are read back as these, behind all those already found. -/
theorem decodeOnto_spell {records : List MetaRecord} {flags : List UInt8} (ended : Ended records)
    (fits : ∀ record ∈ records, record.Fits) (tells : List.Forall₂ Tells flags records) (fuel : Nat)
    (found : List MetaRecord) (position : Nat) (enough : (spell flags records).length < fuel) :
    decodeOnto fuel found (ahead position (spell flags records)) =
      .ok (found.reverse ++ records) := by
  induction tells generalizing fuel found position with
  | nil => exact absurd ended not_ended_nil
  | @cons flag record flags records told tells ih =>
      have read := (Read.accepts_metaRecord position _ record _).mpr
        ⟨record.flagged flag, spell flags records,
          ⟨fits record List.mem_cons_self, flag, told, rfl⟩, rfl, rfl⟩
      have filled : (spell (flag :: flags) (record :: records)).isEmpty = false := rfl
      cases fuel with
      | zero => simp at enough
      | succ fuel =>
          rw [decodeOnto, hasMore_ahead, filled, spell_cons, read]
          by_cases last : record = finish
          · subst last
            obtain rfl := (ended_finish_iff records).mp ended
            cases tells
            simp [spell, hasMore_ahead]
          · have shorter : (spell flags records).length < fuel := by
              simp [flagged] at enough
              omega
            simp only [Bool.not_false, if_true, last, if_false]
            rw [ih ((ended_cons_iff last records).mp ended)
              (fun record member => fits record (List.mem_cons_of_mem _ member)) _ _ _ shorter]
            simp

/-- Bytes that are read as records are the bytes of these, which fit and end. -/
theorem of_decodeOnto {fuel : Nat} {found records : List MetaRecord} {position : Nat}
    {bytes : Bytes} (read : decodeOnto fuel found (ahead position bytes) = .ok records) :
    ∃ more flags, records = found.reverse ++ more ∧ Ended more ∧ (∀ record ∈ more, record.Fits) ∧
      List.Forall₂ Tells flags more ∧ bytes = spell flags more := by
  induction fuel generalizing found position bytes with
  | zero => cases read
  | succ fuel ih =>
      rw [decodeOnto] at read
      split at read
      · split at read
        · cases read
        · next record next first =>
            obtain ⟨_, tail, ⟨fit, flag, told, rfl⟩, rfl, rfl⟩ :=
              (Read.accepts_metaRecord position bytes record next).mp first
            split at read
            · next last =>
                subst last
                split at read
                · cases read
                · next clear =>
                    have empty : tail = [] := by
                      simpa [hasMore_ahead] using clear
                    cases read
                    exact ⟨[finish], [flag], by simp, (ended_finish_iff []).mpr rfl,
                      by simpa using fit, .cons told .nil, by simp [empty, spell]⟩
            · next other =>
                obtain ⟨more, flags, rfl, ended, fits, tells, rfl⟩ := ih read
                refine ⟨record :: more, flag :: flags, by simp,
                  (ended_cons_iff other more).mpr ended, ?_, .cons told tells, by simp⟩
                simpa [fit] using fits
      · cases read

theorem decodeAll_eq_ok_iff {metadata : Bytes} {records : List MetaRecord} :
    decodeAll metadata = .ok records ↔
      Ended records ∧ (∀ record ∈ records, record.Fits) ∧
        ∃ flags, List.Forall₂ Tells flags records ∧ metadata = spell flags records := by
  rw [decodeAll, start_eq_ahead]
  constructor
  · intro read
    obtain ⟨more, flags, rfl, ended, fits, tells, spelled⟩ := of_decodeOnto read
    exact ⟨ended, fits, flags, tells, spelled⟩
  · rintro ⟨ended, fits, flags, tells, rfl⟩
    exact decodeOnto_spell ended fits tells _ [] 0 (Nat.lt_succ_self _)

/-! ## Writing a stream -/

/-- The byte that is written for what a record says in one bit. -/
@[simp] def flag : MetaRecord → UInt8
  | method header => if header.returnsValue then 1 else 0
  | _ => 0

theorem encode_eq_flagged (record : MetaRecord) : record.encode = record.flagged record.flag := by
  cases record <;> rfl

theorem encodeAll_eq_spell (records : List MetaRecord) :
    encodeAll records = spell (records.map flag) records := by
  induction records with
  | nil => rfl
  | cons record records ih =>
      rw [List.map_cons, spell_cons, ← ih, ← encode_eq_flagged]
      rfl

theorem tells_flag (record : MetaRecord) : record.Tells record.flag := by
  cases record with
  | method header => cases h : header.returnsValue <;> simp [h]
  | _ => rfl

theorem tells_flags (records : List MetaRecord) :
    List.Forall₂ Tells (records.map flag) records := by
  induction records with
  | nil => exact .nil
  | cons record records ih => exact .cons (tells_flag record) ih

/-- Of the bytes that can stand for one bit, the one that is written is zero or one. -/
theorem eq_flag_iff {byte : UInt8} {record : MetaRecord} (told : record.Tells byte) :
    byte = record.flag ↔ byte ≤ 1 := by
  cases record with
  | method header =>
      simp only [Tells] at told
      simp only [flag, told]
      grind
  | _ =>
      cases told
      simp

theorem length_flagged (byte other : UInt8) (record : MetaRecord) :
    (record.flagged byte).length = (record.flagged other).length := by
  cases record with
  | method header => simp [flagged, Write.byte]
  | _ => rfl

/-- The byte for one bit can be read off the bytes of a record. -/
theorem flagged_inj {byte other : UInt8} {record : MetaRecord} (told : record.Tells byte)
    (told' : record.Tells other) : record.flagged byte = record.flagged other ↔ byte = other := by
  cases record with
  | method header => simp [flagged, Write.byte]
  | _ =>
      cases told
      cases told'
      simp

theorem length_spell {flags others : List UInt8} {records : List MetaRecord}
    (tells : List.Forall₂ Tells flags records) (tells' : List.Forall₂ Tells others records) :
    (spell flags records).length = (spell others records).length := by
  induction tells generalizing others with
  | nil =>
      cases tells'
      rfl
  | @cons flag record flags records told tells ih =>
      cases tells' with
      | @cons other _ others _ told' tells' =>
          simp [ih tells', length_flagged flag other record]

theorem spell_inj {flags others : List UInt8} {records : List MetaRecord}
    (tells : List.Forall₂ Tells flags records) (tells' : List.Forall₂ Tells others records) :
    spell flags records = spell others records ↔ flags = others := by
  constructor
  · intro same
    induction tells generalizing others with
    | nil => cases tells'; rfl
    | @cons flag record flags records told tells ih =>
        cases tells' with
        | @cons other _ others _ told' tells' =>
            rw [spell_cons, spell_cons] at same
            obtain ⟨first, rest⟩ := List.append_inj same (length_flagged flag other record)
            rw [(flagged_inj told told').mp first, ih tells' rest]
  · rintro rfl
    rfl

theorem eq_flags_iff {flags : List UInt8} {records : List MetaRecord}
    (tells : List.Forall₂ Tells flags records) :
    records.map flag = flags ↔ ∀ byte ∈ flags, byte ≤ 1 := by
  induction tells with
  | nil => simp
  | cons told tells ih =>
      rw [List.map_cons, List.cons.injEq, ih, List.forall_mem_cons, ← eq_flag_iff told, eq_comm]

/-! ## Round trips -/

/-- Records that end and fit are read back from what is written of them. -/
theorem decodeAll_encodeAll {records : List MetaRecord} (ended : Ended records)
    (fits : ∀ record ∈ records, record.Fits) : decodeAll (encodeAll records) = .ok records :=
  decodeAll_eq_ok_iff.mpr
    ⟨ended, fits, records.map flag, tells_flags records, encodeAll_eq_spell records⟩

/-- The records that are read back from what is written of them are those that end with their only
end record and whose lengths fit. -/
theorem decodeAll_encodeAll_iff (records : List MetaRecord) :
    decodeAll (encodeAll records) = .ok records ↔
      (∃ front, records = front ++ [finish] ∧ finish ∉ front) ∧
        ∀ record ∈ records, record.Fits := by
  constructor
  · intro read
    obtain ⟨ended, fits, -⟩ := decodeAll_eq_ok_iff.mp read
    exact ⟨ended, fits⟩
  · rintro ⟨ended, fits⟩
    exact decodeAll_encodeAll ended fits

/-- A record of every kind, in each of its variants. -/
theorem decodeAll_encodeAll_everyKind :
    let records : List MetaRecord := [
      .moduleHeader "m" 1 1 1 2, .use "lib",
      .classHeader ⟨"A", "", 1, 1, 2, .plain⟩, .field ⟨"x", 1, false⟩, .field ⟨"y", 1, true⟩,
      .method ⟨"f", 1, 0, true, 1, 2, false⟩, .method ⟨"g", 2, 7, false, 0, 0, true⟩,
      .localName "v" 3, .classHeader ⟨"B", "A", 0, 0, 0, .facade "T" "h"⟩,
      .classHeader ⟨"C", "", 0, 0, 0, .implicit "U"⟩, .string 1 "short" true,
      .string 2 "long" false, .classRef "A" 1, .fieldAccess "x" 1, .methodCall "f" 1 1,
      .enumeration "E" [("e", 0), ("f", -1)], .finish]
    decodeAll (encodeAll records) = .ok records := by
  intro records
  exact (decodeAll_encodeAll_iff records).mpr ⟨⟨records.dropLast, rfl, by decide⟩, by decide⟩

/-- The bytes of a stream are those written of its records but for the bytes that tell whether a
method returns a value. They are the same exactly if these are all zero or one. What is written is
as long as the stream and has the same records. -/
theorem encodeAll_of_decodeAll {metadata : Bytes} {records : List MetaRecord}
    (read : decodeAll metadata = .ok records) :
    ∃ flags, List.Forall₂ Tells flags records ∧ metadata = spell flags records ∧
      (encodeAll records = metadata ↔ ∀ byte ∈ flags, byte ≤ 1) ∧
      (encodeAll records).length = metadata.length ∧
      decodeAll (encodeAll records) = .ok records := by
  obtain ⟨ended, fits, flags, tells, rfl⟩ := decodeAll_eq_ok_iff.mp read
  refine ⟨flags, tells, rfl, ?_, ?_, ?_⟩
  · rw [encodeAll_eq_spell, spell_inj (tells_flags records) tells, eq_flags_iff tells]
  · rw [encodeAll_eq_spell, length_spell (tells_flags records) tells]
  · exact decodeAll_encodeAll ended fits

/-- The module `m` with a class and its method `f`, which returns a value unless the flag is
zero. -/
def flaggedStream (byte : UInt8) : List MetaRecord × Bytes :=
  let records := [
    .moduleHeader "m" 0 0 0 0, .classHeader ⟨"C", "", 0, 0, 1, .plain⟩,
    .method ⟨"f", 1, 0, decide (byte ≠ 0), 0, 0, true⟩, .finish]
  (records, spell [0, 0, byte, 0] records)

theorem decodeAll_flaggedStream (byte : UInt8) :
    decodeAll (flaggedStream byte).2 = .ok (flaggedStream byte).1 := by
  apply decodeAll_eq_ok_iff.mpr
  refine ⟨⟨(flaggedStream byte).1.dropLast, rfl, by simp [flaggedStream]⟩, ?_,
    [0, 0, byte, 0], ?_, rfl⟩
  · simp [flaggedStream, fits_iff]
    decide
  · simp [flaggedStream]

/-- A flag of two is read as one of one, which is written instead. -/
theorem encodeAll_of_decodeAll_flagTwo :
    decodeAll (flaggedStream 2).2 = .ok (flaggedStream 2).1 ∧
      encodeAll (flaggedStream 2).1 = (flaggedStream 1).2 ∧
      decodeAll (encodeAll (flaggedStream 2).1) = .ok (flaggedStream 2).1 := by
  have read := decodeAll_flaggedStream 2
  obtain ⟨-, -, -, -, -, again⟩ := encodeAll_of_decodeAll read
  exact ⟨read, encodeAll_eq_spell _, again⟩

/-- A stream is not always what is written of its records. -/
theorem metadata_rewritten : ¬ ∀ (metadata : Bytes) (records : List MetaRecord),
    decodeAll metadata = .ok records → encodeAll records = metadata := by
  intro h
  have same := h _ _ (decodeAll_flaggedStream 2)
  revert same
  decide

end MetaRecord

end ObjectMachine
