import ObjectMachine.Proofs.Machine.Regions
import ObjectMachine.Proofs.Program.Linked
import ObjectMachine.Proofs.Program.Shrinking

/-!
# The sections of a program

The code of a program is that of its units, one behind the other, and of a last unit with the entry
sequence. If verification accepts each of them, each has a region of its own: its branches stay
inside, its methods start in it, and its instructions refer to its tables.
-/

namespace ObjectMachine

open Code

namespace Code

def stream (code : Bytes) : List Instruction :=
  (decode code).toOption.getD []

theorem decode_stream {code : Bytes} {instructions : List Instruction}
    (h : decode code = .ok instructions) : stream code = instructions := by
  rw [stream, h]
  rfl

end Code

namespace Opcode

theorem shape_of_references {opcode : Opcode} {table : ReferenceTable}
    (h : opcode.references = some table) : opcode.shape = .index := by
  cases opcode <;> first | rfl | cases h

end Opcode

namespace Verify

/-- What has been checked refers to entries of the tables, which a module has in the same sizes. -/
theorem has_of_checkReferences {view : Metadata} {instruction : Instruction}
    (h : checkReferences view instruction = .ok ()) (sound : instruction.WellFormed)
    {record : ModuleRecord} (fits : record.Fits view) {table : ReferenceTable}
    (refers : instruction.opcode.references = some table) (listed : table ≠ .locals) :
    record.Has table instruction.index := by
  have operand := sound.fits
  unfold Operand.Fits at operand
  rw [Opcode.shape_of_references refers] at operand
  obtain ⟨classes, fields, methods, strings⟩ := fits
  unfold checkReferences at h
  unfold Instruction.index
  cases own : instruction.operand with
  | index number =>
      rw [own] at h
      dsimp only at h ⊢
      have sized : tableSize view table = some (record.tableSize table) := by
        unfold tableSize ModuleRecord.tableSize
        cases table with
        | locals => exact absurd rfl listed
        | strings => exact congrArg some strings.symm
        | classes => exact congrArg some classes.symm
        | fields => exact congrArg some fields.symm
        | methods => exact congrArg some methods.symm
      have referred : referredTable view instruction.opcode =
          some (table, record.tableSize table) := by
        rw [referredTable, refers, Option.bind_eq_bind, Option.bind_some, sized]
        rfl
      rw [referred] at h
      dsimp only at h
      split at h
      · cases h
      · next inside =>
          obtain ⟨positive, within⟩ := not_or.mp inside
          exact ⟨positive, Nat.le_of_not_lt within⟩
  | _ =>
      rw [own] at operand
      exact operand.elim

end Verify

namespace Link

def base (units : List LoadedUnit) (place : Nat) : Nat :=
  ((units.take place).flatMap (·.code)).length

theorem base_succ {units : List LoadedUnit} {place : Nat} {unit : LoadedUnit}
    (h : units[place]? = some unit) :
    base units (place + 1) = base units place + unit.code.length := by
  simp only [base, List.take_add_one, h, Option.toList_some, List.flatMap_append,
    List.flatMap_singleton, List.length_append]

theorem getElem?_scanl (units : List LoadedUnit) (start place : Nat)
    (within : place ≤ units.length) :
    (units.scanl (fun base unit => base + unit.code.length) start)[place]? =
      some (start + base units place) := by
  induction units generalizing start place with
  | nil =>
      obtain rfl := Nat.le_zero.mp within
      rfl
  | cons unit units ih =>
      rw [List.scanl_cons]
      cases place with
      | zero => rfl
      | succ place =>
          rw [List.getElem?_cons_succ, ih _ place (Nat.le_of_succ_le_succ within)]
          simp only [base, List.take_succ_cons, List.flatMap_cons, List.length_append,
            Nat.add_assoc]

theorem decode_flatMap (units : List LoadedUnit)
    (decodes : ∀ unit ∈ units, ∃ own, decode unit.code = .ok own) :
    ∃ joined, decode (units.flatMap (·.code)) = .ok joined ∧
      joined.length = (units.flatMap (stream ·.code)).length := by
  induction units with
  | nil => exact ⟨[], Encodes.nil.decoded, rfl⟩
  | cons unit units ih =>
      obtain ⟨⟨own, decoded⟩, others⟩ := List.forall_mem_cons.mp decodes
      obtain ⟨joined, rest, length⟩ := ih others
      refine ⟨_, decode_append decoded rest, ?_⟩
      rw [List.flatMap_cons, decode_stream decoded, List.length_append, List.length_append,
        List.length_map, length]

/-- Whether an instruction of the unit at a place starts at an address. -/
def Holds (units : List LoadedUnit) (id : ModuleId) (address : Nat) : Prop :=
  ∃ unit own line, units[id.index]? = some unit ∧ decode unit.code = .ok own ∧
    line < own.length ∧ address = base units id.index + boundary own line

/-- Whether a method of a module starts where an instruction of its unit does. -/
def Housed (units : List LoadedUnit) (method : MethodEntry) : Prop :=
  ∀ address localCount, method.body = .bytecode address localCount →
    Holds units method.moduleId address

def firstLine (units : List LoadedUnit) (place : Nat) : Nat :=
  ((units.take place).flatMap (stream ·.code)).length

/-- The lines of a unit are behind those of the units before it, moved to its place. -/
theorem getElem?_section {units : List LoadedUnit}
    (decodes : ∀ unit ∈ units, ∃ own, decode unit.code = .ok own) {place : Nat} {unit : LoadedUnit}
    (here : units[place]? = some unit) {own : List Instruction}
    (decoded : decode unit.code = .ok own) {line : Nat} {instruction : Instruction}
    (found : own[line]? = some instruction) {joined : List Instruction}
    (whole : decode (units.flatMap (·.code)) = .ok joined) :
    joined[firstLine units place + line]? = some (instruction.shift (base units place)) := by
  obtain ⟨inside, rfl⟩ := List.getElem?_eq_some_iff.mp here
  obtain ⟨front, before, length⟩ := decode_flatMap (units.take place) fun unit member =>
    decodes unit (List.mem_of_mem_take member)
  obtain ⟨back, after, -⟩ := decode_flatMap (units.drop (place + 1)) fun unit member =>
    decodes unit (List.mem_of_mem_drop member)
  -- Both neighbours only move: the lines of the unit are behind as many as the front has.
  have all := decode_append before (decode_append decoded after)
  rw [← List.flatMap_cons, ← List.drop_eq_getElem_cons inside, ← List.flatMap_append,
    List.take_append_drop] at all
  obtain rfl := Except.ok.inj (all.symm.trans whole)
  rw [firstLine, ← length, List.getElem?_append_right (Nat.le_add_right _ _),
    Nat.add_sub_cancel_left, List.getElem?_map,
    List.getElem?_append_left (List.getElem?_eq_some_iff.mp found).1, found]
  rfl

/-- What is fetched in the code of a unit is the instruction of the unit, moved to its place. -/
theorem fetch_section {units : List LoadedUnit} {segment : Segment}
    (decodes : ∀ unit ∈ units, ∃ own, decode unit.code = .ok own)
    (whole : segment.bytes = units.flatMap (·.code)) {place : Nat} {unit : LoadedUnit}
    (here : units[place]? = some unit) {own : List Instruction}
    (decoded : decode unit.code = .ok own) {line : Nat} {instruction : Instruction}
    (found : own[line]? = some instruction) :
    segment.fetch (base units place + boundary own line) =
      .ok (instruction.shift (base units place)) := by
  obtain ⟨joined, all, -⟩ := decode_flatMap units decodes
  have moved := getElem?_section decodes here decoded found all
  have offset := (decode_eq_ok_iff.mp decoded).1.offset found
  have offset' := (decode_eq_ok_iff.mp all).1.offset moved
  have start : base units place + boundary own line =
      boundary joined (firstLine units place + line) := by
    rw [Instruction.offset_shift] at offset'
    omega
  rw [start]
  rw [← whole] at all
  exact fetch_boundary all moved

end Link

namespace Program

open Link

/-- Whether a program consists of the code, the tables and the methods of checked units, one of
which is entered first. -/
structure Composed (program : Program) (units : List LoadedUnit) : Prop where
  checked : ∀ unit ∈ units, unit.Checked
  small : ∀ unit ∈ units, unit.code.length < 0x8000000000000000
  code : program.code.bytes = units.flatMap (·.code)
  tables : List.Forall₂ (fun unit (record : ModuleRecord) => record.Fits unit.view) units
    program.modules.toList
  methods : ∀ method ∈ program.catalog.methods, Housed units method.2
  entry : Holds units program.entryModule program.entry

namespace Composed

variable {program : Program} {units : List LoadedUnit} (h : program.Composed units)

include h

theorem decodes (unit : LoadedUnit) (member : unit ∈ units) :
    ∃ own, decode unit.code = .ok own := by
  obtain ⟨own, encodes, -⟩ := Verify.checkCode_eq_ok (h.checked unit member) (h.small unit member)
  exact ⟨own, encodes.decoded⟩

/-- The instruction of a unit that is fetched where one starts. -/
theorem exists_own {id : ModuleId} {address : Nat} (holds : Holds units id address)
    {instruction : Instruction} (fetched : program.code.fetch address = .ok instruction) :
    ∃ (unit : LoadedUnit) (own : List Instruction) (line : Nat) (found : Instruction),
      units[id.index]? = some unit ∧ Encodes unit.code own ∧
      (∀ other ∈ own, Verify.checkReferences unit.view other = .ok ()) ∧
      own[line]? = some found ∧ instruction = found.shift (base units id.index) := by
  obtain ⟨unit, own, line, here, decoded, inside, rfl⟩ := holds
  have member := List.mem_of_getElem? here
  obtain ⟨own', encodes, -, refers⟩ :=
    Verify.checkCode_eq_ok (h.checked unit member) (h.small unit member)
  obtain rfl := Except.ok.inj (decoded.symm.trans encodes.decoded)
  have found := List.getElem?_eq_getElem inside
  have section' := fetch_section h.decodes h.code here decoded found
  exact ⟨unit, own, line, _, here, encodes, refers, found,
    Except.ok.inj (fetched.symm.trans section')⟩

theorem methods_hold {id : ClassId} {key : MethodKey} {entry : MethodEntry} {address : Nat}
    {localCount : UInt16} (method : (program.catalog.get id).method? key = some entry)
    (body : entry.body = .bytecode address localCount) : Holds units entry.moduleId address :=
  have ⟨_, _, listed, _⟩ := List.lookup_eq_some_iff.mp method
  h.methods (key, entry) (Catalog.mem_methods_of_get (listed ▸ List.mem_append_cons_self)) address
    localCount body

theorem next_holds {id : ModuleId} {address : Nat} {instruction : Instruction}
    (holds : Holds units id address) (fetched : program.code.fetch address = .ok instruction) :
    Holds units id (instruction.offset + instruction.size) ∨
      instruction.offset + instruction.size = base units (id.index + 1) := by
  obtain ⟨unit, own, line, found, here, encodes, -, there, rfl⟩ := h.exists_own holds fetched
  have offset := (decode_eq_ok_iff.mp encodes.decoded).1.offset there
  have behind : (found.shift (base units id.index)).offset +
      (found.shift (base units id.index)).size = base units id.index + boundary own (line + 1) := by
    rw [Instruction.offset_shift, Instruction.size_shift, boundary_succ there, offset]
    omega
  rw [behind]
  have inside := (List.getElem?_eq_some_iff.mp there).1
  -- A last line is followed by the end of the unit, whatever it does there.
  rcases Nat.lt_or_eq_of_le (Nat.succ_le_of_lt inside) with more | last
  · exact .inl ⟨unit, own, line + 1, here, encodes.decoded, more, rfl⟩
  · right
    rw [base_succ here, length_eq_boundary encodes.decoded]
    exact congrArg (fun line => _ + boundary own line) last

theorem targets_hold {id : ModuleId} {address : Nat} {instruction : Instruction}
    (holds : Holds units id address) (fetched : program.code.fetch address = .ok instruction)
    {distance : Int32} (encoded : some distance ∈ instruction.operand.encodedDistances) :
    Holds units id (instruction.target distance) := by
  obtain ⟨unit, own, line, found, here, encodes, -, there, rfl⟩ := h.exists_own holds fetched
  obtain ⟨target, inside, -, leads⟩ :=
    encodes.closed found (List.mem_of_getElem? there) distance encoded
  refine ⟨unit, own, target, here, encodes.decoded, inside, ?_⟩
  unfold Instruction.target
  rw [Instruction.offset_shift]
  omega

theorem refers_hold {id : ModuleId} {address : Nat} {instruction : Instruction}
    (holds : Holds units id address) (fetched : program.code.fetch address = .ok instruction)
    {table : ReferenceTable} (refers : instruction.opcode.references = some table)
    (listed : table ≠ .locals) : (program.moduleOf id).Has table instruction.index := by
  obtain ⟨unit, own, line, found, here, encodes, checked, there, rfl⟩ := h.exists_own holds fetched
  have member := List.mem_of_getElem? there
  have sound := (decode_eq_ok_iff.mp encodes.decoded).1.wellFormed found member
  have tables := forall₂_getElem? h.tables id.index
  rw [here] at tables
  obtain ⟨record, place, fits⟩ := exists_of_rel_some tables
  rw [Array.getElem?_toList] at place
  have own : program.moduleOf id = record := by
    rw [moduleOf, Array.getD_eq_getD_getElem?, place, Option.getD_some]
  rw [own]
  exact Verify.has_of_checkReferences (checked found member) sound fits refers listed

end Composed

/-- The regions of a composed program are the places of the code of its units. -/
def Composed.regions {program : Program} {units : List LoadedUnit} (h : program.Composed units) :
    Regions program where
  Holds := Holds units
  stop id := base units (id.index + 1)
  entry := h.entry
  methods := h.methods_hold
  next := h.next_holds
  targets := h.targets_hold
  refers := h.refers_hold

end Program

/-! ## Linking -/

namespace Link

/-- The entry sequence as a unit. It refers to a class and a method, whatever their names are. -/
def entryUnit (takesArgs : Bool) : LoadedUnit where
  code := entrySequence takesArgs
  view := {
    moduleName := entryModuleName
    uses := #[]
    classes := #[]
    enums := #[]
    strings := []
    classRefs := [""]
    fieldAccesses := []
    methodCalls := [⟨mainName, 0⟩] }

theorem checked_entryUnit (takesArgs : Bool) : (entryUnit takesArgs).Checked := by
  unfold LoadedUnit.Checked
  cases takesArgs <;> decide +kernel

theorem base_append {units : List LoadedUnit} (more : List LoadedUnit) {place : Nat}
    (within : place ≤ units.length) : base (units ++ more) place = base units place := by
  rw [base, List.take_append_of_le_length within, base]

def Declares (unit : LoadedUnit) (qualified : String) (header : MethodHeader) : Prop :=
  ∃ info ∈ unit.view.classes.toList, qualified = unit.view.moduleName ++ "." ++ info.name ∧
    ∃ method ∈ info.methods.toList, header = method.header

/-- The methods that units declare, with the addresses of their units. -/
def DeclaredIn (units : List LoadedUnit) (moduleId : ModuleId) (start : Nat) (qualified : String)
    (header : MethodHeader) : Prop :=
  ∃ unit, units[moduleId.index]? = some unit ∧ start = base units moduleId.index ∧
    Declares unit qualified header

/-- The methods of a checked unit start where its instructions do. -/
theorem DeclaredIn.exists_line {units : List LoadedUnit} (checked : ∀ unit ∈ units, unit.Checked)
    (small : ∀ unit ∈ units, unit.code.length < 0x8000000000000000) {moduleId : ModuleId}
    {start : Nat} {qualified : String} {header : MethodHeader}
    (given : DeclaredIn units moduleId start qualified header) :
    ∃ unit own line, units[moduleId.index]? = some unit ∧ decode unit.code = .ok own ∧
      line < own.length ∧ Declares unit qualified header ∧
      header.codeOffset.toNat = boundary own line ∧ start = base units moduleId.index := by
  obtain ⟨unit, here, start, info, listed, named, method, own, rfl⟩ := given
  have member := List.mem_of_getElem? here
  obtain ⟨instructions, encodes, methods, -⟩ :=
    Verify.checkCode_eq_ok (checked unit member) (small unit member)
  obtain ⟨line, below, starts⟩ := methods info listed method own
  exact ⟨unit, instructions, line, here, encodes.decoded, below,
    ⟨info, listed, named, method, own, rfl⟩, starts, start⟩

theorem keeps_link (facades : List Facade) (units : List LoadedUnit) :
    Keeps (DeclaredIn units) (fun program => ∃ assembly : Assembly,
        List.Forall₂ (fun unit record => record.Fits unit.view) units assembly.records ∧
        Keeps.Whole (DeclaredIn units) assembly (wholeCode units (assembly.mainKey.arity == 1))
          (units.flatMap (·.code)).length program) (link facades false units) := by
  refine .of_link facades ?_
  rintro ⟨⟨unit, start⟩, index⟩ here info listed method own
  have zipped := List.getElem?_zip_eq_some.mp (List.mem_zipIdx_iff_getElem?.mp here)
  have inside := (List.getElem?_eq_some_iff.mp zipped.1).1
  have scanned := zipped.2
  rw [getElem?_scanl units 0 index (Nat.le_of_lt inside), Nat.zero_add] at scanned
  obtain rfl := Option.some.inj scanned
  exact ⟨unit, zipped.1, rfl, info, listed, rfl, method, own, rfl⟩

/-- Checked units and the entry sequence are the sections of the program that is put together from
them. -/
theorem composed_of_whole {units : List LoadedUnit} (checked : ∀ unit ∈ units, unit.Checked)
    (small : ∀ unit ∈ units, unit.code.length < 0x8000000000000000) {assembly : Assembly}
    {program : Program}
    (fits : List.Forall₂ (fun unit (record : ModuleRecord) => record.Fits unit.view) units
      assembly.records)
    (whole : Keeps.Whole (DeclaredIn units) assembly
      (wholeCode units (assembly.mainKey.arity == 1)) (units.flatMap (·.code)).length program) :
    program.Composed (units ++ [entryUnit program.mainTakesArgs]) := by
  obtain ⟨code, entry, entryModule, takesArgs, ⟨record, modules, sizes⟩, declared⟩ := whole
  rw [← takesArgs] at code
  generalize program.mainTakesArgs = takesArgs at code ⊢
  obtain ⟨instructions, exit, encodes, -⟩ := encodes_entrySequence takesArgs
  refine ⟨?checked, ?small, ?code, ?tables, fun method member address localCount body => ?_, ?entry⟩
  case checked =>
    refine List.forall_mem_append.mpr ⟨checked, List.forall_mem_singleton.mpr ?_⟩
    exact checked_entryUnit takesArgs
  case small =>
    refine List.forall_mem_append.mpr ⟨small, List.forall_mem_singleton.mpr ?_⟩
    exact Nat.lt_of_le_of_lt (length_entrySequence_le takesArgs) (by decide)
  case code =>
    rw [code, List.flatMap_append, List.flatMap_singleton]
    rfl
  case tables =>
    rw [modules]
    exact List.rel_append fits (.cons sizes .nil)
  case entry =>
    rw [entryModule, entry, ← fits.length_eq]
    refine ⟨entryUnit takesArgs, instructions ++ [exit], 0, ?_, encodes.decoded, by simp, ?_⟩
    · rw [List.getElem?_append_right (Nat.le_refl _), Nat.sub_self]
      rfl
    · rw [base_append _ (Nat.le_refl _), base, List.take_length]
      rfl
  · rcases declared method member with native | ⟨start, _, _, given, -, -, placed⟩
    · cases native.symm.trans body
    · obtain ⟨unit, own, line, here, decoded, inside, -, starts, rfl⟩ :=
        given.exists_line checked small
      have within := (List.getElem?_eq_some_iff.mp here).1
      cases placed.symm.trans body
      refine ⟨unit, own, line, ?_, decoded, inside, ?_⟩
      · rw [List.getElem?_append_left within]
        exact here
      · rw [base_append _ (Nat.le_of_lt within), starts]

/-- What linking without shrinking puts together. -/
theorem whole_of_link {facades : List Facade} {units : List LoadedUnit} {program : Program}
    (linked : Program.link facades false units = .ok program) :
    ∃ assembly : Assembly,
      List.Forall₂ (fun unit record => record.Fits unit.view) units assembly.records ∧
      Keeps.Whole (DeclaredIn units) assembly (wholeCode units (assembly.mainKey.arity == 1))
        (units.flatMap (·.code)).length program := by
  unfold Program.link at linked
  cases result : link facades false units ⟨.empty, .empty⟩ with
  | error fault linkage =>
      rw [result] at linked
      cases linked
  | ok program' linkage =>
      rw [result] at linked
      obtain rfl := Except.ok.inj linked
      exact ((keeps_link facades units).of_ok Linkage.declared_empty result).1

theorem composed_of_link {facades : List Facade} {units : List LoadedUnit}
    (checked : ∀ unit ∈ units, unit.Checked)
    (small : ∀ unit ∈ units, unit.code.length < 0x8000000000000000) {program : Program}
    (linked : Program.link facades false units = .ok program) :
    program.Composed (units ++ [entryUnit program.mainTakesArgs]) :=
  have ⟨_, fits, whole⟩ := whole_of_link linked
  composed_of_whole checked small fits whole

end Link

end ObjectMachine
