import ObjectMachine.Proofs.Program.Grid
import ObjectMachine.Proofs.Program.Sections

/-!
# Linking joins streams

The stream of a program has the instructions of its units one behind the other, and those of the
entry sequence behind them. Distances lead to where they led in their unit, and methods start where
their declarations say, whether or not branches have been shrunk.
-/

namespace ObjectMachine

open Code

/-! ## Instructions of two streams -/

namespace Operand

theorem matches_self {tie : Int32 → Int32 → Prop} {operand : Operand}
    (h : ∀ distance, some distance ∈ operand.encodedDistances → tie distance distance) :
    operand.Matches tie operand := by
  cases operand with
  | offset distance => exact h _ List.mem_cons_self
  | table distances =>
      exact List.forall₂_same.mpr fun distance member => h _ (List.mem_map_of_mem member)
  | tryPair onCatch onFinally =>
      refine ⟨Iff.rfl, fun there => h _ ?_, h _ ?_⟩
      · simp [encodedDistances, there]
      · simp [encodedDistances]
  | _ => rfl

theorem Matches.trans {tie tie' : Int32 → Int32 → Prop} {first second third : Operand}
    (h : first.Matches tie second) (h' : second.Matches tie' third) :
    first.Matches (fun distance distance'' => ∃ distance', tie distance distance' ∧
      tie' distance' distance'') third := by
  cases first with
  | offset distance =>
      cases second with
      | offset distance' =>
          cases third with
          | offset distance'' => exact ⟨distance', h, h'⟩
          | _ => cases h'
      | _ => cases h
  | table distances =>
      cases second with
      | table distances' =>
          cases third with
          | table distances'' => exact forall₂_trans h h'
          | _ => cases h'
      | _ => cases h
  | tryPair onCatch onFinally =>
      cases second with
      | tryPair onCatch' onFinally' =>
          cases third with
          | tryPair onCatch'' onFinally'' =>
              refine ⟨h.1.trans h'.1, fun there => ⟨onCatch', h.2.1 there, h'.2.1 ?_⟩,
                onFinally', h.2.2, h'.2.2⟩
              exact (not_congr h.1).mp there
          | _ => cases h'
      | _ => cases h
  | _ =>
      cases (show _ = second from h)
      exact h'

end Operand

/-- Whether two instructions do the same to the same, apart from widths and distances of
branches. -/
structure Instruction.Alike (instruction instruction' : Instruction) : Prop where
  opcode : instruction'.opcode = instruction.opcode
  operand : instruction.operand.Matches (fun _ _ => True) instruction'.operand
  same : instruction.opcode.shape.isBranch = false →
    instruction'.width = instruction.width ∧ instruction'.operand = instruction.operand

namespace Instruction.Alike

theorem refl (instruction : Instruction) : instruction.Alike instruction :=
  ⟨rfl, Operand.matches_self fun _ _ => trivial, fun _ => ⟨rfl, rfl⟩⟩

theorem shift {instruction instruction' : Instruction} (h : instruction.Alike instruction')
    (bytes : Nat) : instruction.Alike (instruction'.shift bytes) :=
  ⟨h.opcode, h.operand, h.same⟩

theorem trans {first second third : Instruction} (h : first.Alike second)
    (h' : second.Alike third) : first.Alike third where
  opcode := h'.opcode.trans h.opcode
  operand := (h.operand.trans h'.operand).imp fun _ _ _ _ => trivial
  same fixed :=
    have before := h.same fixed
    have after := h'.same (h.opcode ▸ fixed)
    ⟨after.1.trans before.1, after.2.trans before.2⟩

end Instruction.Alike

namespace Code

def LineAt (instructions : List Instruction) (line : Nat) (address : Nat) : Prop :=
  ∃ instruction, instructions[line]? = some instruction ∧ instruction.offset = address

theorem lineAt_iff {code : Bytes} {instructions : List Instruction}
    (decoded : decode code = .ok instructions) {line address : Nat} :
    LineAt instructions line address ↔
      line < instructions.length ∧ address = boundary instructions line := by
  have laid := (decode_eq_ok_iff.mp decoded).1
  constructor
  · rintro ⟨instruction, found, rfl⟩
    exact ⟨(List.getElem?_eq_some_iff.mp found).1, (laid.offset found).trans (Nat.zero_add _)⟩
  · rintro ⟨inside, rfl⟩
    have found := List.getElem?_eq_getElem inside
    exact ⟨_, found, (laid.offset found).trans (Nat.zero_add _)⟩

/-- Whether distances of an instruction of a unit and of one of a program lead to the same
instruction, the lines of the unit being those of the program from a line on. -/
def SameTarget (own instructions : List Instruction) (first : Nat)
    (instruction instruction' : Instruction) (distance distance' : Int32) : Prop :=
  ∃ line target target', LineAt own line target ∧ LineAt instructions (first + line) target' ∧
    instruction.offset + distance.toInt = (target : Int) ∧
    instruction'.offset + distance'.toInt = (target' : Int)

end Code

/-! ## Programs -/

namespace Program

open Link

/-- Whether the stream of a program is that of units in a row and of the entry sequence. -/
structure Joins (program : Program) (units : List LoadedUnit) (instructions : List Instruction) :
    Prop where
  decoded : decode program.code.bytes = .ok instructions
  units_decoded : ∀ unit ∈ units, decode unit.code = .ok (stream unit.code)
  /-- One instruction stands for each of the units and of the entry sequence. -/
  lines : List.Forall₂ Instruction.Alike
    ((units ++ [entryUnit program.mainTakesArgs]).flatMap (stream ·.code)) instructions
  /-- Distances lead to what stands for their target. -/
  targets : ∀ place unit, units[place]? = some unit → ∀ line own instruction,
    (stream unit.code)[line]? = some own →
    instructions[firstLine units place + line]? = some instruction →
    own.operand.Matches
      (SameTarget (stream unit.code) instructions (firstLine units place) own instruction)
      instruction.operand
  /-- A method of a class, be it inherited or not, starts at what stands for the instruction that
  its declaration names. -/
  methods : ∀ method ∈ program.catalog.methods, ∀ address localCount,
    method.2.body = .bytecode address localCount →
    ∃ unit qualified header line, units[method.2.moduleId.index]? = some unit ∧
      Declares unit qualified header ∧ program.catalog.Knows method.2.declaring qualified ∧
      program.symbols.Describes header method.1 method.2 ∧ localCount = header.localCount ∧
      LineAt (stream unit.code) line header.codeOffset.toNat ∧
      LineAt instructions (firstLine units method.2.moduleId.index + line) address
  /-- The program starts with the entry sequence. -/
  entry : LineAt instructions (units.flatMap (stream ·.code)).length program.entry

end Program

/-! ## Linking without shrinking -/

namespace Link

theorem firstLine_append {units : List LoadedUnit} (more : List LoadedUnit) {place : Nat}
    (within : place ≤ units.length) : firstLine (units ++ more) place = firstLine units place := by
  rw [firstLine, List.take_append_of_le_length within, firstLine]

theorem alike_of_decode {units : List LoadedUnit}
    (decodes : ∀ unit ∈ units, ∃ own, decode unit.code = .ok own) {joined : List Instruction}
    (whole : decode (units.flatMap (·.code)) = .ok joined) :
    List.Forall₂ Instruction.Alike (units.flatMap (stream ·.code)) joined := by
  induction units generalizing joined with
  | nil =>
      obtain rfl := Except.ok.inj (whole.symm.trans Encodes.nil.decoded)
      exact .nil
  | cons unit units ih =>
      obtain ⟨⟨own, decoded⟩, others⟩ := List.forall_mem_cons.mp decodes
      obtain ⟨rest, after, -⟩ := decode_flatMap units others
      obtain rfl := Except.ok.inj (whole.symm.trans (decode_append decoded after))
      rw [List.flatMap_cons, decode_stream decoded]
      refine List.rel_append ?_ (List.forall₂_map_right_iff.mpr ((ih others after).imp ?_))
      · exact List.forall₂_same.mpr fun instruction _ => .refl instruction
      · exact fun _ _ alike => alike.shift _

end Link

namespace Program.Composed

open Link

variable {program : Program} {sections : List LoadedUnit} (h : program.Composed sections)

include h

theorem encodes {unit : LoadedUnit} (member : unit ∈ sections) :
    Encodes unit.code (stream unit.code) := by
  obtain ⟨own, encodes, -⟩ := Verify.checkCode_eq_ok (h.checked unit member) (h.small unit member)
  exact (decode_stream encodes.decoded).symm ▸ encodes

variable {before : List Instruction} (decoded : decode program.code.bytes = .ok before)
  {place : Nat} {unit : LoadedUnit} (here : sections[place]? = some unit)

include decoded here

/-- A section has the lines of its unit, moved to its place. -/
theorem getElem?_line {line : Nat} {instruction : Instruction}
    (found : (stream unit.code)[line]? = some instruction) :
    before[firstLine sections place + line]? = some (instruction.shift (base sections place)) :=
  getElem?_section h.decodes here (h.encodes (List.mem_of_getElem? here)).decoded found
    (h.code ▸ decoded)

theorem lineAt {line address : Nat} (found : LineAt (stream unit.code) line address) :
    LineAt before (firstLine sections place + line) (base sections place + address) := by
  obtain ⟨instruction, found, rfl⟩ := found
  exact ⟨_, h.getElem?_line decoded here found, rfl⟩

/-- The targets of a section move along with the branches. -/
theorem sameTarget {line : Nat} {own : Instruction} (found : (stream unit.code)[line]? = some own)
    {distance : Int32} (encoded : some distance ∈ own.operand.encodedDistances) :
    SameTarget (stream unit.code) before (firstLine sections place) own
      (own.shift (base sections place)) distance distance := by
  have encodes := h.encodes (List.mem_of_getElem? here)
  obtain ⟨target, inside, -, leads⟩ :=
    encodes.closed own (List.mem_of_getElem? found) distance encoded
  have named := (lineAt_iff encodes.decoded).mpr ⟨inside, rfl⟩
  refine ⟨target, _, _, named, h.lineAt decoded here named, leads, ?_⟩
  rw [Instruction.offset_shift]
  omega

end Program.Composed

namespace Link

/-- The program that is linked without shrinking has the streams of its units, each moved to its
place. -/
theorem joins_of_link {units : List LoadedUnit} (checked : ∀ unit ∈ units, unit.Checked)
    (small : ∀ unit ∈ units, unit.code.length < 0x8000000000000000) {facades : List Facade}
    {program : Program} (linked : Program.link facades false units = .ok program)
    {before : List Instruction} (decoded : decode program.code.bytes = .ok before) :
    program.Joins units before := by
  obtain ⟨assembly, fits, whole⟩ := whole_of_link linked
  have composed := composed_of_link checked small linked
  have section' {place : Nat} {unit : LoadedUnit} (here : units[place]? = some unit) :
      (units ++ [entryUnit program.mainTakesArgs])[place]? = some unit ∧
        place ≤ units.length := by
    have inside := (List.getElem?_eq_some_iff.mp here).1
    exact ⟨(List.getElem?_append_left inside).trans here, Nat.le_of_lt inside⟩
  refine ⟨decoded, fun unit member => ?units, ?lines, ?targets, ?methods, ?entry⟩
  case units => exact (composed.encodes (List.mem_append_left _ member)).decoded
  case lines => exact alike_of_decode composed.decodes (composed.code ▸ decoded)
  case targets =>
    intro place unit here line own instruction found there
    obtain ⟨here, within⟩ := section' here
    rw [← firstLine_append [entryUnit program.mainTakesArgs] within] at there ⊢
    obtain rfl := Option.some.inj ((composed.getElem?_line decoded here found).symm.trans there)
    exact Operand.matches_self fun distance encoded =>
      composed.sameTarget decoded here found encoded
  case methods =>
    intro method member address localCount body
    rcases whole.declared method member with native | ⟨_, _, header, given, named, described, own⟩
    · cases native.symm.trans body
    · obtain ⟨unit, lines, line, here, decoded', inside, declares, offset, rfl⟩ :=
        given.exists_line checked small
      cases own.symm.trans body
      have found : LineAt (stream unit.code) line header.codeOffset.toNat := by
        rw [decode_stream decoded']
        exact (lineAt_iff decoded').mpr ⟨inside, offset⟩
      refine ⟨unit, _, header, line, here, declares, named, described, rfl, found, ?_⟩
      obtain ⟨here, within⟩ := section' here
      rw [← firstLine_append [entryUnit program.mainTakesArgs] within,
        ← base_append [entryUnit program.mainTakesArgs] within]
      exact composed.lineAt decoded here found
  case entry =>
    have last : (units ++ [entryUnit program.mainTakesArgs])[units.length]? =
        some (entryUnit program.mainTakesArgs) := List.getElem?_concat_length
    obtain ⟨instructions, exit, sequence, -⟩ := encodes_entrySequence program.mainTakesArgs
    have begins : LineAt (stream (entryUnit program.mainTakesArgs).code) 0 0 := by
      rw [entryUnit, decode_stream sequence.decoded]
      exact (lineAt_iff sequence.decoded).mpr ⟨by simp, (boundary_zero _).symm⟩
    have starts := composed.lineAt decoded last begins
    rw [firstLine_append _ (Nat.le_refl _), firstLine, base_append _ (Nat.le_refl _), base,
      List.take_length] at starts
    rw [whole.entry]
    exact starts

end Link

/-! ## Shrinking -/

namespace Program.Shrinks

variable {before after : List Instruction} {plain shrunk : Program}
  (h : plain.Shrinks before after shrunk)

include h

theorem alike : List.Forall₂ Instruction.Alike before after :=
  h.counterparts.imp fun _ _ counterpart => ⟨counterpart.opcode_eq,
    counterpart.operand.imp fun _ _ _ _ => trivial, counterpart.same⟩

/-- Lines keep their numbers. -/
theorem lineAt {line address address' : Nat} (here : LineAt before line address)
    (same : SameLine before after address address') : LineAt after line address' := by
  obtain ⟨other, inside, rfl, rfl⟩ := same
  obtain ⟨within, starts⟩ := (lineAt_iff h.encodes.decoded).mp here
  obtain rfl := boundary_inj (Nat.le_of_lt inside) (Nat.le_of_lt within) starts
  exact (lineAt_iff h.decoded).mpr ⟨h.length.symm ▸ inside, rfl⟩

/-- What leads to a target of a unit still does. -/
theorem sameTarget {lines : List Instruction} {first line : Nat}
    {own instruction instruction' : Instruction} (here : before[line]? = some instruction)
    (there : after[line]? = some instruction')
    (targets : own.operand.Matches (SameTarget lines before first own instruction)
      instruction.operand) :
    own.operand.Matches (SameTarget lines after first own instruction') instruction'.operand := by
  have tied := forall₂_getElem? h.counterparts line
  rw [here, there] at tied
  obtain ⟨_, same, counterpart⟩ := exists_of_rel_some tied
  obtain rfl := Option.some.inj same
  refine (targets.trans counterpart.operand).imp ?_
  rintro distance _ - ⟨between, ⟨number, target, target', named, placed, leads, leads'⟩,
    other, ⟨within, reaches⟩, -, reaches'⟩
  obtain ⟨inside, starts⟩ := (lineAt_iff h.encodes.decoded).mp placed
  obtain rfl : other = first + number :=
    boundary_inj within (Nat.le_of_lt inside) (by omega)
  exact ⟨number, target, _, named,
    (lineAt_iff h.decoded).mpr ⟨h.length.symm ▸ inside, rfl⟩, leads, reaches'⟩

theorem exists_method {method' : MethodKey × MethodEntry}
    (member : method' ∈ shrunk.catalog.methods) :
    ∃ method ∈ plain.catalog.methods,
      method.1 = method'.1 ∧ method.2.Similar (SameLine before after) method'.2 := by
  have methods : MethodsSimilar (SameLine before after) plain.catalog.methods
      shrunk.catalog.methods :=
    List.rel_flatMap h.similar.catalog fun _ _ info => info.methods
  exact exists_of_mem_right methods member

theorem knows {id : ClassId} {qualified : String} (named : plain.catalog.Knows id qualified) :
    shrunk.catalog.Knows id qualified := by
  have classes := forall₂_getElem? h.similar.catalog id.index
  rw [Array.getElem?_toList, Array.getElem?_toList] at classes
  obtain ⟨info, found, rfl⟩ := Option.map_eq_some_iff.mp named
  rw [found] at classes
  obtain ⟨info', found', same⟩ := exists_of_rel_some classes
  rw [Catalog.Knows, found', Option.map_some, same.qualified]

/-- A shrunk program is joined from the same units. -/
theorem joins {units : List LoadedUnit} (joined : plain.Joins units before) :
    shrunk.Joins units after := by
  refine ⟨h.decoded, joined.units_decoded, ?lines, ?targets, ?methods, ?entry⟩
  case lines =>
    rw [← h.mainTakesArgs]
    refine (forall₂_trans joined.lines h.alike).imp ?_
    rintro _ _ ⟨_, first, second⟩
    exact first.trans second
  case targets =>
    intro place unit here line own instruction' found there
    have inside := (List.getElem?_eq_some_iff.mp there).1
    have between := List.getElem?_eq_getElem (h.length ▸ inside)
    exact h.sameTarget between there (joined.targets place unit here line own _ found between)
  case methods =>
    intro method' member address' localCount body'
    obtain ⟨method, listed, key, similar⟩ := h.exists_method member
    have bodies := similar.body
    rw [body'] at bodies
    cases body : method.2.body with
    | native =>
        rw [body] at bodies
        exact bodies.elim
    | bytecode address count =>
        rw [body] at bodies
        obtain ⟨moved, rfl⟩ := bodies
        obtain ⟨unit, qualified, header, line, here, declares, named, described, locals, offset,
          starts⟩ := joined.methods method listed address count body
        rw [← key, ← similar.moduleId, ← similar.declaring, ← h.similar.symbols]
        exact ⟨unit, qualified, header, line, here, declares, h.knows named,
          ⟨described.name, described.arity, similar.argCount.symm.trans described.argCount,
            similar.isStatic.symm.trans described.isStatic⟩, locals, offset,
          h.lineAt starts moved⟩
  case entry => exact h.lineAt joined.entry h.entry

end Program.Shrinks

namespace Program

/-- **Linking joins streams.** The stream of a program is that of its verified units, one behind
the other, and of the entry sequence, whether or not branches are shrunk: opcodes and operands are
the same, distances lead to what they led to in their unit, methods start where their declarations
say, and the program starts with the entry sequence. -/
theorem link_joins {units : List LoadedUnit} (verified : ∀ unit ∈ units, unit.Verified)
    (small : (units.flatMap (·.code)).length < 0x80000000) {facades : List Facade}
    {optimize : Bool} {program : Program} (linked : link facades optimize units = .ok program) :
    ∃ instructions, program.Joins units instructions := by
  have checked (unit : LoadedUnit) (member : unit ∈ units) : unit.Checked :=
    (verified unit member).checked
  have fits (unit : LoadedUnit) (member : unit ∈ units) :
      unit.code.length < 0x8000000000000000 := by
    have within := LoadedUnit.length_code_le member
    omega
  obtain ⟨before, after, plain, shrunk, plainly, shrinks, rfl⟩ :=
    Link.exists_shrinks_of_link checked (by omega) linked
  have joined := Link.joins_of_link checked fits plainly shrinks.encodes.decoded
  cases optimize with
  | false => exact ⟨before, joined⟩
  | true => exact ⟨after, shrinks.joins joined⟩

/-- A module with a main method, and one behind it with a class from which the main class inherits
a method. The method starts at a jump back to the instruction before it. -/
def inheriting : List LoadedUnit :=
  let app : List MetaRecord := [
    .moduleHeader "app" 0 0 0 0,
    .use "lib",
    .classHeader ⟨"Main", "Base", 0, 0, 1, .plain⟩,
    .method ⟨"main", 1, 0, false, 0, 0, true⟩,
    .finish]
  let lib : List MetaRecord := [
    .moduleHeader "lib" 0 0 0 0,
    .classHeader ⟨"Base", "", 0, 0, 1, .plain⟩,
    .method ⟨"spin", 1, 1, false, 0, 0, true⟩,
    .finish]
  [⟨MetaRecord.encodeAll app, [
      0x52, 0, 0, 0, 0]⟩,  -- jmp, to itself
    ⟨MetaRecord.encodeAll lib, [
      0x00,                            -- nop
      0x52, 0xff, 0xff, 0xff, 0xff]⟩]  -- jmp, to the nop
    |>.filterMap LoadedUnit.verified?

/-- Both jumps get shorter, and the method of both classes moves from address 6 to 3. -/
theorem link_joins_inheriting :
    ∃ program instructions, link [] true inheriting = .ok program ∧
      program.Joins inheriting instructions ∧ instructions.length = 6 ∧
      program.catalog.addresses = [0, 3, 3] ∧ program.entry = 5 := by
  have links : (link [] true inheriting).toOption.any (fun program =>
      (decode program.code.bytes).toOption.any (·.length == 6) &&
        program.catalog.addresses == [0, 3, 3] && program.entry == 5) := by
    decide +kernel
  cases linked : link [] true inheriting with
  | error fault =>
      rw [linked] at links
      cases links
  | ok program =>
      rw [linked] at links
      obtain ⟨instructions, joined⟩ := link_joins (fun unit => LoadedUnit.verified_of_mem)
        (by decide +kernel) linked
      refine ⟨program, instructions, rfl, joined, ?_⟩
      simpa [Except.toOption, joined.decoded, and_assoc] using links

end Program

end ObjectMachine
