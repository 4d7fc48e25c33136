import ObjectMachine.Proofs.Code.Finished
import ObjectMachine.Proofs.Compiled.Building
import ObjectMachine.Proofs.Compiled.Shrunk
import ObjectMachine.Proofs.Compiled.Written

/-!
# Built units

Classes, table keys and code may be declared in any order, and only come together when a unit is
finished. If the calls that built it name and lead to what there is, then finishing succeeds,
verification accepts the unit, and it shows what the calls declare.
-/

namespace ObjectMachine

namespace Building

open Emission (Account)

/-! ## What calls declare -/

/-- What calls declare, as the metadata of their unit show it. -/
def declared (name : String) (calls : List UnitCall) : Metadata where
  moduleName := name
  uses := (calls.filterMap UnitCall.use?).eraseDups.toArray
  classes := ((calls.filterMap UnitCall.class?).zipIdx.map fun entry =>
    (classOf calls ⟨entry.2⟩ entry.1).info).toArray
  enums := (calls.filterMap UnitCall.enumeration?).toArray
  strings := (calls.filterMap UnitCall.string?).eraseDups
  classRefs := (calls.filterMap UnitCall.classRef?).eraseDups
  fieldAccesses := (calls.filterMap UnitCall.fieldRef?).eraseDups
  methodCalls := (calls.filterMap UnitCall.methodRef?).eraseDups

theorem Drafted.view_eq {name : String} {calls : List UnitCall} {draft : UnitDraft}
    (h : Drafted name calls draft) : draft.view = declared name calls := by
  have classes : draft.classes.map ClassDeclaration.info = (declared name calls).classes := by
    apply Array.ext_getElem?
    intro index
    rw [Array.getElem?_map, h.classes index, declared, List.getElem?_toArray, List.getElem?_map,
      List.getElem?_zipIdx]
    cases (calls.filterMap UnitCall.class?)[index]? with
    | none => rfl
    | some bare => simp
  have uses : draft.uses = (declared name calls).uses := by
    rw [declared, ← h.uses, Array.toArray_toList]
  have enums : draft.enums = (declared name calls).enums := by
    rw [declared, ← h.enums, Array.toArray_toList]
  rw [UnitDraft.view, h.name, classes, uses, enums, h.strings, h.classRefs, h.fieldAccesses,
    h.methodCalls]
  rfl

theorem exists_methodsOf {name : String} {calls : List UnitCall} {info : ClassInfo}
    (listed : info ∈ (declared name calls).classes.toList) {method : MethodInfo}
    (own : method ∈ info.methods.toList) :
    ∃ index < (calls.filterMap UnitCall.class?).length, ∃ draft ∈ methodsOf ⟨index⟩ calls,
      method.header.codeOffset = UInt32.ofNat draft.codeOffset := by
  obtain ⟨⟨bare, index⟩, declares, rfl⟩ := List.mem_map.mp listed
  obtain ⟨⟨draft, number⟩, among, rfl⟩ := List.mem_map.mp own
  have inside := List.snd_lt_of_mem_zipIdx declares
  exact ⟨index, inside, draft, List.fst_mem_of_mem_zipIdx among, rfl⟩

/-! ## Numbers that refer to tables -/

theorem numberIn_le [BEq α] [LawfulBEq α] {keys : List α} {key : α} (seen : key ∈ keys)
    (small : keys.eraseDups.length < 0x100000000) :
    numberIn keys key ≠ 0 ∧ (numberIn keys key).toNat ≤ keys.eraseDups.length := by
  have inside := List.idxOf_lt_length_of_mem (List.mem_eraseDups.mpr seen)
  have same : (numberIn keys key).toNat = keys.eraseDups.idxOf key + 1 :=
    toNat_ofNat_of_lt (by omega)
  refine ⟨fun zero => ?_, by omega⟩
  rw [zero] at same
  cases same

def UnitCall.table? : UnitCall → Option ReferenceTable
  | string _ => some .strings
  | classRef _ => some .classes
  | fieldRef _ => some .fields
  | methodRef .. => some .methods
  | _ => none

theorem exists_entry {name : String} {calls : List UnitCall}
    (sized : (declared name calls).Sized) {call : UnitCall} (made : call ∈ calls)
    {table : ReferenceTable} (asks : call.table? = some table) :
    ∃ number size, call.interned? calls = some number ∧
      Verify.tableSize (declared name calls) table = some size ∧
        number ≠ 0 ∧ number.toNat ≤ size := by
  obtain ⟨strings, classRefs, fieldAccesses, methodCalls⟩ := sized.tables
  have listed {α : Type} {key? : UnitCall → Option α} {key : α} (own : key? call = some key) :
      key ∈ calls.filterMap key? := List.mem_filterMap.mpr ⟨call, made, own⟩
  cases call with
  | string value =>
      cases asks
      exact ⟨_, _, rfl, rfl, numberIn_le (listed rfl) strings⟩
  | classRef value =>
      cases asks
      exact ⟨_, _, rfl, rfl, numberIn_le (listed rfl) classRefs⟩
  | fieldRef value =>
      cases asks
      exact ⟨_, _, rfl, rfl, numberIn_le (listed rfl) fieldAccesses⟩
  | methodRef value arity =>
      cases asks
      exact ⟨_, _, rfl, rfl, numberIn_le (listed rfl) methodCalls⟩
  | _ => cases asks

/-! ## Calls that come together -/

theorem drafted_build (name : String) {calls : List UnitCall}
    (valid : UnitCall.AllValid 0 0 calls) :
    Drafted name calls (build name calls).2 ∧
      List.Forall₂ (UnitCall.Answered calls) calls (build name calls).1 := by
  obtain ⟨answers, last, run, drafted, answered⟩ := (drafted_start name).mapM valid
  rw [build, run]
  exact ⟨drafted, answered⟩

/-- Whether calls name and lead to what there is, in the sizes of the format. -/
structure Buildable (name : String) (calls : List UnitCall) : Prop where
  /-- Classes and labels are created before they are used, and opcodes are of the right kind. -/
  valid : UnitCall.AllValid 0 0 calls
  sized : (declared name calls).Sized
  small : (emission calls).position < 0x80000000
  /-- A number in the code has been given out for the table that it is looked up in. -/
  references : ∀ opcode number, .code (.index opcode number) ∈ calls →
    ∀ table, opcode.references = some table → table ≠ .locals →
      ∃ call, (call, Answer.number number) ∈ calls.zip (build name calls).1 ∧
        call.table? = some table
  /-- Every label that something branches to has been anchored. -/
  anchored : ∀ label site, ¬(emission calls).Dangling label site
  anchors : ∀ anchor ∈ (emission calls).anchors, (emission calls).Starts anchor.2
  jumps : ∀ opcode target, .code (.jumpTo opcode target) ∈ calls → (emission calls).Starts target
  methods : ∀ index < (calls.filterMap UnitCall.class?).length,
    ∀ method ∈ methodsOf ⟨index⟩ calls, (emission calls).Starts method.codeOffset

theorem exists_code_of_mem_items {calls : List UnitCall} {item : Emission.Item}
    (h : item ∈ (emission calls).items) :
    ∃ call, .code call ∈ calls ∧ call.Asks item.opcode item.form := by
  obtain ⟨call, among, asks⟩ := Emission.exists_call_of_mem_items h
  obtain ⟨made, listed, emits⟩ := List.mem_filterMap.mp among
  cases made with
  | code emitted =>
      cases emits
      exact ⟨call, listed, asks⟩
  | _ => cases emits

namespace Buildable

variable {name : String} {calls : List UnitCall} (h : Buildable name calls)

include h

theorem resolved : (emission calls).Resolved where
  anchored := h.anchored
  anchors := h.anchors
  branches item member target form := by
    obtain ⟨call, made, asks⟩ := exists_code_of_mem_items member
    rw [form] at asks
    cases asks
    exact h.jumps _ _ made

/-- A number in the code is that of an entry of its table. -/
theorem entry {opcode : Opcode} {number : UInt32} (made : .code (.index opcode number) ∈ calls)
    {table : ReferenceTable} (refers : opcode.references = some table)
    (other : table ≠ .locals) :
    ∃ size, Verify.tableSize (declared name calls) table = some size ∧
      number ≠ 0 ∧ number.toNat ≤ size := by
  obtain ⟨call, given, asks⟩ := h.references opcode number made table refers other
  obtain ⟨own, size, interned, known, bounds⟩ := exists_entry h.sized (List.of_mem_zip given).1 asks
  have answer := (List.forall₂_iff_zip.mp (drafted_build name h.valid).2).2 given _ interned
  injection answer with same
  subst same
  exact ⟨size, known, bounds⟩

theorem checkReferences {item : Emission.Item} (member : item ∈ (emission calls).items)
    (distance : Emission.Destination → Int32) :
    Verify.checkReferences (declared name calls) (item.instruction distance) = .ok () := by
  obtain ⟨call, made, asks⟩ := exists_code_of_mem_items member
  obtain ⟨offset, opcode, width, form⟩ := item
  cases form with
  | plain operand =>
      cases operand with
      | index number =>
          dsimp only [Verify.checkReferences, Emission.Item.instruction, Emission.Form.resolve]
          split
          · next table size found =>
              obtain ⟨own, refers, found⟩ := Option.bind_eq_some_iff.mp found
              obtain ⟨count, known, same⟩ := Option.bind_eq_some_iff.mp found
              cases same
              have other : table ≠ .locals := by
                rintro rfl
                cases known
              rcases asks with rfl | locals
              · obtain ⟨count, known', nonzero, inside⟩ := h.entry made refers other
                cases known.symm.trans known'
                exact if_neg (not_or.mpr ⟨nonzero, Nat.not_lt.mpr inside⟩)
              · cases refers.symm.trans locals
                exact absurd rfl other
          · rfl
      | byte value =>
          refine if_neg ?_
          rintro ⟨converts, unknown⟩
          obtain ⟨kind, rfl⟩ := asks converts
          rw [Kind.ofCode_code] at unknown
          cases unknown
      | _ => rfl
  | branch destination => rfl
  | cases labels => rfl
  | bodies onCatch onFinally => rfl

/-- Verification accepts the code that the calls emit. -/
theorem checkCode :
    Verify.checkCode (Code.encode (emission calls).instructions) (declared name calls) =
      .ok () := by
  have sound := (drafted_build name h.valid).1.sound
  have encodes := sound.encodes_instructions h.resolved h.small
  have small := h.small
  refine Verify.checkCode_of_encodes encodes ?_ ?_ ?_
  · rw [sound.length_encode_instructions]
    omega
  · intro info listed method own
    obtain ⟨index, inside, draft, among, offset⟩ := exists_methodsOf listed own
    have starts := h.methods index inside draft among
    have before := sound.lt_position starts
    rw [offset, toNat_ofNat_of_lt (by omega)]
    exact sound.starts_instructions h.resolved h.small starts
  · intro instruction listed
    obtain ⟨item, member, rfl⟩ := List.mem_map.mp listed
    exact h.checkReferences member _

end Buildable

/-- **Building a unit.** Calls that come together make a unit that verification accepts, and what it
shows is what they declare. Every call that asks for a number gets the one of its key. -/
theorem build_verifies {name : String} {calls : List UnitCall} (h : Buildable name calls) :
    ∃ unit, (build name calls).2.finish = .ok unit ∧ unit.verify = .ok (declared name calls) ∧
      List.Forall₂ (UnitCall.Answered calls) calls (build name calls).1 := by
  obtain ⟨drafted, answered⟩ := drafted_build name h.valid
  have viewed := drafted.view_eq
  have sized := h.sized
  rw [← viewed] at sized
  have finished := drafted.follows.finish_eq_ok drafted.sound h.resolved h.small
  refine ⟨⟨MetaRecord.encodeAll (build name calls).2.records,
    Code.encode (emission calls).instructions⟩, ?_, ?_, answered⟩
  · exact Except.bind_eq_ok_iff.mpr ⟨_, finished, rfl⟩
  · refine CompiledUnit.verify_eq_ok_iff.mpr ⟨?_, h.checkCode⟩
    rw [← viewed]
    exact Except.bind_eq_ok_iff.mpr
      ⟨_, UnitDraft.decodeAll_records sized, UnitDraft.ofRecords_records sized⟩

/-- A loop in the second of two methods, whose class is declared before another one and gets its
last members after it. -/
def mixedCalls : List UnitCall :=
  [.use "lib", .declareClass "Main" (some "Base") .plain, .string "hello",
    .method ⟨0⟩ "main" 0 1 true, .localName ⟨0⟩ "i" 1, .code (.index .pushString 1),
    .code (.op .ret), .declareClass "Other" none (.implicit "T"), .use "lib", .code .newLabel,
    .fieldRef "x", .method ⟨0⟩ "loop" 1 2 false, .code (.anchor ⟨0⟩), .field ⟨1⟩ "x",
    .staticField ⟨0⟩ "y", .code (.index .loadField 1), .string "hello", .code (.branch .jf ⟨0⟩),
    .enumeration "E" [("first", 0)], .code (.jumpTo .jmp 2), .methodRef "main" 0]

theorem build_verifies_mixed :
    Buildable "m" mixedCalls ∧ ∃ unit, (build "m" mixedCalls).2.finish = .ok unit ∧
      unit.verify = .ok (declared "m" mixedCalls) ∧
      List.Forall₂ (UnitCall.Answered mixedCalls) mixedCalls (build "m" mixedCalls).1 := by
  have valid : UnitCall.AllValid 0 0 mixedCalls := by decide
  have answers : (build "m" mixedCalls).1[2]? = some (.number 1) ∧
      (build "m" mixedCalls).1[10]? = some (.number 1) := by decide +kernel
  have given (place : Nat) {call : UnitCall} {answer : Answer}
      (made : mixedCalls[place]? = some call)
      (answered : (build "m" mixedCalls).1[place]? = some answer) :
      (call, answer) ∈ mixedCalls.zip (build "m" mixedCalls).1 :=
    List.mem_of_getElem? (List.getElem?_zip_eq_some.mpr ⟨made, answered⟩)
  have buildable : Buildable "m" mixedCalls := {
    valid := valid
    sized := ⟨by decide +kernel, by decide +kernel, by decide +kernel, by decide +kernel,
      by decide +kernel⟩
    small := by decide +kernel
    references := fun opcode number made table refers other => by
      have either : (opcode = .pushString ∧ number = 1) ∨ (opcode = .loadField ∧ number = 1) := by
        simpa [mixedCalls] using made
      obtain ⟨rfl, rfl⟩ | ⟨rfl, rfl⟩ := either
      · cases refers
        exact ⟨.string "hello", given 2 rfl answers.1, rfl⟩
      · cases refers
        exact ⟨.fieldRef "x", given 10 rfl answers.2, rfl⟩
    anchored := fun label site dangling => by
      cases label with
      | zero => exact absurd dangling.1 (by decide +kernel)
      | succ label =>
          have sound := (drafted_build "m" valid).1.sound
          have unused := sound.toScoped.sites_eq_nil (Nat.le_add_left 1 label)
          rw [Account.Dangling, unused] at dangling
          cases dangling.2
    anchors := by decide +kernel
    jumps := fun opcode target made => by
      obtain ⟨rfl, rfl⟩ : opcode = .jmp ∧ target = 2 := by simpa [mixedCalls] using made
      decide +kernel
    methods := by decide +kernel }
  exact ⟨buildable, build_verifies buildable⟩

end Building

end ObjectMachine
