import ObjectMachine.Proofs.Code.Settled
import ObjectMachine.Proofs.Compiled.Relocated
import ObjectMachine.Proofs.Program.Checked

/-!
# Shrinking a unit

A unit whose branches are shrunk shows what it showed before, with its methods at the places to
which their first instructions have moved. If it was sound it still is: its branches lead to
instructions, and these refer to what they referred to.
-/

namespace ObjectMachine

open Code

namespace CompiledUnit

/-- Shrinking a unit shrinks its code and moves its methods along. -/
theorem shrink_eq_ok_iff {unit : CompiledUnit} {shrunk : ShrunkUnit} :
    unit.shrink = .ok shrunk ↔ ∃ records code, unit.records = .ok records ∧
      Code.shrink unit.code (records.filterMap MetaRecord.codeOffset?) = .ok code ∧
      shrunk = ⟨⟨MetaRecord.encodeAll (MetaRecord.moveMethods records code.entryPoints), code.code⟩,
        code.passes, code.bytesSaved⟩ := by
  constructor
  · intro h
    obtain ⟨records, read, h⟩ := Except.bind_eq_ok_iff.mp h
    obtain ⟨code, shrinks, h⟩ := Except.bind_eq_ok_iff.mp h
    exact ⟨records, code, Except.mapError_eq_ok_iff.mp read, Except.mapError_eq_ok_iff.mp shrinks,
      (Except.ok.inj h).symm⟩
  · rintro ⟨records, code, read, shrinks, rfl⟩
    exact Except.bind_eq_ok_iff.mpr ⟨records, Except.mapError_eq_ok_iff.mpr read,
      Except.bind_eq_ok_iff.mpr ⟨code, Except.mapError_eq_ok_iff.mpr shrinks, rfl⟩⟩

theorem view_shrink {unit : CompiledUnit} {view : Metadata} {shrunk : ShrunkUnit}
    (viewed : unit.view = .ok view) (h : unit.shrink = .ok shrunk) :
    ∃ view' before after, shrunk.unit.view = .ok view' ∧ Code.decode unit.code = .ok before ∧
      Code.decode shrunk.unit.code = .ok after ∧
      List.Forall₂ (Counterpart before after) before after ∧
      view.Relocated (Moved before after) view' := by
  obtain ⟨records, code, read, shrinks, rfl⟩ := shrink_eq_ok_iff.mp h
  obtain ⟨own, read', accepted⟩ := Except.bind_eq_ok_iff.mp viewed
  obtain rfl := Except.ok.inj (read.symm.trans read')
  obtain ⟨before, after, decoded, decoded', counterparts, moved⟩ := exists_counterparts shrinks
  have records' := MetaRecord.relocated_moveMethods moved
  obtain ⟨view', accepted', relocated⟩ := Metadata.ofRecords_relocated accepted records'
  have viewed' := Except.bind_eq_ok_iff.mpr
    ⟨_, MetaRecord.decodeAll_relocated read records', accepted'⟩
  exact ⟨view', before, after, viewed', decoded, decoded', counterparts, relocated⟩

end CompiledUnit

theorem Operand.Matches.eq_index {tie : Int32 → Int32 → Prop} {operand : Operand} {number : UInt32}
    (h : operand.Matches tie (.index number)) : operand = .index number := by
  cases operand <;> cases h
  rfl

theorem Operand.Matches.eq_byte {tie : Int32 → Int32 → Prop} {operand : Operand} {value : UInt8}
    (h : operand.Matches tie (.byte value)) : operand = .byte value := by
  cases operand <;> cases h
  rfl

/-- Instructions refer to the same entries when their branches are shrunk. -/
theorem Verify.checkReferences_of_counterpart {before after : List Instruction}
    {instruction instruction' : Instruction} {view view' : Metadata}
    (h : Counterpart before after instruction instruction')
    (tables : tableSize view' = tableSize view)
    (refers : checkReferences view instruction = .ok ()) :
    checkReferences view' instruction' = .ok () := by
  have operands := h.operand
  have referred : referredTable view' = referredTable view := by
    funext opcode
    rw [referredTable, referredTable, tables]
  unfold checkReferences at refers ⊢
  rw [referred, h.opcode_eq]
  cases same : instruction'.operand with
  | index number =>
      rw [same] at operands
      rw [operands.eq_index] at refers
      dsimp only at refers ⊢
      split at refers
      · split at refers
        · cases refers
        · next keeps => rw [if_neg keeps]
      · rfl
  | byte code =>
      rw [same] at operands
      rw [operands.eq_byte] at refers
      dsimp only at refers ⊢
      split at refers
      · cases refers
      · next keeps => rw [if_neg keeps]
  | _ => rfl

namespace CompiledUnit

theorem verify_eq_ok_iff {unit : CompiledUnit} {view : Metadata} :
    unit.verify = .ok view ↔ unit.view = .ok view ∧ Verify.checkCode unit.code view = .ok () := by
  constructor
  · intro h
    obtain ⟨own, viewed, h⟩ := Except.bind_eq_ok_iff.mp h
    obtain ⟨⟨⟩, checked, h⟩ := Except.bind_eq_ok_iff.mp h
    obtain rfl := Except.ok.inj h
    exact ⟨Except.mapError_eq_ok_iff.mp viewed, checked⟩
  · rintro ⟨viewed, checked⟩
    exact Except.bind_eq_ok_iff.mpr ⟨view, Except.mapError_eq_ok_iff.mpr viewed,
      Except.bind_eq_ok_iff.mpr ⟨⟨⟩, checked, rfl⟩⟩

/-- Whether two offsets are those of the instructions with one number in two streams. -/
def SameInstruction (before after : List Instruction) (offset offset' : UInt32) : Prop :=
  ∃ (number : Nat) (instruction instruction' : Instruction),
    before[number]? = some instruction ∧ after[number]? = some instruction' ∧
      offset.toNat = instruction.offset ∧ offset'.toNat = instruction'.offset

theorem sameInstruction_of_sameLine {before after : List Instruction} (laid : Laid 0 before)
    (laid' : Laid 0 after) (length : before.length = after.length) {offset offset' : UInt32}
    (h : SameLine before after offset.toNat offset'.toNat) :
    SameInstruction before after offset offset' := by
  obtain ⟨line, inside, here, there⟩ := h
  have found := List.getElem?_eq_getElem inside
  have found' := List.getElem?_eq_getElem (l := after) (length ▸ inside)
  refine ⟨line, _, _, found, found', ?_, ?_⟩
  · rw [laid.offset found, Nat.zero_add, here]
  · rw [laid'.offset found', Nat.zero_add, there]

theorem exists_shrink {unit : CompiledUnit} {view : Metadata} (verified : unit.verify = .ok view)
    (small : unit.code.length < 0x8000000000000000) : ∃ shrunk, unit.shrink = .ok shrunk := by
  obtain ⟨viewed, checked⟩ := verify_eq_ok_iff.mp verified
  obtain ⟨before, encodes, methods, -⟩ := Verify.checkCode_eq_ok checked small
  obtain ⟨records, read, accepted⟩ := Except.bind_eq_ok_iff.mp viewed
  have entries : ∀ entry ∈ records.filterMap MetaRecord.codeOffset?,
      Starts before entry.toNat := by
    intro entry member
    rw [Metadata.codeOffsets_eq accepted] at member
    obtain ⟨info, listed, member⟩ := List.mem_flatMap.mp member
    obtain ⟨method, own, rfl⟩ := List.mem_map.mp member
    exact methods info listed method own
  obtain ⟨code, shrinks⟩ := encodes.exists_shrink entries
  exact ⟨_, shrink_eq_ok_iff.mpr ⟨records, code, read, shrinks, rfl⟩⟩

/-- What is left of a unit that verification accepts is accepted, with its methods at the
instructions at which they were. -/
theorem verify_of_shrink {unit : CompiledUnit} {view : Metadata} {shrunk : ShrunkUnit}
    (verified : unit.verify = .ok view) (small : unit.code.length < 0x8000000000000000)
    (h : unit.shrink = .ok shrunk) :
    ∃ view' before after, shrunk.unit.verify = .ok view' ∧ Code.decode unit.code = .ok before ∧
      Code.decode shrunk.unit.code = .ok after ∧
      view.Relocated (SameInstruction before after) view' := by
  obtain ⟨viewed, checked⟩ := verify_eq_ok_iff.mp verified
  obtain ⟨before, encodes, methods, refers⟩ := Verify.checkCode_eq_ok checked small
  obtain ⟨view', own, after, viewed', decoded, decoded', counterparts, moved⟩ :=
    view_shrink viewed h
  obtain rfl := Except.ok.inj (encodes.decoded.symm.trans decoded)
  refine ⟨view', before, after, verify_eq_ok_iff.mpr ⟨viewed', ?_⟩, decoded, decoded',
    moved.imp fun info listed method own offset there => ?_⟩
  · have shorter : shrunk.unit.code.length ≤ unit.code.length := by
      obtain ⟨_, _, -, shrinks, rfl⟩ := shrink_eq_ok_iff.mp h
      exact length_shrink_le shrinks
    refine Verify.checkCode_of_encodes ⟨decoded', encodes.closed.of_counterparts counterparts⟩
      (Nat.lt_of_le_of_lt shorter small) ?_ ?_
    · intro info' listed' method' own'
      obtain ⟨info, listed, method, own, there⟩ := moved.exists_method listed' own'
      exact (there.sameLine (methods info listed method own)).starts_right counterparts.length_eq
    · intro instruction' member
      obtain ⟨instruction, listed, counterpart⟩ := exists_of_mem_right counterparts member
      refine Verify.checkReferences_of_counterpart counterpart ?_ (refers instruction listed)
      rw [moved.same]
      rfl
  · exact sameInstruction_of_sameLine (decode_eq_ok_iff.mp decoded).1
      (decode_eq_ok_iff.mp decoded').1 counterparts.length_eq
      (there.sameLine (methods info listed method own))

/-- **Shrinking keeps a unit valid.** A unit that verification accepts can be shrunk, and
verification accepts the result. It shows the same except that every method starts at the offset of
the instruction with the number of the one at which it started. -/
theorem verify_shrink {unit : CompiledUnit} {view : Metadata} (verified : unit.verify = .ok view)
    (small : unit.code.length < 0x8000000000000000) :
    ∃ shrunk view' before after, unit.shrink = .ok shrunk ∧ shrunk.unit.verify = .ok view' ∧
      Code.decode unit.code = .ok before ∧ Code.decode shrunk.unit.code = .ok after ∧
      view.Relocated (SameInstruction before after) view' := by
  obtain ⟨shrunk, shrinks⟩ := exists_shrink verified small
  obtain ⟨view', before, after, verified', decoded, decoded', relocated⟩ :=
    verify_of_shrink verified small shrinks
  exact ⟨shrunk, view', before, after, shrinks, verified', decoded, decoded', relocated⟩

/-- The records of a class with two methods, the second of which starts at 7. -/
def loopRecords : List MetaRecord :=
  [.moduleHeader "m" 0 0 0 0, .classHeader ⟨"C", "", 0, 0, 2, .plain⟩,
    .method ⟨"main", 1, 0, false, 0, 1, true⟩, .localName "i" 1,
    .method ⟨"tail", 2, 7, false, 0, 1, true⟩, .finish]

/-- A loop whose branches are wider than they have to be, with a method at its start and one in its
middle. -/
def loop : CompiledUnit :=
  ⟨MetaRecord.encodeAll loopRecords, [19, 1, 88, 9, 0, 0, 0, 1, 81, 248, 255, 146]⟩

def loopView : Metadata :=
  ⟨"m", #[], #[⟨"C", none, .plain, 0, 0, #[],
    #[⟨⟨"main", 1, 0, false, 0, 1, true⟩, #[⟨"i", 1⟩]⟩,
      ⟨⟨"tail", 2, 7, false, 0, 1, true⟩, #[]⟩]⟩], #[], [], [], [], []⟩

theorem records_loop : loop.records = .ok loopRecords :=
  MetaRecord.decodeAll_encodeAll ⟨loopRecords.dropLast, rfl, by decide⟩ (by decide)

theorem verify_loop : loop.verify = .ok loopView := by
  have accepted : Metadata.ofRecords loopRecords = .ok loopView := by decide +kernel
  have checked : Verify.checkCode loop.code loopView = .ok () := by decide +kernel
  exact verify_eq_ok_iff.mpr ⟨Except.bind_eq_ok_iff.mpr ⟨_, records_loop, accepted⟩, checked⟩

theorem verify_shrink_loop :
    loop.verify = .ok loopView ∧ loop.code.length < 0x8000000000000000 ∧
      ∃ shrunk view' before after, loop.shrink = .ok shrunk ∧ shrunk.unit.verify = .ok view' ∧
        Code.decode loop.code = .ok before ∧ Code.decode shrunk.unit.code = .ok after ∧
        loopView.Relocated (SameInstruction before after) view' := by
  have small : loop.code.length < 0x8000000000000000 := by decide
  exact ⟨verify_loop, small, verify_shrink verify_loop small⟩

end CompiledUnit

end ObjectMachine
