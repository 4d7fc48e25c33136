import ObjectMachine.Proofs.Program.Grid
import ObjectMachine.Proofs.Program.Sections

/-!
# The references of verified programs

Verification looks up what a unit refers to in the tables of the unit, and a thread looks it up in
those of the module that it is in. Both are the same as long as threads do not go on where the code
of a unit ends, from which neither verification nor linking keeps them.
-/

namespace ObjectMachine

open Code

theorem Segment.fetch_end (segment : Segment) (instruction : Instruction) :
    segment.fetch segment.bytes.length ≠ .ok instruction := by
  intro fetched
  rw [fetch_eq_decodeAt, Instruction.decodeAt,
    Cursor.seek_of_drop List.drop_length (Nat.le_refl _)] at fetched
  cases fetched

def Program.unitEnd (program : Program) (units : List LoadedUnit) (id : ModuleId) : Nat :=
  boundary (stream program.code.bytes) ((units.take (id.index + 1)).flatMap (stream ·.code)).length

/-- Whether a run does not go on at the end of the code of the unit whose tables it uses. -/
def Progress.InUnit (setup : Setup) (units : List LoadedUnit) (progress : Progress) : Prop :=
  ∀ chosen ∈ progress.chosen?, chosen.roster.running.moduleId.index < units.length →
    chosen.roster.running.ip ≠ setup.program.unitEnd units chosen.roster.running.moduleId

instance (setup : Setup) (units : List LoadedUnit) (progress : Progress) :
    Decidable (progress.InUnit setup units) :=
  inferInstanceAs (Decidable (∀ chosen ∈ progress.chosen?,
    chosen.roster.running.moduleId.index < units.length →
      chosen.roster.running.ip ≠ setup.program.unitEnd units chosen.roster.running.moduleId))

/-! ## Ends of units -/

namespace Program.Composed

open Link

variable {program : Program}

/-- The stream of a program, divided where the code of a unit begins. -/
theorem exists_stream_eq {units : List LoadedUnit} (h : program.Composed units) (place : Nat) :
    ∃ front back, stream program.code.bytes = front ++ back ∧
      front.length = ((units.take place).flatMap (stream ·.code)).length ∧
      boundary front front.length = base units place := by
  obtain ⟨front, before, length⟩ := decode_flatMap (units.take place) fun unit member =>
    h.decodes unit (List.mem_of_mem_take member)
  obtain ⟨back, after, -⟩ := decode_flatMap (units.drop place) fun unit member =>
    h.decodes unit (List.mem_of_mem_drop member)
  have joined := decode_append before after
  rw [← List.flatMap_append, List.take_append_drop, ← h.code] at joined
  exact ⟨front, _, decode_stream joined, length, (length_eq_boundary before).symm⟩

variable {units more : List LoadedUnit} (h : program.Composed (units ++ more)) {id : ModuleId}
  (inside : id.index < units.length)

include h inside

theorem exists_unitEnd_eq :
    ∃ line ≤ (stream program.code.bytes).length,
      line = ((units.take (id.index + 1)).flatMap (stream ·.code)).length ∧
      program.unitEnd units id = boundary (stream program.code.bytes) line ∧
      program.unitEnd units id = base (units ++ more) (id.index + 1) := by
  obtain ⟨front, back, whole, length, ends⟩ := h.exists_stream_eq (id.index + 1)
  rw [List.take_append_of_le_length inside] at length
  refine ⟨front.length, ?_, length, ?_, ?_⟩
  · rw [whole, List.length_append]
    exact Nat.le_add_right _ _
  · rw [unitEnd, length]
  · rw [unitEnd, ← length, whole, boundary_append_left _ (Nat.le_refl _), ends]

end Program.Composed

/-- A run that keeps to the units executes nothing at the end of a section. Behind the last one
there is nothing. -/
theorem Progress.InUnit.avoids {setup : Setup} {units : List LoadedUnit} {last : LoadedUnit}
    (h : setup.program.Composed (units ++ [last])) {progress : Progress}
    (keeps : progress.InUnit setup units) : Machine.Avoids setup h.regions.stop progress := by
  intro chosen next instruction fetched stopped
  by_cases inside : chosen.roster.running.moduleId.index < units.length
  · obtain ⟨-, -, -, -, ends⟩ := h.exists_unitEnd_eq inside
    exact keeps chosen next inside (stopped.trans ends.symm)
  · -- The sequence at the entry is the last section, so that the code ends with it.
    have all : (units ++ [last]).length ≤ chosen.roster.running.moduleId.index + 1 := by
      rw [List.length_append, List.length_singleton]
      omega
    have finish : chosen.roster.running.ip = setup.program.code.bytes.length := by
      rw [stopped, h.code]
      exact congrArg (fun sections : List LoadedUnit => (sections.flatMap (·.code)).length)
        (List.take_of_length_le all)
    exact setup.program.code.fetch_end instruction (finish ▸ fetched)

/-! ## Shrunk programs -/

theorem Progress.Tied.chosen? {Address : Nat → Nat → Prop} {progress progress' : Progress}
    (h : progress.Tied Address progress') :
    Option.Rel (Machine.Tied Address) progress.chosen? progress'.chosen? := by
  obtain ⟨outcome, rfl, rfl⟩ | ⟨machine, machine', rfl, rfl, tied⟩ := h.both
  · exact .none
  · unfold Progress.chosen?
    dsimp only
    obtain ⟨outcome, ends, ends'⟩ | ⟨chosen, chosen', next, next', same⟩ := tied.switch.both
    · rw [ends, ends']
      exact .none
    · rw [next, next']
      exact .some same

namespace Program.Shrinks

variable {before after : List Instruction} {plain shrunk : Program}
  (h : plain.Shrinks before after shrunk) {limits : Limits} {progress progress' : Progress}
  (tied : progress.Tied (SameLine before after) progress')

include h tied

theorem inUnit {units more : List LoadedUnit} (composed : plain.Composed (units ++ more))
    (keeps : progress'.InUnit ⟨shrunk, limits⟩ units) : progress.InUnit ⟨plain, limits⟩ units := by
  intro chosen next inside ends
  have nexts := tied.chosen?
  rw [next] at nexts
  obtain ⟨chosen', next', same⟩ := exists_of_rel_some nexts
  have module : chosen.roster.running.moduleId = chosen'.roster.running.moduleId :=
    same.roster.running.registers.moduleId
  obtain ⟨line, within, here, there⟩ := same.roster.running.registers.ip
  obtain ⟨last, bound, length, own, -⟩ := composed.exists_unitEnd_eq inside
  rw [decode_stream h.encodes.decoded] at bound own
  obtain rfl := boundary_inj (Nat.le_of_lt within) bound (here.symm.trans (ends.trans own))
  refine keeps chosen' next' (module ▸ inside) (there.trans ?_)
  rw [unitEnd, decode_stream h.decoded, ← module, ← length]

theorem refers (refers : Machine.Refers ⟨plain, limits⟩ progress) :
    Machine.Refers ⟨shrunk, limits⟩ progress' := by
  intro chosen' next' instruction' fetched' table there listed
  have nexts := tied.chosen?
  rw [next'] at nexts
  obtain ⟨chosen, next, same⟩ := exists_of_rel_to_some nexts
  have module : chosen.roster.running.moduleId = chosen'.roster.running.moduleId :=
    same.roster.running.registers.moduleId
  obtain ⟨instruction, found, fetched, found', alike, -⟩ :=
    (h.inStep limits).fetch same.roster.running.registers.ip
  obtain rfl := Except.ok.inj (fetched'.symm.trans found')
  rw [← alike.opcode] at there
  have operand := alike.same (by rw [Opcode.shape_of_references there]; rfl)
  have has := refers chosen next instruction fetched table there listed
  rw [Instruction.index, operand, module] at has
  exact h.similar.moduleOf _ ▸ has

end Program.Shrinks

/-! ## Linked programs -/

namespace Program

variable {units : List LoadedUnit}

/-- As long as a run of a composed program keeps to the units, it refers to their tables. -/
theorem Composed.refers {setup : Setup} {last : LoadedUnit}
    (h : setup.program.Composed (units ++ [last])) {store : Store} {source : TickSource}
    {args : List String} {count : Nat}
    (keeps : ∀ before ≤ count, (Progress.advance setup before
      (Machine.start setup store source args)).InUnit setup units) :
    Machine.Refers setup
      (Progress.advance setup count (Machine.start setup store source args)) :=
  Machine.refers_of_avoids fun before earlier => (keeps before earlier).avoids h

/-- Verified units, whose branches may be shrunk, refer to their own tables as long as a run keeps
to them. -/
theorem refers_of_link (checked : ∀ unit ∈ units, unit.Checked) {optimize : Bool}
    (room : (units.flatMap (·.code)).length + 7 <
      if optimize then 0x100000000 else 0x8000000000000000) {facades : List Facade}
    {program : Program} (linked : link facades optimize units = .ok program) {limits : Limits}
    {store : Store} {source : TickSource} {args : List String} {count : Nat}
    (keeps : ∀ before ≤ count, (Progress.advance ⟨program, limits⟩ before
      (Machine.start ⟨program, limits⟩ store source args)).InUnit ⟨program, limits⟩ units) :
    Machine.Refers ⟨program, limits⟩ (Progress.advance ⟨program, limits⟩ count
      (Machine.start ⟨program, limits⟩ store source args)) := by
  have small (unit : LoadedUnit) (member : unit ∈ units) :
      unit.code.length < 0x8000000000000000 := by
    have within := LoadedUnit.length_code_le member
    split at room <;> omega
  cases optimize with
  | false =>
      exact (Link.composed_of_link checked small linked).refers keeps
  | true =>
      obtain ⟨before, after, plain, shrunk, plainly, shrinks, rfl⟩ :=
        Link.exists_shrinks_of_link checked room linked
      have composed := Link.composed_of_link checked small plainly
      -- The run of the program before shrinking keeps to the units where this one does.
      have together := shrinks.inStep limits
      have tied := together.advance (together.start store source args)
      exact shrinks.refers (tied count) (composed.refers fun earlier within =>
        shrinks.inUnit (tied earlier) composed (keeps earlier within))

/-- **Verified references are sound within units.** As long as no thread of a run has gone on where
the code of its module's unit ends, whatever an instruction refers to is in the tables of the
module, and a run in which no thread ever does so never fails to find a reference. -/
theorem link_refers (verified : ∀ unit ∈ units, unit.Verified) {optimize : Bool}
    (room : (units.flatMap (·.code)).length + 7 <
      if optimize then 0x100000000 else 0x8000000000000000) {facades : List Facade}
    {program : Program} (linked : link facades optimize units = .ok program) (limits : Limits)
    (store : Store) (source : TickSource) (args : List String) :
    let setup : Setup := ⟨program, limits⟩
    let start := Machine.start setup store source args
    (∀ count, (∀ before ≤ count, (Progress.advance setup before start).InUnit setup units) →
      Machine.Refers setup (Progress.advance setup count start)) ∧
    ((∀ count, (Progress.advance setup count start).InUnit setup units) →
      ∀ fuel outcome, Machine.run setup fuel start = some outcome →
        ∀ table index name trace,
          outcome.ending ≠ .faulted (.unresolvedReference table index name) trace) := by
  have checked (unit : LoadedUnit) (member : unit ∈ units) : unit.Checked :=
    (verified unit member).checked
  refine ⟨fun count keeps => refers_of_link checked room linked keeps,
    fun keeps fuel outcome ended => ?_⟩
  exact Machine.resolves_of_refers
    (fun count => refers_of_link checked room linked fun before _ => keeps before) ended

/-- A module with a main method, and one behind it with a method that returns a string. -/
def twoUnits (main : Bytes) : List LoadedUnit :=
  let app : List MetaRecord := [
    .moduleHeader "app" 1 0 1 0,
    .use "lib",
    .classHeader ⟨"Main", "", 0, 0, 1, .plain⟩,
    .method ⟨"main", 1, 0, false, 0, 0, true⟩,
    .classRef "L" 1,
    .methodCall "f" 0 1,
    .finish]
  let lib : List MetaRecord := [
    .moduleHeader "lib" 0 0 0 1,
    .classHeader ⟨"L", "", 0, 0, 1, .plain⟩,
    .method ⟨"f", 1, 0, false, 0, 0, true⟩,
    .string 1 "b" true,
    .finish]
  [⟨MetaRecord.encodeAll app, main⟩, ⟨MetaRecord.encodeAll lib, [
    0x10, 1,  -- pushstring
    0x32]⟩]   -- retval
    |>.filterMap LoadedUnit.verified?

def ofTwoUnits? (main : Bytes) : Option Setup :=
  (link [] true (twoUnits main)).toOption.map fun program => ⟨program, {}⟩

theorem linked_of_twoUnits {main : Bytes} {setup : Setup} (h : ofTwoUnits? main = some setup) :
    link [] true (twoUnits main) = .ok setup.program := by
  unfold ofTwoUnits? at h
  cases linked : link [] true (twoUnits main) with
  | error fault =>
      rw [linked] at h
      cases h
  | ok program =>
      rw [linked] at h
      cases h
      rfl

/-- The main method calls the other one and returns its string. -/
def borrows : Bytes := [
  0x1f, 1,  -- loadclass
  0x25, 1,  -- call
  0x32]     -- retval

/-- The main method does nothing, and does not return. -/
def goesOver : Bytes := [0x00]  -- nop

def startOf (setup : Setup) : Progress :=
  Machine.start setup (.ofCatalog setup.program.catalog) (.steps 100) []

/-- The one thread of this run never leaves its units, and all references are found. -/
theorem link_refers_borrows :
    ∃ setup outcome, link [] true (twoUnits borrows) = .ok setup.program ∧
      (∀ count, (Progress.advance setup count (startOf setup)).InUnit setup (twoUnits borrows)) ∧
      (∀ count, Machine.Refers setup (Progress.advance setup count (startOf setup))) ∧
      Machine.run setup 8 (startOf setup) = some outcome ∧
      ∀ table index name trace,
        outcome.ending ≠ .faulted (.unresolvedReference table index name) trace := by
  have runs : (ofTwoUnits? borrows).any (fun setup =>
      (Machine.run setup 8 (startOf setup)).isSome && decide (∀ before < (8 : Nat),
        (Progress.advance setup before (startOf setup)).InUnit setup (twoUnits borrows))) := by
    decide +kernel
  obtain ⟨setup, made, runs⟩ := (Option.any_eq_true _ _).mp runs
  obtain ⟨ends, stays⟩ := Bool.and_eq_true_iff.mp runs
  obtain ⟨outcome, ended⟩ := Option.isSome_iff_exists.mp ends
  have keeps (count : Nat) :
      (Progress.advance setup count (startOf setup)).InUnit setup (twoUnits borrows) := by
    rcases Nat.lt_or_ge count 8 with before | late
    · exact of_decide_eq_true stays count before
    · rw [Progress.advance_of_ended (Progress.advance_of_run ended) late]
      intro chosen next
      cases next
  have linked := linked_of_twoUnits made
  obtain ⟨refers, resolves⟩ := link_refers (fun unit => LoadedUnit.verified_of_mem)
    (by decide +kernel) linked setup.limits (.ofCatalog setup.program.catalog) (.steps 100) []
  exact ⟨setup, outcome, linked, keeps, fun count => refers count fun before _ => keeps before,
    ended, resolves keeps 8 outcome ended⟩

/-- A thread that goes on in the next unit looks up what this one refers to in its own tables. -/
theorem reference_unresolved :
    ¬ ∀ (units : List LoadedUnit), (∀ unit ∈ units, unit.Verified) →
      ∀ (facades : List Facade) (optimize : Bool) (program : Program),
        link facades optimize units = .ok program →
        ∀ (limits : Limits) (store : Store) (source : TickSource) (args : List String) (fuel : Nat)
          (outcome : Outcome), Machine.run ⟨program, limits⟩ fuel
            (Machine.start ⟨program, limits⟩ store source args) = some outcome →
          ∀ table index name trace,
            outcome.ending ≠ .faulted (.unresolvedReference table index name) trace := by
  intro sound
  have runs : ((ofTwoUnits? goesOver).bind fun setup =>
      Machine.run setup 20 (startOf setup)).any (fun outcome =>
        match outcome.ending with
        | .faulted (.unresolvedReference .. ) _ => true
        | _ => false) := by
    decide +kernel
  obtain ⟨outcome, ended, unresolved⟩ := (Option.any_eq_true _ _).mp runs
  obtain ⟨setup, made, ended⟩ := Option.bind_eq_some_iff.mp ended
  split at unresolved
  · next table index name trace ending =>
      exact sound _ (fun unit => LoadedUnit.verified_of_mem) [] true _ (linked_of_twoUnits made)
        _ _ _ _ _ _ ended table index name trace ending
  · cases unresolved

end Program

end ObjectMachine
