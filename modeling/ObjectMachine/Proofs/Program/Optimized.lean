import ObjectMachine.Proofs.Machine.Runs
import ObjectMachine.Proofs.Program.Shrinking
import ObjectMachine.Report.Program

/-!
# Shrunk programs in lockstep

A program whose branches have been shrunk runs in lockstep with the program as it was: the same
thread executes the instruction of the same line, and both leave the same behind.
-/

namespace ObjectMachine

open Code

namespace Program

/-- Whether two runs go on with one line, executed by the same thread. -/
def SameNext (before after : List Instruction) (next next' : ThreadId × Instruction) : Prop :=
  next.1 = next'.1 ∧ ∃ line : Nat, before[line]? = some next.2 ∧ after[line]? = some next'.2

/-- Whether two programs, of the same instructions up to widths and distances, run in lockstep:
after so many instructions, the runs of both have the same store and go on with the same line or
have both ended, and they end in the same way. An outcome also reads the same in both. -/
def Lockstep (program program' : Program) : Prop :=
  ∃ before after, decode program.code.bytes = .ok before ∧ decode program'.code.bytes = .ok after ∧
    List.Forall₂ (Counterpart before after) before after ∧
    Store.ofCatalog program.catalog = Store.ofCatalog program'.catalog ∧
    (∀ faulted outcome,
      Report.ofOutcome program faulted outcome = Report.ofOutcome program' faulted outcome) ∧
    ∀ (limits : Limits) (store : Store) (every : UInt64) (args : List String),
      let setup : Setup := ⟨program, limits⟩
      let setup' : Setup := ⟨program', limits⟩
      let start := Machine.start setup store (.steps every) args
      let start' := Machine.start setup' store (.steps every) args
      (∀ count, (start.advance setup count).store = (start'.advance setup' count).store ∧
        Option.Rel (SameNext before after) ((start.advance setup count).next? setup)
          ((start'.advance setup' count).next? setup')) ∧
      ∀ fuel, Machine.run setup fuel start = Machine.run setup' fuel start'

namespace Shrinks

variable {before after : List Instruction} {plain shrunk : Program}
  (h : plain.Shrinks before after shrunk)

include h

theorem length : after.length = before.length :=
  h.counterparts.length_eq.symm

/-- Only an exit is the last instruction. -/
theorem succ_lt {line : Nat} {instruction : Instruction}
    (here : before[line]? = some instruction) (goesOn : instruction.opcode ≠ .exit) :
    line + 1 < before.length := by
  obtain ⟨front, exit, rfl, exits⟩ := h.exits
  have inside := (List.getElem?_eq_some_iff.mp here).1
  rw [List.length_append, List.length_singleton] at inside ⊢
  by_contra last
  obtain rfl : line = front.length := by omega
  rw [List.getElem?_append_right (Nat.le_refl _), Nat.sub_self] at here
  cases here
  exact goesOn exits

/-- Counterparts are tied: their distances lead to instructions, not just to the end. -/
theorem tied {line : Nat} {instruction instruction' : Instruction}
    (here : before[line]? = some instruction) (there : after[line]? = some instruction') :
    instruction.Tied (SameLine before after) instruction' := by
  have length := h.length
  obtain ⟨inside, rfl⟩ := List.getElem?_eq_some_iff.mp here
  obtain ⟨inside', rfl⟩ := List.getElem?_eq_some_iff.mp there
  have counterpart := h.counterparts.get inside inside'
  have start := (decode_eq_ok_iff.mp h.encodes.decoded).1.offset here
  have start' := (decode_eq_ok_iff.mp h.decoded).1.offset there
  refine ⟨counterpart.opcode_eq.symm, ⟨line, inside, by omega, by omega⟩,
    counterpart.operand.imp fun distance distance' encoded => ?_,
    fun fixed => (counterpart.same fixed).2.symm⟩
  rintro ⟨target, ⟨within, leads⟩, -, leads'⟩
  obtain ⟨own, below, -, starts⟩ :=
    h.encodes.closed _ (List.getElem_mem inside) distance encoded
  obtain rfl : own = target := boundary_inj (Nat.le_of_lt below) within (by
    simp only [List.get_eq_getElem] at leads
    omega)
  simp only [List.get_eq_getElem] at leads leads'
  refine ⟨own, below, ?_, ?_⟩
  · rw [Instruction.target, leads, Int.toNat_natCast]
  · rw [Instruction.target, leads', Int.toNat_natCast]

theorem inStep (limits : Limits) :
    Setup.InStep (SameLine before after) ⟨plain, limits⟩ ⟨shrunk, limits⟩ where
  similar := ⟨rfl, h.similar⟩
  order := SameLine.lt_iff h.length
  entry := h.entry
  entryModule := h.entryModule
  fetch := by
    rintro _ _ ⟨line, inside, rfl, rfl⟩
    have here := List.getElem?_eq_getElem inside
    have there := List.getElem?_eq_getElem (h.length.symm ▸ inside : line < after.length)
    have tied := h.tied here there
    refine ⟨_, _, fetch_boundary h.encodes.decoded here, fetch_boundary h.decoded there, tied,
      fun goesOn => ⟨line + 1, h.succ_lt here goesOn, ?_, ?_⟩⟩
    · rw [boundary_succ here, (decode_eq_ok_iff.mp h.encodes.decoded).1.offset here, Nat.zero_add]
    · rw [boundary_succ there, (decode_eq_ok_iff.mp h.decoded).1.offset there, Nat.zero_add]

theorem ofCatalog : Store.ofCatalog plain.catalog = Store.ofCatalog shrunk.catalog := by
  have statics : shrunk.catalog.classes.toList.map (·.statics) =
      plain.catalog.classes.toList.map (·.statics) :=
    map_eq_of_forall₂ (List.Forall₂.imp (fun _ _ info => info.statics.symm) h.similar.catalog)
  rw [← Array.toList_map, ← Array.toList_map, Array.toList_inj] at statics
  rw [Store.ofCatalog, Store.ofCatalog, statics]

theorem sameNext {next next' : ThreadId × Instruction} {address address' : Nat}
    (same : next.1 = next'.1) (line : SameLine before after address address')
    (fetched : plain.code.fetch address = .ok next.2)
    (fetched' : shrunk.code.fetch address' = .ok next'.2) : SameNext before after next next' := by
  obtain ⟨line, inside, rfl, rfl⟩ := line
  have here := List.getElem?_eq_getElem inside
  have there := List.getElem?_eq_getElem (h.length.symm ▸ inside : line < after.length)
  rw [fetch_boundary h.encodes.decoded here, Except.ok.injEq] at fetched
  rw [fetch_boundary h.decoded there, Except.ok.injEq] at fetched'
  exact ⟨same, line, fetched ▸ here, fetched' ▸ there⟩

/-- An outcome reads the same in both programs: the names in its backtrace and in its result do not
depend on addresses. -/
theorem ofOutcome (faulted : Fault → List (String × Report)) (outcome : Outcome) :
    Report.ofOutcome plain faulted outcome = Report.ofOutcome shrunk faulted outcome := by
  have name : plain.catalog.name = shrunk.catalog.name := funext h.similar.catalog.name
  have frames (frame : Frame) : frame.describe plain.catalog plain.symbols =
      frame.describe shrunk.catalog shrunk.symbols := by
    cases frame with
    | entry => rfl
    | method declaring key kind => rw [Frame.describe, Frame.describe, name, h.similar.symbols]
  unfold Report.ofOutcome
  simp only [frames, name, h.similar.describe]

theorem lockstep : plain.Lockstep shrunk := by
  refine ⟨before, after, h.encodes.decoded, h.decoded, h.counterparts, h.ofCatalog,
    h.ofOutcome, fun limits store every args => ?_⟩
  have together := h.inStep limits
  have started := together.start store (.steps every) args
  refine ⟨fun count => ?_, fun fuel => together.run started fuel⟩
  have reached := together.advance started count
  have nexts := together.next? reached
  refine ⟨reached.store, ?_⟩
  generalize (Progress.advance _ count _).next? ⟨plain, limits⟩ = next at nexts ⊢
  generalize (Progress.advance _ count _).next? ⟨shrunk, limits⟩ = next' at nexts ⊢
  cases nexts with
  | none => exact .none
  | some tied =>
      obtain ⟨same, address, address', line, fetched, fetched'⟩ := tied
      exact .some (h.sameNext same line fetched fetched')

end Shrinks

end Program

/-! ## Loading -/

/-- The main module of a program: the one of a name, or a given unit. -/
inductive MainModule
  | named (name : String)
  | given (unit : CompiledUnit)

namespace Library

def loadMain (library : Library) (facades : List Facade) (options : LoadOptions) :
    MainModule → Except LoadError Program
  | .named name => library.load facades options name
  | .given unit => library.loadUnit facades options unit

def accept (library : Library) (options : LoadOptions) : MainModule → Except LoadError LoadedUnit
  | .named name => library.find name >>= LoadedUnit.checkNamed options name
  | .given unit => checkMain options unit

def units (library : Library) (options : LoadOptions) (main : MainModule) :
    Except LoadError (List LoadedUnit) :=
  library.accept options main >>= fun loaded => library.reachable options (Discovery.start loaded)

theorem loadMain_eq (library : Library) (facades : List Facade) (options : LoadOptions)
    (main : MainModule) :
    library.loadMain facades options main =
      library.units options main >>= Program.link facades options.optimize := by
  unfold units
  rw [bind_assoc]
  cases main with
  | named name =>
      unfold accept
      rw [bind_assoc]
      rfl
  | given unit => rfl

/-- Which units are loaded does not depend on whether branches are shrunk. -/
theorem units_congr (library : Library) {options options' : LoadOptions}
    (same : options.verify = options'.verify) (main : MainModule) :
    library.units options main = library.units options' main := by
  have check := LoadedUnit.checkNamed_congr same
  have main : library.accept options main = library.accept options' main := by
    cases main with
    | named name => rw [accept, accept, check]
    | given unit =>
        unfold accept checkMain
        rw [LoadedUnit.check_congr same]
  rw [units, units, main]
  exact congrArg _ (funext fun loaded => library.reachable_congr same _)

theorem checked_of_accept {library : Library} {options : LoadOptions}
    (verifies : options.verify = true) {main : MainModule} {loaded : LoadedUnit}
    (h : library.accept options main = .ok loaded) : loaded.Checked := by
  cases main with
  | named name =>
      obtain ⟨unit, -, accepted⟩ := Except.bind_eq_ok_iff.mp h
      exact LoadedUnit.checked_of_checkNamed verifies accepted
  | given unit =>
      change checkMain options unit = .ok loaded at h
      unfold checkMain at h
      split at h
      · exact LoadedUnit.checked_of_check verifies h
      · cases h

theorem checked_of_units {library : Library} {options : LoadOptions}
    (verifies : options.verify = true) {main : MainModule} {units : List LoadedUnit}
    (h : library.units options main = .ok units) : ∀ unit ∈ units, unit.Checked := by
  obtain ⟨loaded, accepted, found⟩ := Except.bind_eq_ok_iff.mp h
  refine checked_of_reachable verifies found fun unit member => ?_
  obtain rfl := List.mem_singleton.mp member
  exact checked_of_accept verifies accepted

/-- **Shrinking is invisible.** Loading verified units with and without shrinking gives two programs
that run in lockstep, or fails in the same way. -/
theorem loadMain_lockstep (library : Library) (facades : List Facade) (main : MainModule)
    (small : ∀ units, library.units ⟨false, true⟩ main = .ok units →
      (units.flatMap (·.code)).length < 0x80000000) :
    Except.Match Program.Lockstep (library.loadMain facades ⟨false, true⟩ main)
      (library.loadMain facades ⟨true, true⟩ main) := by
  have verifies : (⟨true, true⟩ : LoadOptions).verify = (⟨false, true⟩ : LoadOptions).verify := rfl
  have same := library.units_congr verifies main
  rw [loadMain_eq, loadMain_eq, same]
  cases found : library.units ⟨false, true⟩ main with
  | error fault => exact rfl
  | ok units =>
      have checked := checked_of_units rfl found
      exact (Link.link_match checked (small units found) facades).imp
        fun plain shrunk ⟨_, _, shrinks⟩ => shrinks.lockstep

/-- A module whose main method never ends, with branches wider than they have to be. -/
def spins : Library :=
  let records : List MetaRecord := [
    .moduleHeader "app" 0 0 0 0,
    .classHeader ⟨"Main", "", 0, 0, 1, .plain⟩,
    .method ⟨"main", 1, 0, false, 0, 0, true⟩,
    .finish]
  let code : Bytes := [
    5,               -- pushtrue
    88, 8, 0, 0, 0,  -- jf, behind the loop
    81, 250, 255,    -- jmp, back to the start
    49]              -- ret
  [("app", ⟨MetaRecord.encodeAll records, code⟩)]

theorem loadMain_lockstep_spins :
    ∃ plain shrunk, spins.loadMain [] ⟨false, true⟩ (.named "app") = .ok plain ∧
      spins.loadMain [] ⟨true, true⟩ (.named "app") = .ok shrunk ∧
      plain.code.bytes.length = 15 ∧ shrunk.code.bytes.length = 11 ∧ plain.Lockstep shrunk := by
  have size : (spins.units ⟨false, true⟩ (.named "app")).toOption.map
      (fun units => (units.flatMap (·.code)).length) = some 10 := by decide +kernel
  have small (units : List LoadedUnit) (h : spins.units ⟨false, true⟩ (.named "app") = .ok units) :
      (units.flatMap (·.code)).length < 0x80000000 := by
    rw [h] at size
    have length : (units.flatMap (·.code)).length = 10 := Option.some.inj size
    omega
  have programs := loadMain_lockstep spins [] (.named "app") small
  have plainly : (spins.loadMain [] ⟨false, true⟩ (.named "app")).toOption.map
      (·.code.bytes.length) = some 15 := by decide +kernel
  have optimized : (spins.loadMain [] ⟨true, true⟩ (.named "app")).toOption.map
      (·.code.bytes.length) = some 11 := by decide +kernel
  cases plain : spins.loadMain [] ⟨false, true⟩ (.named "app") with
  | error fault =>
      rw [plain] at plainly
      cases plainly
  | ok program =>
      cases shrunk : spins.loadMain [] ⟨true, true⟩ (.named "app") with
      | error fault =>
          rw [shrunk] at optimized
          cases optimized
      | ok program' =>
          rw [plain] at plainly programs
          rw [shrunk] at optimized programs
          exact ⟨program, program', rfl, rfl, Option.some.inj plainly, Option.some.inj optimized,
            programs⟩

end Library

end ObjectMachine
