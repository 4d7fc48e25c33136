import ObjectMachine.Proofs.Machine.Endings
import ObjectMachine.Proofs.Program.Linked
import ObjectMachine.Proofs.Program.Optimized

/-!
# Verified programs stay on their instructions

Verified units can be linked whether or not their branches are to be shrunk, and a thread of their
program is always about to execute an instruction of the program's stream.
-/

namespace ObjectMachine

open Code

/-! ## Runs -/

/-- Whether the threads of a program's runs only ever execute instructions of a stream. -/
structure Setup.OnGrid (setup : Setup) (instructions : List Instruction) : Prop where
  /-- The thread that runs next is at an instruction. -/
  next : ∀ machine, Machine.Reachable setup machine → ∀ chosen, machine.switch = .running chosen →
    ∃ instruction ∈ instructions, instruction.offset = chosen.roster.running.ip ∧
      setup.program.code.fetch chosen.roster.running.ip = .ok instruction
  /-- No run ends because there is no instruction. -/
  ends : ∀ store source args fuel outcome,
    Machine.run setup fuel (Machine.start setup store source args) = some outcome →
    ∀ offset cause trace, outcome.ending ≠ .faulted (.invalidInstruction offset cause) trace

theorem Setup.OnGrid.of_starts {setup : Setup} {instructions : List Instruction}
    (decoded : decode setup.program.code.bytes = .ok instructions)
    (starts : ∀ machine, Machine.Reachable setup machine →
      ∀ chosen, machine.switch = .running chosen →
        Starts instructions chosen.roster.running.ip) : setup.OnGrid instructions := by
  have next (machine : Machine) (reachable : Machine.Reachable setup machine) (chosen : Machine)
      (switched : machine.switch = .running chosen) :
      ∃ instruction ∈ instructions, instruction.offset = chosen.roster.running.ip ∧
        setup.program.code.fetch chosen.roster.running.ip = .ok instruction := by
    obtain ⟨line, inside, here⟩ := starts machine reachable chosen switched
    have instruction := List.getElem?_eq_getElem inside
    have fetched := fetch_boundary decoded instruction
    rw [← here] at fetched
    exact ⟨_, List.getElem_mem inside, Segment.offset_of_fetch fetched, fetched⟩
  refine ⟨next, fun store source args fuel outcome ended offset cause trace invalid => ?_⟩
  rcases Machine.exists_reachable_of_run ended with
    begun | ⟨machine, reachable, ends⟩
  · rw [Machine.ending_of_start begun] at invalid
    cases invalid
  · obtain ⟨chosen, switched, awake⟩ := reachable.awake.switch
    obtain ⟨instruction, -, -, fetched⟩ := next machine reachable chosen switched
    -- An instruction that is there fails for other reasons.
    rw [Machine.step_of_switch switched] at ends
    have accounts := Machine.ends_of_act awake ends
    rw [invalid] at accounts
    obtain ⟨thread, fails, -⟩ | ⟨-, -, -, -, -, deadlock, -⟩ := accounts
    · obtain ⟨cause, failed, -⟩ | ⟨_, -, _, -, -, -, misses⟩ | data | ⟨_, full⟩ | ⟨_, deadlock⟩ :=
        fails.cause
      · cases fetched.symm.trans failed
      · cases misses
      · cases data
      · cases full
      · cases deadlock
    · cases deadlock

namespace Program.Shrinks

variable {before after : List Instruction} {plain shrunk : Program}
  (h : plain.Shrinks before after shrunk)

include h

theorem onGrid_plain (limits : Limits) : Setup.OnGrid ⟨plain, limits⟩ before := by
  refine .of_starts h.encodes.decoded fun machine reachable chosen switched => ?_
  obtain ⟨machine', -, tied⟩ := (h.inStep limits).exists_of_left reachable
  obtain ⟨_, ends, -⟩ | ⟨_, chosen', same, -, tied⟩ := tied.switch.both
  · cases switched.symm.trans ends
  · cases switched.symm.trans same
    obtain ⟨line, inside, here, -⟩ := tied.roster.running.registers.ip
    exact ⟨line, inside, here⟩

theorem onGrid_shrunk (limits : Limits) : Setup.OnGrid ⟨shrunk, limits⟩ after := by
  refine .of_starts h.decoded fun machine' reachable chosen' switched => ?_
  obtain ⟨machine, -, tied⟩ := (h.inStep limits).exists_of_right reachable
  obtain ⟨_, -, ends⟩ | ⟨chosen, _, -, same, tied⟩ := tied.switch.both
  · cases switched.symm.trans ends
  · cases switched.symm.trans same
    obtain ⟨line, inside, -, here⟩ := tied.roster.running.registers.ip
    exact ⟨line, h.length.symm ▸ inside, here⟩

end Program.Shrinks

/-! ## Linking -/

namespace Link

/-- Linking without shrinking never fails over the layout of the code. -/
theorem link_ne_optimize (facades : List Facade) (units : List LoadedUnit) (cause : LayoutError) :
    Program.link facades false units ≠ .error (.optimize cause) := by
  intro failed
  unfold Program.link at failed
  cases result : link facades false units ⟨.empty, .empty⟩ with
  | ok program linkage =>
      rw [result] at failed
      cases failed
  | error fault linkage =>
      rw [result] at failed
      cases failed
      have linked : Keeps (fun _ _ _ _ => True) (fun _ => True) (link facades false units) :=
        (Keeps.of_link facades fun _ _ _ _ _ _ => trivial).mono fun _ _ => trivial
      cases linked.of_error Linkage.declared_empty result

end Link

namespace LoadedUnit

/-- Whether a unit is what verification has made of a compiled one. -/
def Verified (unit : LoadedUnit) : Prop :=
  ∃ metadata, CompiledUnit.verify ⟨metadata, unit.code⟩ = .ok unit.view

theorem Verified.checked {unit : LoadedUnit} (h : unit.Verified) : unit.Checked := by
  obtain ⟨metadata, verified⟩ := h
  obtain ⟨view, -, verified⟩ := Except.bind_eq_ok_iff.mp verified
  obtain ⟨⟨⟩, checked, rest⟩ := Except.bind_eq_ok_iff.mp verified
  cases rest
  exact checked

def verified? (unit : CompiledUnit) : Option LoadedUnit :=
  unit.verify.toOption.map fun view => ⟨unit.code, view⟩

theorem verified_of_mem {compiled : List CompiledUnit} {unit : LoadedUnit}
    (h : unit ∈ compiled.filterMap verified?) : unit.Verified := by
  obtain ⟨⟨metadata, code⟩, -, found⟩ := List.mem_filterMap.mp h
  obtain ⟨view, accepted, rfl⟩ := Option.map_eq_some_iff.mp found
  refine ⟨metadata, ?_⟩
  cases verified : CompiledUnit.verify ⟨metadata, code⟩ with
  | error fault =>
      rw [verified] at accepted
      cases accepted
  | ok other =>
      rw [verified] at accepted
      cases accepted
      rfl

end LoadedUnit

namespace Program

/-- **Verified code stays on its instructions.** Linking verified units never fails over the layout
of their code, and the threads of the program always stand at instructions of its stream, whether
or not branches are shrunk. -/
theorem link_onGrid {units : List LoadedUnit} (verified : ∀ unit ∈ units, unit.Verified)
    (small : (units.flatMap (·.code)).length < 0x80000000) (facades : List Facade)
    (optimize : Bool) :
    (∀ cause, link facades optimize units ≠ .error (.optimize cause)) ∧
      ∀ program, link facades optimize units = .ok program →
        ∃ instructions, decode program.code.bytes = .ok instructions ∧
          ∀ limits, Setup.OnGrid ⟨program, limits⟩ instructions := by
  have checked (unit : LoadedUnit) (member : unit ∈ units) : unit.Checked :=
    (verified unit member).checked
  refine ⟨fun cause failed => ?never, fun program linked => ?stays⟩
  case never =>
    cases optimize with
    | false => exact Link.link_ne_optimize facades units cause failed
    | true =>
        -- Shrinking fails only where linking fails without it, and for the same reason.
        have programs := Link.link_match checked small facades
        rw [failed] at programs
        cases plain : link facades false units with
        | ok program =>
            rw [plain] at programs
            exact programs.elim
        | error fault =>
            rw [plain] at programs
            obtain rfl : fault = .optimize cause := programs
            exact Link.link_ne_optimize facades units cause plain
  case stays =>
    obtain ⟨before, after, plain, shrunk, -, shrinks, rfl⟩ :=
      Link.exists_shrinks_of_link checked (by omega) linked
    cases optimize with
    | false => exact ⟨before, shrinks.encodes.decoded, shrinks.onGrid_plain⟩
    | true => exact ⟨after, shrinks.decoded, shrinks.onGrid_shrunk⟩

/-- A module whose main method never ends. -/
def loops : CompiledUnit :=
  let records : List MetaRecord := [
    .moduleHeader "app" 0 0 0 0,
    .classHeader ⟨"Main", "", 0, 0, 1, .plain⟩,
    .method ⟨"main", 1, 0, false, 0, 0, true⟩,
    .finish]
  ⟨MetaRecord.encodeAll records, [0x52, 0, 0, 0, 0]⟩  -- jmp, to itself

/-- Shrunk, the program of this module has the jump and the entry sequence. -/
theorem link_onGrid_loops :
    ∃ unit program instructions, loops.verify = .ok unit.view ∧ unit.code = loops.code ∧
      link [] true [unit] = .ok program ∧ decode program.code.bytes = .ok instructions ∧
      instructions.length = 4 ∧ ∀ limits, Setup.OnGrid ⟨program, limits⟩ instructions := by
  have links : loops.verify.toOption.bind (fun view =>
      (link [] true [⟨loops.code, view⟩]).toOption.bind fun program =>
        (decode program.code.bytes).toOption.map (·.length)) = some 4 := by
    decide +kernel
  cases verified : loops.verify with
  | error fault =>
      rw [verified] at links
      cases links
  | ok view =>
      rw [verified] at links
      have sound : ∀ unit ∈ [(⟨loops.code, view⟩ : LoadedUnit)], unit.Verified :=
        List.forall_mem_singleton.mpr ⟨loops.metadata, verified⟩
      have onGrid := (link_onGrid sound (by simp [loops]) [] true).2
      cases linked : link [] true [⟨loops.code, view⟩] with
      | error fault =>
          simp only [Except.toOption, Option.bind_some, linked] at links
          cases links
      | ok program =>
          simp only [Except.toOption, Option.bind_some, linked] at links
          obtain ⟨instructions, decoded, stays⟩ := onGrid program linked
          rw [decoded] at links
          exact ⟨⟨loops.code, view⟩, program, instructions, rfl, rfl, linked, decoded,
            Option.some.inj links, stays⟩

end Program

end ObjectMachine
