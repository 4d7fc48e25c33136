import ObjectMachine.Program.Linker
import ObjectMachine.Proofs.Machine.Clocks
import ObjectMachine.Proofs.Machine.Forks
import ObjectMachine.Proofs.Machine.Moves

/-!
# Reachable machines

A machine is reachable if a run of its program comes to it, whatever makes its clock tick: a run
under the time of day may find any number of ticks and any call for a choice each time that it looks
at the clock, so that every interleaving of the threads is one of these runs
(`Machine.reachable_iff_interleaved`). What holds of the registers of the first thread, and of all
registers that an executed instruction leaves, holds of every thread of every reachable machine: a
thread that is forked starts with the registers of another one, and scheduling changes no registers.
-/

namespace ObjectMachine

namespace Machine

def underClock (machine : Machine) (clock : Clock) : Machine :=
  { machine with world := { machine.world with clock } }

def looked (machine : Machine) : Machine :=
  machine.underClock machine.world.clock.look

def noted (machine : Machine) : Machine :=
  machine.underClock machine.world.clock.noted

theorem switch_eq (machine : Machine) :
    machine.switch =
      if machine.looked.world.clock.due then machine.looked.noted.reschedule
      else .running machine.looked := rfl

/-- Whether a machine's clock counts instructions, so many to a tick. -/
def Counts (machine : Machine) (every : UInt64) : Prop :=
  machine.world.clock.source = .steps every

theorem looked_of_counts {machine : Machine} {every : UInt64} (counts : machine.Counts every) :
    machine.looked = machine := by
  unfold looked
  rw [Clock.look_of_counts counts]
  rfl

/-- Whether the next step of a machine is an instruction that makes one scene out of another, the
position having been moved behind the instruction. -/
structure Executes (setup : Setup) (machine : Machine) (instruction : Instruction)
    (scene : Scene) (signal : Signal) (next : Scene) : Prop where
  ready : ∃ current, machine.ready setup = .execute current instruction ∧
    scene = ⟨current.roster.running, current.world⟩
  execute : Step.execute instruction setup scene = .ok signal next

/-- The machines that come up in the runs of a program all of whose steps are of one kind. A run may
have any source of ticks, and under the time of day any passing of it. -/
inductive ReachableBy (setup : Setup) (kind : Instruction → Scene → Scene → Prop) : Machine → Prop
  | start {store : Store} {source : TickSource} {args : List String} {machine : Machine} :
      Machine.start setup store source args = .running machine → ReachableBy setup kind machine
  | step {machine next : Machine} :
      ReachableBy setup kind machine → machine.step setup = .running next →
      (∀ {instruction : Instruction} {scene after : Scene} {signal : Signal},
        machine.Executes setup instruction scene signal after → kind instruction scene after) →
      ReachableBy setup kind next

/-- The machines that come up in the runs of a program, whatever time does in them. -/
abbrev Reachable (setup : Setup) (machine : Machine) : Prop :=
  ReachableBy setup (fun _ _ _ => True) machine

theorem ReachableBy.reachable {setup : Setup} {kind : Instruction → Scene → Scene → Prop}
    {machine : Machine} (h : ReachableBy setup kind machine) : Reachable setup machine := by
  induction h with
  | start h => exact .start h
  | step _ h _ ih => exact .step ih h fun _ => trivial

def executes? (setup : Setup) (machine : Machine) :
    Option (Instruction × Scene × Signal × Scene) :=
  match machine.ready setup with
  | .ended _ => none
  | .execute current instruction =>
    let scene : Scene := ⟨current.roster.running, current.world⟩
    match Step.execute instruction setup scene with
    | .ok signal next => some (instruction, scene, signal, next)
    | .error _ _ => none

theorem executes?_eq_some_iff {setup : Setup} {machine : Machine} {instruction : Instruction}
    {scene next : Scene} {signal : Signal} :
    machine.executes? setup = some (instruction, scene, signal, next) ↔
      machine.Executes setup instruction scene signal next := by
  unfold executes?
  constructor
  · intro h
    cases hr : machine.ready setup with
    | ended outcome =>
        rw [hr] at h
        cases h
    | execute current found =>
        rw [hr] at h
        dsimp only at h
        cases he : Step.execute found setup ⟨current.roster.running, current.world⟩ with
        | error fault after =>
            rw [he] at h
            cases h
        | ok answer after =>
            rw [he] at h
            cases h
            exact ⟨⟨current, hr, rfl⟩, he⟩
  · rintro ⟨⟨current, ready, rfl⟩, execute⟩
    rw [ready]
    dsimp only
    rw [execute]

def nextSatisfies (setup : Setup) (test : Instruction → Scene → Scene → Bool) : Progress → Bool
  | .running machine =>
    (machine.executes? setup).any fun (instruction, scene, _, next) => test instruction scene next
  | .ended _ => false

theorem exists_of_nextSatisfies {setup : Setup} {test : Instruction → Scene → Scene → Bool}
    {progress : Progress} (h : nextSatisfies setup test progress = true) :
    ∃ machine instruction scene signal next, progress = .running machine ∧
      machine.Executes setup instruction scene signal next ∧ test instruction scene next := by
  cases progress with
  | ended outcome => cases h
  | running machine =>
      obtain ⟨⟨instruction, scene, signal, next⟩, found, holds⟩ := (Option.any_eq_true _ _).mp h
      exact ⟨machine, instruction, scene, signal, next, rfl, executes?_eq_some_iff.mp found, holds⟩

end Machine

namespace Progress

theorem advance_add (setup : Setup) (before count : Nat) (progress : Progress) :
    advance setup (before + count) progress =
      advance setup count (advance setup before progress) := by
  induction before generalizing progress with
  | zero => rw [Nat.zero_add, advance]
  | succ before ih =>
      rw [Nat.succ_add]
      cases progress with
      | ended outcome => cases count <;> rfl
      | running machine => exact ih (machine.step setup)

theorem advance_succ {setup : Setup} {count : Nat} {progress : Progress} {next : Machine}
    (h : advance setup (count + 1) progress = .running next) :
    ∃ machine, advance setup count progress = .running machine ∧
      machine.step setup = .running next := by
  induction count generalizing progress with
  | zero =>
      cases progress with
      | ended outcome => cases h
      | running machine => exact ⟨machine, rfl, h⟩
  | succ count ih =>
      cases progress with
      | ended outcome => cases h
      | running machine => exact ih h

theorem advance_of_step {setup : Setup} {count : Nat} {progress : Progress}
    {machine next : Machine} (h : advance setup count progress = .running machine)
    (step : machine.step setup = .running next) :
    advance setup (count + 1) progress = .running next := by
  induction count generalizing progress with
  | zero =>
      obtain rfl : progress = .running machine := h
      exact step
  | succ count ih =>
      cases progress with
      | ended outcome => cases h
      | running first => exact ih h

/-- A run that has ended stays as it is. -/
theorem advance_of_ended {setup : Setup} {count later : Nat} {progress : Progress}
    {outcome : Outcome} (h : advance setup count progress = .ended outcome) (le : count ≤ later) :
    advance setup later progress = .ended outcome := by
  induction count generalizing later progress with
  | zero =>
      obtain rfl : progress = .ended outcome := h
      cases later <;> rfl
  | succ count ih =>
      cases progress with
      | ended last =>
          cases h
          cases later <;> rfl
      | running machine =>
          cases later with
          | zero => cases le
          | succ later =>
              change advance setup count (machine.step setup) = .ended outcome at h
              change advance setup later (machine.step setup) = .ended outcome
              exact ih h (Nat.le_of_succ_le_succ le)

theorem advance_of_run {setup : Setup} {fuel : Nat} {progress : Progress} {outcome : Outcome}
    (h : Machine.run setup fuel progress = some outcome) :
    advance setup fuel progress = .ended outcome := by
  induction fuel generalizing progress with
  | zero =>
      cases progress with
      | ended last =>
          cases h
          rfl
      | running machine => cases h
  | succ fuel ih =>
      cases progress with
      | ended last =>
          cases h
          rfl
      | running machine => exact ih h

end Progress

namespace Machine

section

variable {setup : Setup} {store : Store} {source : TickSource} {args : List String}

theorem Reachable.of_advance {count : Nat} {next : Machine}
    (h : Progress.advance setup count (Machine.start setup store source args) = .running next) :
    Reachable setup next := by
  induction count generalizing next with
  | zero => exact .start h
  | succ count ih =>
      obtain ⟨machine, before, step⟩ := Progress.advance_succ h
      exact .step (ih before) step fun _ => trivial

theorem Reachable.exists_advance {machine : Machine} (h : Reachable setup machine) :
    ∃ store source args count,
      Progress.advance setup count (Machine.start setup store source args) = .running machine := by
  induction h with
  | @start store source args machine h => exact ⟨store, source, args, 0, h⟩
  | step _ step _ ih =>
      obtain ⟨store, source, args, count, before⟩ := ih
      exact ⟨store, source, args, count + 1, Progress.advance_of_step before step⟩

theorem ReachableBy.of_steps {kind : Instruction → Scene → Scene → Prop} {count : Nat}
    {next : Machine}
    (fits : ∀ before < count, ∀ machine,
      Progress.advance setup before (Machine.start setup store source args) = .running machine →
      ∀ {instruction : Instruction} {scene after : Scene} {signal : Signal},
        machine.Executes setup instruction scene signal after → kind instruction scene after)
    (h : Progress.advance setup count (Machine.start setup store source args) = .running next) :
    ReachableBy setup kind next := by
  induction count generalizing next with
  | zero => exact .start h
  | succ count ih =>
      obtain ⟨machine, before, step⟩ := Progress.advance_succ h
      exact .step (ih (fun _ earlier => fits _ (Nat.lt_succ_of_lt earlier)) before) step
        (fits count (Nat.lt_succ_self count) machine before)

/-- A run is of a kind if a test says so of each of its steps. -/
theorem ReachableBy.of_advance {kind : Instruction → Scene → Scene → Prop}
    {test : Instruction → Scene → Scene → Bool} {count : Nat} {next : Machine}
    (sound : ∀ {instruction : Instruction} {scene after : Scene},
      test instruction scene after = true → kind instruction scene after)
    (passes : ∀ before < count, nextSatisfies setup test
      (Progress.advance setup before (Machine.start setup store source args)))
    (h : Progress.advance setup count (Machine.start setup store source args) = .running next) :
    ReachableBy setup kind next := by
  refine .of_steps (fun before earlier machine reached {_ _ _ _} executes => sound ?_) h
  have pass := passes before earlier
  rwa [reached, nextSatisfies, executes?_eq_some_iff.mpr executes] at pass

end

end Machine

def reachesSatisfying (setup : Setup) (count : Nat) (test : Machine → Bool) : Bool :=
  match Progress.advance setup count
      (Machine.start setup (.ofCatalog setup.program.catalog) (.steps 100) []) with
  | .running machine => test machine
  | .ended _ => false

theorem exists_of_reachesSatisfying {setup : Setup} {count : Nat} {test : Machine → Bool}
    (h : reachesSatisfying setup count test = true) :
    ∃ machine, Machine.Reachable setup machine ∧ test machine = true := by
  unfold reachesSatisfying at h
  split at h
  · next machine reached => exact ⟨machine, .of_advance reached, h⟩
  · cases h

def Setup.ofMain? (code : Bytes) (localCount : UInt16) : Option Setup :=
  let main : MethodInfo := ⟨⟨"main", 1, 0, false, 0, localCount, true⟩, #[]⟩
  let view : Metadata := {
    moduleName := "app"
    uses := #[]
    classes := #[{
      name := "Main"
      parent := none
      kind := .plain
      staticFieldCount := 0
      instanceFieldCount := 0
      fields := #[]
      methods := #[main] }]
    enums := #[]
    strings := []
    classRefs := []
    fieldAccesses := []
    methodCalls := [] }
  (Program.link [] false [⟨code, view⟩]).toOption.map fun program => ⟨program, {}⟩

namespace Thread

/-- What becomes of a thread that has executed an instruction when the scheduler has answered it.
The thread itself and its copy may find numbers on the stack after a fork. -/
inductive Answered (thread : Thread) : Signal → Thread → Prop
  | idles {signal : Signal} {next : Thread} :
      signal ≠ .fork → signal ≠ .leave → next.Idles thread → Answered thread signal next
  | forks (id : ThreadId) (state : ThreadState) {values : List Value} {stack : Stack} :
      Stack.Heaped values thread.stack stack →
        Answered thread .fork { thread with id, state, stack }

variable {thread next : Thread}

namespace Answered

variable {signal : Signal}

theorem ne_leave (h : thread.Answered signal next) : signal ≠ .leave := by
  cases h with
  | idles _ stays => exact stays
  | forks => nofun

theorem id (h : thread.Answered signal next) : next.id = thread.id ∨ signal = .fork := by
  cases h with
  | idles _ _ idles => exact .inl idles.id
  | forks => exact .inr rfl

theorem registers (h : thread.Answered signal next) : next.registers = thread.registers := by
  cases h with
  | idles _ _ idles => exact idles.registers
  | forks => rfl

theorem stack (h : thread.Answered signal next) (alone : signal ≠ .fork) :
    next.stack = thread.stack := by
  cases h with
  | idles _ _ idles => exact idles.stack
  | forks => exact absurd rfl alone

end Answered

end Thread

namespace Roster

theorem mem_threads {roster : Roster} {thread : Thread} :
    thread ∈ roster.threads ↔
      thread = roster.running ∨ thread ∈ roster.earlier ++ roster.later := by
  simp only [threads, List.mem_append, List.mem_cons]
  tauto

theorem running_mem (roster : Roster) : roster.running ∈ roster.threads :=
  mem_threads.mpr (.inl rfl)

end Roster

namespace Schedule

theorem nextId_of_resume {threads : List Thread} {nextId : ThreadId}
    {held held' : List MonitorKey} {clock clock' : Clock} {place : Nat} {roster : Roster}
    (h : resume threads nextId held clock place = some (.run roster held' clock')) :
    roster.nextId = nextId := by
  unfold resume at h
  split at h
  · cases h
    rfl
  · cases h

theorem idles_of_resume {threads : List Thread} {nextId : ThreadId} {held held' : List MonitorKey}
    {clock clock' : Clock} {place : Nat} {roster : Roster}
    (h : resume threads nextId held clock place = some (.run roster held' clock'))
    {thread : Thread} (member : thread ∈ roster.threads) : ∃ old ∈ threads, thread.Idles old := by
  unfold resume at h
  split at h
  · next chosen later rest =>
      obtain ⟨rfl, -, -⟩ := by simpa using h
      have all : threads = threads.take place ++ chosen :: later := by
        rw [← rest, List.take_append_drop]
      rcases Roster.mem_threads.mp member with rfl | member
      · exact ⟨chosen, by rw [all]; simp, ⟨rfl⟩⟩
      · refine ⟨thread, ?_, .refl thread⟩
        rw [all]
        rcases List.mem_append.mp member with member | member
        · exact List.mem_append_left _ member
        · exact List.mem_append_right _ (List.mem_cons_of_mem _ member)
  · cases h

end Schedule

namespace Roster

def candidates (roster : Roster) : List Thread :=
  if roster.running.state = .exiting then roster.earlier ++ roster.later else roster.threads

/-- The place from which on the choice looks for a thread that can go on. -/
def firstPlace (roster : Roster) : Nat :=
  if roster.running.state = .exiting then roster.earlier.length else roster.earlier.length + 1

def choice (roster : Roster) (held : List MonitorKey) (clock : Clock) (threads : List Thread)
    (start : Nat) : Decision :=
  let deadlock := Decision.deadlock threads roster.earlier.length
  if threads.isEmpty then .finished
  else
    match Schedule.resumeFirst threads roster.nextId held clock start with
    | some decision => decision
    | none =>
      match Schedule.earliestWake threads with
      | some wake =>
        (Schedule.resumeFirst threads roster.nextId held (clock.idleUntil wake) start).getD deadlock
      | none => deadlock

theorem candidates_of_exiting {roster : Roster} (h : roster.running.state = .exiting) :
    roster.candidates = roster.earlier ++ roster.later := by
  rw [candidates, if_pos h]

theorem schedule_eq (roster : Roster) (held : List MonitorKey) (clock : Clock) :
    roster.schedule held clock = roster.choice held clock roster.candidates roster.firstPlace := by
  have parts : (if roster.running.state = .exiting then
      (roster.earlier ++ roster.later, roster.earlier.length)
        else (roster.threads, roster.earlier.length + 1)) =
      (roster.candidates, roster.firstPlace) := by
    unfold candidates firstPlace
    by_cases exiting : roster.running.state = .exiting
    · simp only [if_pos exiting]
    · simp only [if_neg exiting]
  exact congrArg (fun parts => roster.choice held clock parts.1 parts.2) parts

theorem resumeFirst_of_schedule {roster chosen : Roster} {held held' : List MonitorKey}
    {clock clock' : Clock} (h : roster.schedule held clock = .run chosen held' clock') :
    ∃ now, Schedule.resumeFirst roster.candidates roster.nextId held now roster.firstPlace =
      some (.run chosen held' clock') := by
  rw [schedule_eq, choice] at h
  split at h
  · cases h
  · cases first : Schedule.resumeFirst roster.candidates roster.nextId held clock
        roster.firstPlace with
    | some decision =>
        rw [first] at h
        obtain rfl : decision = .run chosen held' clock' := h
        exact ⟨clock, first⟩
    | none =>
        rw [first] at h
        cases wakes : Schedule.earliestWake roster.candidates with
        | none =>
            rw [wakes] at h
            cases h
        | some wake =>
            rw [wakes] at h
            dsimp only at h
            cases second : Schedule.resumeFirst roster.candidates roster.nextId held
                (clock.idleUntil wake) roster.firstPlace with
            | none =>
                rw [second] at h
                cases h
            | some decision =>
                rw [second] at h
                obtain rfl : decision = .run chosen held' clock' := h
                exact ⟨clock.idleUntil wake, second⟩

theorem resume_of_schedule {roster chosen : Roster} {held held' : List MonitorKey}
    {clock clock' : Clock} (h : roster.schedule held clock = .run chosen held' clock') :
    ∃ now place, Schedule.resume roster.candidates roster.nextId held now place =
      some (.run chosen held' clock') := by
  obtain ⟨now, first⟩ := resumeFirst_of_schedule h
  obtain ⟨place, -, resumed⟩ := Option.bind_eq_some_iff.mp first
  exact ⟨now, place, resumed⟩

theorem idles_of_schedule {roster chosen : Roster} {held held' : List MonitorKey}
    {clock clock' : Clock} (h : roster.schedule held clock = .run chosen held' clock')
    {thread : Thread} (member : thread ∈ chosen.threads) :
    ∃ old ∈ roster.candidates, thread.Idles old := by
  obtain ⟨now, place, resumed⟩ := resume_of_schedule h
  exact Schedule.idles_of_resume resumed member

end Roster

namespace Machine

theorem idles_of_reschedule {machine next : Machine} (h : machine.reschedule = .running next)
    {thread : Thread} (member : thread ∈ next.roster.threads) :
    ∃ old ∈ machine.roster.candidates, thread.Idles old := by
  unfold reschedule at h
  dsimp only at h
  split at h
  · next chosen =>
      obtain rfl := by simpa using h
      exact Roster.idles_of_schedule chosen member
  · cases h
  · split at h <;> cases h

theorem candidates_subset {roster : Roster} {thread : Thread}
    (member : thread ∈ roster.candidates) : thread ∈ roster.threads := by
  unfold Roster.candidates at member
  split at member
  · exact Roster.mem_threads.mpr (.inr member)
  · exact member

theorem idles_of_switch {machine next : Machine} (h : machine.switch = .running next)
    {thread : Thread} (member : thread ∈ next.roster.threads) :
    ∃ old ∈ machine.roster.threads, thread.Idles old := by
  rw [switch_eq] at h
  split at h
  · obtain ⟨old, found, idles⟩ := idles_of_reschedule h member
    exact ⟨old, candidates_subset found, idles⟩
  · cases h
    exact ⟨thread, member, .refl thread⟩

theorem mem_of_switch {machine next : Machine} (h : machine.switch = .running next)
    {thread : Thread} (member : thread ∈ next.roster.threads) :
    ∃ old ∈ machine.roster.threads, thread.id = old.id ∧ thread.registers = old.registers := by
  obtain ⟨old, found, idles⟩ := idles_of_switch h member
  exact ⟨old, found, idles.id, idles.registers⟩

theorem nextId_of_reschedule {machine next : Machine} (h : machine.reschedule = .running next) :
    next.roster.nextId = machine.roster.nextId := by
  unfold reschedule at h
  dsimp only at h
  split at h
  · next chosen =>
      cases h
      obtain ⟨now, place, resumed⟩ := Roster.resume_of_schedule chosen
      exact Schedule.nextId_of_resume resumed
  · cases h
  · split at h <;> cases h

/-- Numbers are given by forks alone. -/
theorem nextId_of_ready {setup : Setup} {machine current : Machine} {instruction : Instruction}
    (h : machine.ready setup = .execute current instruction) :
    current.roster.nextId = machine.roster.nextId := by
  unfold ready at h
  split at h
  · next chosen switched =>
      have same : chosen.roster.nextId = machine.roster.nextId := by
        rw [switch_eq] at switched
        split at switched
        · exact (nextId_of_reschedule switched :)
        · cases switched
          rfl
      rw [← same]
      unfold fetch at h
      dsimp only at h
      split at h
      · cases h
      · cases h
        rfl
  · cases h

/-- The thread that is about to execute an instruction is one of the machine's, with its position
moved behind the instruction. -/
theorem exists_idles_of_ready {setup : Setup} {machine current : Machine}
    {instruction : Instruction} (h : machine.ready setup = .execute current instruction) :
    (∃ old ∈ machine.roster.threads, setup.program.code.fetch old.ip = .ok instruction ∧
      current.roster.running.Idles { old with ip := instruction.offset + instruction.size }) ∧
    ∀ thread ∈ current.roster.earlier ++ current.roster.later,
      ∃ old ∈ machine.roster.threads, thread.Idles old := by
  unfold ready at h
  cases hs : machine.switch with
  | ended outcome =>
      rw [hs] at h
      cases h
  | running chosen =>
      rw [hs] at h
      dsimp only at h
      unfold fetch at h
      dsimp only at h
      cases hf : setup.program.code.fetch chosen.roster.running.ip with
      | error cause =>
          rw [hf] at h
          cases h
      | ok found =>
          rw [hf] at h
          obtain ⟨rfl, rfl⟩ := by simpa using h
          obtain ⟨old, member, idles⟩ := idles_of_switch hs chosen.roster.running_mem
          refine ⟨⟨old, member, ?_, ⟨?_⟩⟩, fun thread other => ?_⟩
          · rw [← hf, idles.eq]
          · change ({ chosen.roster.running with ip := _ } : Thread) = _
            rw [idles.eq]
          · exact idles_of_switch hs (Roster.mem_threads.mpr (.inr other))

/-- Before an instruction is executed, the running thread has its position moved behind it. -/
theorem ready_eq_execute {setup : Setup} {machine current : Machine} {instruction : Instruction}
    (h : machine.ready setup = .execute current instruction) :
    (∃ old ∈ machine.roster.threads, current.roster.running.id = old.id ∧
      setup.program.code.fetch old.ip = .ok instruction ∧
      current.roster.running.registers =
        { old.registers with ip := instruction.offset + instruction.size }) ∧
    ∀ thread ∈ current.roster.earlier ++ current.roster.later,
      ∃ old ∈ machine.roster.threads, thread.id = old.id ∧ thread.registers = old.registers := by
  obtain ⟨⟨old, member, fetched, idles⟩, others⟩ := exists_idles_of_ready h
  refine ⟨⟨old, member, idles.id, fetched, idles.registers⟩, fun thread other => ?_⟩
  obtain ⟨old, member, idles⟩ := others thread other
  exact ⟨old, member, idles.id, idles.registers⟩

/-- A forked roster has one thread more, which goes on like the running one. -/
theorem answered_of_fork {setup : Setup} {machine next : Machine}
    (h : machine.fork setup = .running next) {thread : Thread}
    (member : thread ∈ next.roster.threads) :
    machine.roster.running.Answered .fork thread ∨
      ∃ old ∈ machine.roster.earlier ++ machine.roster.later,
        old.Handed machine.roster.nextId thread := by
  unfold fork at h
  cases forks : forked setup machine.roster with
  | error fault =>
      rw [forks] at h
      cases h
  | ok roster =>
      rw [forks] at h
      cases h
      have grows := forks_of_forked forks
      obtain ⟨values, stack, heaped, running⟩ := grows.running
      rcases Roster.mem_threads.mp member with rfl | member
      · change machine.roster.running.Answered .fork roster.running ∨ _
        rw [running]
        exact .inl (.forks _ _ heaped)
      · rcases grows.exists_handed member with old | copy
        · exact .inr old
        · obtain ⟨zeros, heaped⟩ := copy.heaped
          rw [copy.eq]
          exact .inl (.forks _ _ heaped)

/-- What an instruction asks of the scheduler concerns the thread that has executed it, and the
copy of that; a thread that leaves is gone. -/
theorem answered_of_answer {setup : Setup} {machine next : Machine} {signal : Signal}
    (h : machine.answer setup signal = .running next) {thread : Thread}
    (member : thread ∈ next.roster.threads) :
    machine.roster.running.Answered signal thread ∨
      ∃ old ∈ machine.roster.earlier ++ machine.roster.later,
        thread.Rests machine.roster.nextId old := by
  have split {old : Thread} (forks : signal ≠ .fork) (stays : signal ≠ .leave)
      (found : old ∈ machine.roster.threads) (idles : thread.Idles old) :
      machine.roster.running.Answered signal thread ∨
        ∃ old ∈ machine.roster.earlier ++ machine.roster.later,
          thread.Rests machine.roster.nextId old := by
    rcases Roster.mem_threads.mp found with rfl | found
    · exact .inl (.idles forks stays idles)
    · exact .inr ⟨old, found, idles.rests _⟩
  cases signal with
  | proceed =>
      cases h
      exact split nofun nofun member (.refl thread)
  | yield =>
      obtain ⟨old, found, idles⟩ := idles_of_reschedule h member
      exact split nofun nofun (candidates_subset found) idles
  | fork =>
      exact (answered_of_fork h member).imp_right fun ⟨old, found, hands⟩ =>
        ⟨old, found, hands.rests⟩
  | join id =>
      unfold answer at h
      dsimp only at h
      split at h
      · obtain ⟨old, found, idles⟩ := idles_of_reschedule h member
        rcases Roster.mem_threads.mp (candidates_subset found) with rfl | found
        · exact .inl (.idles nofun nofun (idles.trans ⟨rfl⟩))
        · exact .inr ⟨old, found, idles.rests _⟩
      · cases h
        exact split nofun nofun member (.refl thread)
  | leave =>
      unfold answer leave at h
      dsimp only at h
      split at h
      · cases h
      · obtain ⟨old, found, idles⟩ := idles_of_reschedule h member
        exact .inr ⟨old, found, idles.rests _⟩

/-- What a step that the run survives makes of the threads. -/
theorem exists_answered {setup : Setup} {machine next : Machine}
    (h : machine.step setup = .running next) :
    ∃ instruction scene signal after, machine.Executes setup instruction scene signal after ∧
      ∀ thread ∈ next.roster.threads,
        after.thread.Answered signal thread ∨
          ∃ old ∈ machine.roster.threads, thread.Rests machine.roster.nextId old := by
  unfold step at h
  cases hr : machine.ready setup with
  | ended outcome =>
      rw [hr] at h
      cases h
  | execute current instruction =>
      rw [hr] at h
      unfold perform at h
      dsimp only at h
      cases he : Step.execute instruction setup ⟨current.roster.running, current.world⟩ with
      | error fault after =>
          rw [he] at h
          cases h
      | ok signal after =>
          rw [he] at h
          refine ⟨instruction, _, signal, after, ⟨⟨current, hr, rfl⟩, he⟩, ?_⟩
          intro thread member
          refine (answered_of_answer h member).imp_right ?_
          rintro ⟨other, found, rests⟩
          obtain ⟨old, found, idles⟩ := (exists_idles_of_ready hr).2 other found
          rw [← nextId_of_ready hr]
          exact ⟨old, found, rests.of_idles (.refl thread) idles⟩

/-- What a step that the run survives consists of. -/
theorem step_eq_running {setup : Setup} {machine next : Machine}
    (h : machine.step setup = .running next) :
    ∃ instruction scene signal after, machine.Executes setup instruction scene signal after ∧
      ∀ thread ∈ next.roster.threads,
        (signal ≠ .leave ∧ (thread.id = after.thread.id ∨ signal = .fork) ∧
            thread.registers = after.thread.registers) ∨
          ∃ old ∈ machine.roster.threads,
            thread.id = old.id ∧ thread.registers = old.registers := by
  obtain ⟨instruction, scene, signal, after, executes, threads⟩ := exists_answered h
  refine ⟨instruction, scene, signal, after, executes, fun thread member => ?_⟩
  rcases threads thread member with answered | ⟨old, found, rests⟩
  · exact .inl ⟨answered.ne_leave, answered.id, answered.registers⟩
  · exact .inr ⟨old, found, rests.id, rests.registers⟩

/-- What holds of the registers that a program starts with, and of those that an instruction makes
out of registers that it holds of, holds of all threads of all reachable machines. -/
theorem ReachableBy.registers {setup : Setup} {kind : Instruction → Scene → Scene → Prop}
    {Holds : Registers → Prop}
    (start : Holds ⟨#[], [], 0, setup.program.entry, setup.program.entryModule, .entry⟩)
    (move : ∀ {instruction : Instruction} {registers : Registers} {scene next : Scene}
      {signal : Signal}, Holds registers →
      setup.program.code.fetch registers.ip = .ok instruction →
      scene.thread.registers =
        { registers with ip := instruction.offset + instruction.size } →
      scene.thread.Moves setup instruction next.thread.registers signal →
      kind instruction scene next → Holds next.thread.registers)
    {machine : Machine} (h : ReachableBy setup kind machine) :
    ∀ thread ∈ machine.roster.threads, Holds thread.registers := by
  induction h with
  | @start store source args machine h =>
      unfold Machine.start at h
      dsimp only at h
      split at h
      · cases h
        intro thread member
        obtain rfl : thread = _ := by simpa [Roster.threads, Roster.start] using member
        exact start
      · cases h
  | @step machine next _ h fits ih =>
      obtain ⟨instruction, scene, signal, after, executes, threads⟩ := step_eq_running h
      intro thread member
      rcases threads thread member with ⟨-, -, same⟩ | ⟨old, found, -, same⟩
      · have fit := fits executes
        obtain ⟨⟨current, ready, rfl⟩, execute⟩ := executes
        obtain ⟨⟨old, found, -, fetched, registers⟩, -⟩ := ready_eq_execute ready
        rw [same]
        exact move (ih old found) fetched registers (Step.execute_moves execute).2 fit
      · rw [same]
        exact ih old found

end Machine

end ObjectMachine
