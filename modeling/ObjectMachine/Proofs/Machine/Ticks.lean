import ObjectMachine.Proofs.Machine.Disregards
import ObjectMachine.Proofs.Machine.Moments
import ObjectMachine.Proofs.Machine.Requests

/-!
# Runs of a single thread

A thread that is alone is chosen again whenever the clock ticks, and when it sleeps the time passes
until it wakes up. So as long as it makes no copy of itself, it does the same under any clock: what
it could learn of the time is only whether another thread has run meanwhile.
-/

namespace ObjectMachine

/-! ## A thread that is alone -/

namespace Thread

/-- Whether two threads are the same, unless both sleep: then they may wake up at other ticks. -/
structure Alike (thread other : Thread) : Prop where
  eq : other = { thread with state := other.state }
  state : other.state = thread.state ∨
    (∃ wake, thread.state = .sleeping wake) ∧ ∃ wake, other.state = .sleeping wake

theorem Alike.refl (thread : Thread) : thread.Alike thread := ⟨rfl, .inl rfl⟩

def resumesAlone (held : List MonitorKey) (thread : Thread) : Bool :=
  match thread.state with
  | .running | .suspending | .sleeping _ => true
  | .joining id => !(thread.id == id)
  | .waiting key => !held.contains key
  | .exiting => false

theorem Alike.resumesAlone {thread other : Thread} (h : thread.Alike other)
    (held : List MonitorKey) : other.resumesAlone held = thread.resumesAlone held := by
  have id : other.id = thread.id := by rw [h.eq]
  unfold Thread.resumesAlone
  obtain state | ⟨⟨wake, state⟩, ⟨wake', state'⟩⟩ := h.state
  · rw [state, id]
  · rw [state, state']

theorem Alike.heldBy {thread other : Thread} (h : thread.Alike other) (held : List MonitorKey) :
    Schedule.heldBy other held = Schedule.heldBy thread held := by
  unfold Schedule.heldBy
  obtain state | ⟨⟨wake, state⟩, ⟨wake', state'⟩⟩ := h.state
  · rw [state]
  · rw [state, state']

end Thread

namespace Schedule

variable {held : List MonitorKey} {clock : Clock} {nextId : ThreadId} {thread : Thread}

theorem resumeFirst_alone (thread : Thread) (nextId : ThreadId) (held : List MonitorKey)
    (clock : Clock) :
    resumeFirst [thread] nextId held clock 1 =
      if resumable [thread] held clock.now thread then
        some (.run ⟨[], { thread with state := .running }, [], nextId⟩ (heldBy thread held) clock)
      else none := by
  unfold resumeFirst pick
  by_cases resumes : resumable [thread] held clock.now thread = true <;> simp [resumes, resume]

theorem schedule_alone (stays : thread.state ≠ .exiting) (nextId : ThreadId)
    (held : List MonitorKey) (clock : Clock) :
    ∃ clock', Roster.schedule ⟨[], thread, [], nextId⟩ held clock =
      if thread.resumesAlone held then
        .run ⟨[], { thread with state := .running }, [], nextId⟩ (heldBy thread held) clock'
      else .deadlock [thread] 0 := by
  have candidates : Roster.candidates ⟨[], thread, [], nextId⟩ = [thread] := if_neg stays
  have place : Roster.firstPlace ⟨[], thread, [], nextId⟩ = 1 := if_neg stays
  rw [Roster.schedule_eq, Roster.choice, candidates, place, resumeFirst_alone]
  cases state : thread.state with
  | running | suspending =>
      refine ⟨clock, ?_⟩
      simp [resumable, Thread.resumesAlone, state]
  | exiting => exact absurd state stays
  | waiting key =>
      refine ⟨clock, ?_⟩
      by_cases taken : key ∈ held <;>
        simp [resumable, Thread.resumesAlone, state, taken, earliestWake, ThreadState.wake?]
  | joining id =>
      refine ⟨clock, ?_⟩
      by_cases own : thread.id = id <;>
        simp [resumable, Thread.resumesAlone, state, own, earliestWake, ThreadState.wake?]
  | sleeping wake =>
      have goesOn : thread.resumesAlone held = true := by rw [Thread.resumesAlone, state]
      have wakes : earliestWake [thread] = some wake := by
        simp [earliestWake, state, ThreadState.wake?]
      by_cases passed : resumable [thread] held clock.now thread = true
      · refine ⟨clock, ?_⟩
        simp [passed, goesOn]
      · -- When the time has passed until it wakes up, it goes on.
        refine ⟨clock.idleUntil wake, ?_⟩
        obtain ⟨decision, second⟩ := resumeFirst_idleUntil nextId held clock 1 wakes
        rw [resumeFirst_alone] at second
        rw [if_neg passed, wakes, if_pos goesOn]
        dsimp only
        rw [resumeFirst_alone]
        split at second
        · next later =>
            rw [if_pos later]
            rfl
        · cases second

end Schedule

namespace Machine

def solo (thread : Thread) (nextId : ThreadId) (store : Store) (held : List MonitorKey)
    (clock : Clock) (result : Value) : Machine :=
  ⟨⟨[], thread, [], nextId⟩, ⟨store, held, clock⟩, result⟩

end Machine

/-- Whether two runs of a single thread have come to the same, but for their clocks. -/
inductive Progress.Abreast : Progress → Progress → Prop
  | running {thread : Thread} {nextId : ThreadId} {store : Store} {held : List MonitorKey}
      {result : Value} (clock clock' : Clock) : thread.state = .running →
      Abreast (.running (.solo thread nextId store held clock result))
        (.running (.solo thread nextId store held clock' result))
  | ended (outcome : Outcome) : Abreast (.ended outcome) (.ended outcome)

namespace Machine

variable {setup : Setup} {store : Store} {held : List MonitorKey} {clock clock' : Clock}
  {nextId : ThreadId} {thread other : Thread} {result : Value}

theorem reschedule_solo (stays : thread.state ≠ .exiting) (nextId : ThreadId) (store : Store)
    (held : List MonitorKey) (clock : Clock) (result : Value) :
    ∃ clock', (solo thread nextId store held clock result).reschedule =
      if thread.resumesAlone held then
        .running (solo { thread with state := .running } nextId store
          (Schedule.heldBy thread held) clock' result)
      else .ended ⟨.faulted (.deadlock 1) thread.trace, store⟩ := by
  obtain ⟨clock', scheduled⟩ := Schedule.schedule_alone stays nextId held clock.look
  refine ⟨clock', ?_⟩
  unfold reschedule solo
  dsimp only
  rw [scheduled]
  by_cases resumes : thread.resumesAlone held = true
  · rw [if_pos resumes, if_pos resumes]
  · rw [if_neg resumes, if_neg resumes]
    rfl

theorem reschedule_abreast (alike : thread.Alike other) (stays : thread.state ≠ .exiting) :
    (solo thread nextId store held clock result).reschedule.Abreast
      (solo other nextId store held clock' result).reschedule := by
  have stays' : other.state ≠ .exiting := by
    obtain same | ⟨-, ⟨wake, sleeps⟩⟩ := alike.state
    · rw [same]
      exact stays
    · rw [sleeps]
      nofun
  obtain ⟨after, scheduled⟩ := reschedule_solo stays nextId store held clock result
  obtain ⟨after', scheduled'⟩ := reschedule_solo stays' nextId store held clock' result
  have running : ({ other with state := .running } : Thread) =
      { thread with state := .running } := by
    rw [alike.eq]
  have trace : other.trace = thread.trace := by
    rw [alike.eq]
    rfl
  rw [scheduled, scheduled', alike.resumesAlone, alike.heldBy, running, trace]
  split
  · exact .running after after' rfl
  · exact .ended _

theorem switch_solo (running : thread.state = .running) (nextId : ThreadId) (store : Store)
    (held : List MonitorKey) (clock : Clock) (result : Value) :
    ∃ clock', (solo thread nextId store held clock result).switch =
      .running (solo thread nextId store held clock' result) := by
  rw [switch_eq]
  by_cases due : clock.look.due = true
  · have stays : thread.state ≠ .exiting := by
      rw [running]
      nofun
    have goesOn : thread.resumesAlone held = true := by
      rw [Thread.resumesAlone, running]
    have kept : Schedule.heldBy thread held = held := by
      rw [Schedule.heldBy, running]
    have same : { thread with state := .running } = thread := by
      rw [← running]
    obtain ⟨clock', scheduled⟩ :=
      reschedule_solo stays nextId store held clock.look.noted result
    rw [if_pos goesOn, kept, same] at scheduled
    refine ⟨clock', ?_⟩
    rw [← scheduled]
    exact if_pos due
  · exact ⟨clock.look, if_neg due⟩

end Machine

/-! ## Instructions under another clock -/

namespace Step

variable {setup : Setup}

/-- Whether an instruction has come to the same in two scenes that differ in the clock. A thread
that gives way may wake up at another time. -/
inductive ResultsAlike :
    EStateM.Result Fault Scene Signal → EStateM.Result Fault Scene Signal → Prop
  | ok {signal : Signal} {next next' : Scene} : next.thread.Alike next'.thread →
      (signal ≠ .yield → next'.thread = next.thread) →
      next'.world = { next.world with clock := next'.world.clock } →
      ResultsAlike (.ok signal next) (.ok signal next')
  | error {fault : Fault} {next next' : Scene} : next'.thread.trace = next.thread.trace →
      next'.world.store = next.world.store → ResultsAlike (.error fault next) (.error fault next')

theorem ResultsAlike.under (clock : Clock) (after : EStateM.Result Fault Scene Signal) :
    ResultsAlike after (resultUnder none clock after) := by
  cases after with
  | ok signal next => exact .ok (.refl _) (fun _ => rfl) rfl
  | error fault next => exact .error rfl rfl

theorem sleep_alike (scene : Scene) (clock : Clock) :
    ResultsAlike (sleep setup scene) (sleep setup (scene.under none clock)) := by
  have pops := (Disregards.of_pop : Disregards none clock pop) setup scene
  unfold sleep
  change ResultsAlike (EStateM.bind (pop setup) _ scene)
    (EStateM.bind (pop setup) _ (scene.under none clock))
  unfold EStateM.bind
  rw [pops]
  cases pop setup scene with
  | error fault middle => exact .error rfl rfl
  | ok value middle =>
      dsimp only [resultUnder]
      cases value.asInteger? with
      | none => exact .error rfl rfl
      | some millis => exact .ok ⟨rfl, .inr ⟨⟨_, rfl⟩, ⟨_, rfl⟩⟩⟩ (absurd rfl) rfl

theorem execute_alike (setup : Setup) (instruction : Instruction) (scene : Scene) (clock : Clock) :
    ResultsAlike (execute instruction setup scene)
      (execute instruction setup (scene.under none clock)) := by
  by_cases sleeps : instruction.opcode = .sleep
  · unfold execute
    rw [sleeps]
    exact sleep_alike scene clock
  · rw [execute_under sleeps]
    exact .under clock _

end Step

namespace Machine

variable {setup : Setup} {store : Store} {held : List MonitorKey} {clock clock' : Clock}
  {nextId : ThreadId} {thread other : Thread} {result : Value} {signal : Signal}

theorem answer_abreast (alike : thread.Alike other) (same : signal ≠ .yield → other = thread)
    (fits : signal.Fits .running thread.state) (forks : signal ≠ .fork) :
    ((solo thread nextId store held clock result).answer setup signal).Abreast
      ((solo other nextId store held clock' result).answer setup signal) := by
  cases signal with
  | yield => exact reschedule_abreast alike fits.stays
  | fork => exact absurd rfl forks
  | proceed =>
      obtain rfl := same nofun
      exact .running clock clock' fits
  | leave =>
      obtain rfl := same nofun
      exact .ended _
  | join id =>
      obtain rfl := same nofun
      have roster : (solo other nextId store held clock' result).roster =
          (solo other nextId store held clock result).roster := rfl
      unfold answer
      dsimp only
      rw [roster]
      split
      · exact reschedule_abreast (.refl { other with state := .joining id }) nofun
      · exact .running clock clock' fits

/-- An instruction of a thread that is alone does the same under any clock, if it makes no copy of
the thread. -/
theorem perform_abreast {instruction : Instruction} (running : thread.state = .running)
    (forks : instruction.opcode ≠ .fork) :
    ((solo thread nextId store held clock result).perform setup instruction).Abreast
      ((solo thread nextId store held clock' result).perform setup instruction) := by
  have alike := Step.execute_alike setup instruction ⟨thread, ⟨store, held, clock⟩⟩ clock'
  change Step.ResultsAlike _ (Step.execute instruction setup ⟨thread, ⟨store, held, clock'⟩⟩)
    at alike
  unfold perform solo
  dsimp only
  generalize execute : Step.execute instruction setup ⟨thread, ⟨store, held, clock⟩⟩ = first
    at alike ⊢
  generalize Step.execute instruction setup ⟨thread, ⟨store, held, clock'⟩⟩ = second at alike ⊢
  cases alike with
  | error trace store =>
      dsimp only
      rw [trace, store]
      exact .ended _
  | ok threads same world =>
      have fits := ((Step.execute_settles instruction).of_ok execute).2
      dsimp only at fits
      rw [running] at fits
      dsimp only
      rw [world]
      exact answer_abreast threads same fits ((Step.execute_requests execute).ne_fork forks)

theorem act_abreast (running : thread.state = .running)
    (forks : ∀ instruction, setup.program.code.fetch thread.ip = .ok instruction →
      instruction.opcode ≠ .fork) :
    ((solo thread nextId store held clock result).act setup).Abreast
      ((solo thread nextId store held clock' result).act setup) := by
  unfold act fetch solo
  dsimp only
  cases fetched : setup.program.code.fetch thread.ip with
  | error cause => exact .ended _
  | ok instruction =>
      have ahead : ({ thread with ip := instruction.offset + instruction.size } : Thread).state =
          .running := running
      exact perform_abreast ahead (forks instruction fetched)

end Machine

/-! ## Whole runs -/

namespace Progress

variable {setup : Setup} {progress other : Progress} {count : Nat}

def executing? (setup : Setup) : Progress → Option (Instruction × Thread)
  | running machine =>
    match machine.ready setup with
    | .execute current instruction => some (instruction, current.roster.running)
    | .ended _ => none
  | ended _ => none

def NeverForks (setup : Setup) (progress : Progress) : Prop :=
  ∀ count instruction thread,
    (advance setup count progress).executing? setup = some (instruction, thread) →
      instruction.opcode ≠ .fork

/-- A thread that is alone goes on with its own next instruction, whether the clock has ticked or
not. -/
theorem executing?_solo {thread : Thread} (running : thread.state = .running) (nextId : ThreadId)
    (store : Store) (held : List MonitorKey) (clock : Clock) (result : Value) :
    (Progress.running (.solo thread nextId store held clock result)).executing? setup =
      match setup.program.code.fetch thread.ip with
      | .ok instruction =>
        some (instruction, { thread with ip := instruction.offset + instruction.size })
      | .error _ => none := by
  obtain ⟨after, switched⟩ := Machine.switch_solo running nextId store held clock result
  unfold executing? Machine.ready
  dsimp only
  rw [switched]
  unfold Machine.fetch Machine.solo
  dsimp only
  cases setup.program.code.fetch thread.ip <;> rfl

theorem Abreast.executing? (h : progress.Abreast other) :
    other.executing? setup = progress.executing? setup := by
  cases h with
  | running clock clock' running => rw [executing?_solo running, executing?_solo running]
  | ended outcome => rfl

theorem Abreast.advance_one (h : progress.Abreast other)
    (forks : ∀ instruction thread, progress.executing? setup = some (instruction, thread) →
      instruction.opcode ≠ .fork) :
    (advance setup 1 progress).Abreast (advance setup 1 other) := by
  cases h with
  | ended outcome => exact .ended outcome
  | @running thread nextId store held result clock clock' running =>
      rw [executing?_solo running] at forks
      obtain ⟨after, switched⟩ := Machine.switch_solo running nextId store held clock result
      obtain ⟨after', switched'⟩ := Machine.switch_solo running nextId store held clock' result
      change (Machine.step setup _).Abreast (Machine.step setup _)
      rw [Machine.step_of_switch switched, Machine.step_of_switch switched']
      refine Machine.act_abreast running fun instruction fetched => ?_
      rw [fetched] at forks
      exact forks instruction _ rfl

theorem Abreast.stay (h : progress.Abreast other) (forks : progress.NeverForks setup)
    (count : Nat) : (advance setup count progress).Abreast (advance setup count other) := by
  induction count with
  | zero => exact h
  | succ count ih =>
      rw [advance_add setup count 1 progress, advance_add setup count 1 other]
      exact ih.advance_one (forks count)

theorem run_eq_advance (setup : Setup) (fuel : Nat) (progress : Progress) :
    Machine.run setup fuel progress =
      match advance setup fuel progress with
      | ended outcome => some outcome
      | running _ => none := by
  induction fuel generalizing progress with
  | zero => cases progress <;> rfl
  | succ fuel ih =>
      cases progress with
      | ended outcome => rfl
      | running machine => exact ih (machine.step setup)

/-- A run that ends makes no copies if the instructions until then make none. -/
theorem NeverForks.of_run {fuel : Nat}
    (ends : (Machine.run setup fuel progress).isSome)
    (quiet : ∀ count < fuel, ((advance setup count progress).executing? setup).all
      fun (instruction, _) => instruction.opcode ≠ .fork) : progress.NeverForks setup := by
  intro count instruction thread executes
  by_cases before : count < fuel
  · have other := quiet count before
    rw [executes] at other
    exact of_decide_eq_true other
  · obtain ⟨outcome, run⟩ := Option.isSome_iff_exists.mp ends
    rw [advance_of_ended (advance_of_run run) (Nat.le_of_not_lt before)] at executes
    cases executes

theorem Abreast.run_eq (h : (advance setup count progress).Abreast (advance setup count other)) :
    Machine.run setup count other = Machine.run setup count progress := by
  rw [run_eq_advance, run_eq_advance]
  generalize advance setup count progress = first at h
  generalize advance setup count other = second at h
  cases h <;> rfl

def timeless : Progress → Progress
  | running machine => running (machine.underClock (.start (.steps 1)))
  | ended outcome => ended outcome

theorem Abreast.timeless (h : progress.Abreast other) : other.timeless = progress.timeless := by
  cases h <;> rfl

end Progress

namespace Machine

theorem start_abreast (setup : Setup) (store : Store) (args : List String)
    (source other : TickSource) :
    (start setup store source args).Abreast (start setup store other args) := by
  unfold start
  dsimp only
  split
  · exact .running _ _ rfl
  · exact .ended _

/-- A single thread cannot see the clock: as long as a run makes no copy of its thread, it is the
same under any other clock. Both execute the same instructions in the same states of the thread,
have the same store, held monitors and output after each, and come to the same end. -/
theorem clock_unseen (setup : Setup) (store : Store) (args : List String)
    (source other : TickSource)
    (forks : Progress.NeverForks setup (start setup store source args)) :
    (∀ count,
      (Progress.advance setup count (start setup store other args)).executing? setup =
        (Progress.advance setup count (start setup store source args)).executing? setup ∧
      (Progress.advance setup count (start setup store other args)).timeless =
        (Progress.advance setup count (start setup store source args)).timeless) ∧
    ∀ fuel, run setup fuel (start setup store other args) =
      run setup fuel (start setup store source args) := by
  have abreast count := (start_abreast setup store args source other).stay forks count
  exact ⟨fun count => ⟨(abreast count).executing?, (abreast count).timeless⟩,
    fun fuel => (abreast fuel).run_eq⟩

/-- A thread that takes a monitor, sleeps, gives way and frees the monitor. -/
def restsAlone : Setup :=
  (Setup.ofMain? [
    0x13, 0,  -- loadlocal, the main class
    0x95,     -- wait
    0x07, 5,  -- pushbyte
    0x94,     -- sleep
    0x93,     -- nice
    0x13, 0,  -- loadlocal
    0x96,     -- signal
    0x31]     -- ret
    0).get (by decide +kernel)

/-- A run with a tick at every instruction ends like one with a tick at every third one. -/
theorem clock_unseen_restsAlone :
    Progress.NeverForks restsAlone
      (start restsAlone (.ofCatalog restsAlone.program.catalog) (.steps 1) []) ∧
    ∃ outcome, outcome.ending = .finished .null ∧
      run restsAlone 20 (start restsAlone (.ofCatalog restsAlone.program.catalog) (.steps 1) []) =
        some outcome ∧
      run restsAlone 20 (start restsAlone (.ofCatalog restsAlone.program.catalog) (.steps 3) []) =
        some outcome := by
  have ends : ((run restsAlone 20
      (start restsAlone (.ofCatalog restsAlone.program.catalog) (.steps 1) [])).any
        fun outcome => outcome.ending = .finished .null) = true := by
    decide +kernel
  obtain ⟨outcome, runs, null⟩ := (Option.any_eq_true _ _).mp ends
  have forks : Progress.NeverForks restsAlone
      (start restsAlone (.ofCatalog restsAlone.program.catalog) (.steps 1) []) :=
    .of_run (by rw [runs]; rfl) (by decide +kernel)
  refine ⟨forks, outcome, of_decide_eq_true null, runs, ?_⟩
  rw [(clock_unseen restsAlone _ [] (.steps 1) (.steps 3) forks).2 20]
  exact runs

end Machine

end ObjectMachine
