import ObjectMachine.Proofs.Machine.Faults
import ObjectMachine.Proofs.Machine.Reachable

/-!
# How runs end

A run ends with the last thread or with a fault, and the frames that come with a fault are those of
the thread that was executing. Only when a thread has just left and no other can ever go on are they
those of the thread that has moved into its place; if the one that left was the last in order, there
is no such thread.
-/

namespace ObjectMachine

/-! ## Choices among threads -/

/-- Whether a thread waits for a monitor that is held, or for the end of one of some threads. -/
def Thread.Blocked (threads : List Thread) (held : List MonitorKey) (thread : Thread) : Prop :=
  (∃ key, thread.state = .waiting key ∧ key ∈ held) ∨
    ∃ id, thread.state = .joining id ∧ ∃ other ∈ threads, other.id = id

namespace Schedule

variable {threads : List Thread} {nextId : ThreadId} {held : List MonitorKey} {clock : Clock}
  {start : Nat}

theorem pick_eq_none_iff {now : UInt64} (start : Nat) :
    pick threads held now start = none ↔
      ∀ thread ∈ threads, resumable threads held now thread = false := by
  have circle (thread : Thread) :
      thread ∈ threads.drop start ++ threads.take start ↔ thread ∈ threads := by
    rw [List.mem_append, or_comm, ← List.mem_append, List.take_append_drop]
  unfold pick
  simp only [Option.map_eq_none_iff, List.findIdx?_eq_none_iff, circle]

theorem resume_of_pick (nextId : ThreadId) (clock : Clock) {now : UInt64} {place : Nat}
    (h : pick threads held now start = some place) :
    ∃ roster held', resume threads nextId held clock place = some (.run roster held' clock) := by
  have inside : place < threads.length := by
    obtain ⟨distance, found, rfl⟩ := Option.map_eq_some_iff.mp h
    obtain ⟨within, -⟩ := List.findIdx?_eq_some_iff_getElem.mp found
    refine Nat.mod_lt _ ?_
    rw [List.length_append, List.length_drop, List.length_take] at within
    omega
  unfold resume
  rw [List.drop_eq_getElem_cons inside]
  exact ⟨_, _, rfl⟩

theorem resumeFirst_eq_none_iff :
    resumeFirst threads nextId held clock start = none ↔
      ∀ thread ∈ threads, resumable threads held clock.now thread = false := by
  rw [← pick_eq_none_iff start]
  unfold resumeFirst
  cases hp : pick threads held clock.now start with
  | none => simp
  | some place =>
      obtain ⟨roster, held', resumed⟩ := resume_of_pick nextId clock hp
      simp [resumed]

theorem resumeFirst_eq_some {decision : Decision}
    (h : resumeFirst threads nextId held clock start = some decision) :
    ∃ roster held' clock', decision = .run roster held' clock' := by
  obtain ⟨place, picked, resumed⟩ := Option.bind_eq_some_iff.mp h
  obtain ⟨roster, held', same⟩ := resume_of_pick nextId clock picked
  rw [resumed] at same
  exact ⟨roster, held', clock, Option.some.inj same⟩

/-- Once the first sleeping thread wakes up, some thread can go on. -/
theorem resumeFirst_idleUntil (nextId : ThreadId) (held : List MonitorKey) (clock : Clock)
    (start : Nat) {wake : UInt64} (h : earliestWake threads = some wake) :
    ∃ decision, resumeFirst threads nextId held (clock.idleUntil wake) start = some decision := by
  obtain ⟨thread, member, sleeps⟩ := List.mem_filterMap.mp (List.min?_mem h)
  have state : thread.state = .sleeping wake := by
    unfold ThreadState.wake? at sleeps
    split at sleeps
    · next found =>
        rw [found, Option.some.inj sleeps]
    · cases sleeps
  rw [← Option.ne_none_iff_exists', ne_eq, resumeFirst_eq_none_iff]
  intro never
  have late := never thread member
  unfold resumable at late
  rw [state] at late
  exact of_decide_eq_false late (clock.le_idleUntil wake)

theorem blocked_of_not_resumable {thread : Thread}
    (stuck : resumable threads held clock.now thread = false)
    (wakes : earliestWake threads = none) (member : thread ∈ threads)
    (stays : thread.state ≠ .exiting) : thread.Blocked threads held := by
  unfold resumable at stuck
  cases state : thread.state with
  | waiting key =>
      rw [state] at stuck
      exact .inl ⟨key, state, by simpa using stuck⟩
  | joining id =>
      rw [state] at stuck
      exact .inr ⟨id, state, by simpa using stuck⟩
  | sleeping wake =>
      have none := List.min?_eq_none_iff.mp wakes
      rw [List.filterMap_eq_nil_iff] at none
      have := none thread member
      rw [state] at this
      cases this
  | exiting => exact absurd state stays
  | _ =>
      rw [state] at stuck
      cases stuck

theorem not_resumable_of_blocked (clock : Clock) {thread : Thread}
    (blocked : thread.Blocked threads held) :
    resumable threads held clock.now thread = false ∧ thread.state.wake? = none := by
  unfold resumable
  obtain ⟨key, state, taken⟩ | ⟨id, state, there⟩ := blocked
  · rw [state]
    exact ⟨by simpa using taken, rfl⟩
  · rw [state]
    exact ⟨by simpa using there, rfl⟩

end Schedule

namespace Roster

variable {roster : Roster} {held : List MonitorKey}

/-- The choice of a thread fails if there is none, or if all that are left are blocked. -/
theorem schedule_fails (held : List MonitorKey) (clock : Clock)
    (awake : ∀ thread ∈ roster.candidates, thread.state ≠ .exiting) :
    (∃ chosen held' clock', roster.schedule held clock = .run chosen held' clock') ∨
    (roster.schedule held clock = .finished ∧ roster.candidates = []) ∨
    (roster.schedule held clock = .deadlock roster.candidates roster.earlier.length ∧
      roster.candidates ≠ [] ∧
      ∀ thread ∈ roster.candidates, thread.Blocked roster.candidates held) := by
  rw [schedule_eq, choice]
  by_cases empty : roster.candidates = []
  · exact .inr (.inl ⟨by rw [empty]; rfl, empty⟩)
  · have some : roster.candidates.isEmpty = false := by simpa using empty
    rw [some, if_neg Bool.false_ne_true]
    cases first : Schedule.resumeFirst roster.candidates roster.nextId held clock
        roster.firstPlace with
    | some decision =>
        exact .inl (Schedule.resumeFirst_eq_some first)
    | none =>
        have stuck := Schedule.resumeFirst_eq_none_iff.mp first
        cases wakes : Schedule.earliestWake roster.candidates with
        | none =>
            exact .inr (.inr ⟨rfl, empty, fun thread member =>
              Schedule.blocked_of_not_resumable (stuck thread member) wakes member
                (awake thread member)⟩)
        | some wake =>
            -- The second attempt, after the clock has gone on to the first sleeper, succeeds.
            obtain ⟨decision, second⟩ :=
              Schedule.resumeFirst_idleUntil roster.nextId held clock roster.firstPlace wakes
            dsimp only
            rw [second]
            exact .inl (Schedule.resumeFirst_eq_some second)

theorem schedule_of_blocked (clock : Clock) (remain : roster.candidates ≠ [])
    (blocked : ∀ thread ∈ roster.candidates, thread.Blocked roster.candidates held) :
    roster.schedule held clock = .deadlock roster.candidates roster.earlier.length := by
  have first : Schedule.resumeFirst roster.candidates roster.nextId held clock
      roster.firstPlace = none :=
    Schedule.resumeFirst_eq_none_iff.mpr fun thread member =>
      (Schedule.not_resumable_of_blocked clock (blocked thread member)).1
  have wakes : Schedule.earliestWake roster.candidates = none := by
    refine List.min?_eq_none_iff.mpr (List.filterMap_eq_nil_iff.mpr fun thread member => ?_)
    exact (Schedule.not_resumable_of_blocked clock (blocked thread member)).2
  have nonempty : roster.candidates.isEmpty = false := by simpa using remain
  rw [schedule_eq, choice, nonempty, first, wakes]
  rfl

end Roster

namespace Machine

variable {setup : Setup} {machine next : Machine}

/-! ## States of threads -/

/-- Whether the running thread is in that state, and no other one is about to be removed. -/
structure Awake (machine : Machine) : Prop where
  running : machine.roster.running.state = .running
  others : ∀ thread ∈ machine.roster.earlier ++ machine.roster.later, thread.state ≠ .exiting

theorem candidates_stay {roster : Roster}
    (h : ∀ thread ∈ roster.earlier ++ roster.later, thread.state ≠ .exiting) :
    ∀ thread ∈ roster.candidates, thread.state ≠ .exiting := by
  intro thread member
  unfold Roster.candidates at member
  split at member
  · exact h thread member
  · next stays =>
      rcases Roster.mem_threads.mp member with rfl | member
      · exact stays
      · exact h thread member

theorem awake_of_reschedule
    (others : ∀ thread ∈ machine.roster.earlier ++ machine.roster.later, thread.state ≠ .exiting)
    (h : machine.reschedule = .running next) : next.Awake := by
  unfold reschedule at h
  dsimp only at h
  split at h
  · next chosen =>
      obtain rfl := by simpa using h
      obtain ⟨now, place, resumed⟩ := Roster.resume_of_schedule chosen
      unfold Schedule.resume at resumed
      split at resumed
      · next thread later rest =>
          obtain ⟨rfl, -, -⟩ := by simpa using resumed
          refine ⟨rfl, fun other member => candidates_stay others other ?_⟩
          rw [← List.take_append_drop place machine.roster.candidates, rest]
          rcases List.mem_append.mp member with member | member
          · exact List.mem_append_left _ member
          · exact List.mem_append_right _ (List.mem_cons_of_mem _ member)
      · cases resumed
  · cases h
  · split at h <;> cases h

/-- A choice that fails ends the run with a fault of the thread in the running one's place. -/
theorem reschedule_eq_ended {outcome : Outcome}
    (stay : ∀ thread ∈ machine.roster.candidates, thread.state ≠ .exiting)
    (h : machine.reschedule = .ended outcome) (remain : machine.roster.candidates ≠ []) :
    (∀ thread ∈ machine.roster.candidates,
      thread.Blocked machine.roster.candidates machine.world.held) ∧
    outcome.ending = match machine.roster.candidates[machine.roster.earlier.length]? with
      | some thread => .faulted (.deadlock machine.roster.candidates.length) thread.trace
      | none => .crashed := by
  unfold reschedule at h
  rcases Roster.schedule_fails machine.world.held machine.world.clock.look stay with
    ⟨chosen, held, clock, run⟩ | ⟨-, empty⟩ | ⟨deadlock, -, blocked⟩
  · rw [run] at h
    cases h
  · exact absurd empty remain
  · rw [deadlock] at h
    refine ⟨blocked, ?_⟩
    dsimp only at h
    cases found : machine.roster.candidates[machine.roster.earlier.length]? with
    | some thread =>
        rw [found] at h
        cases h
        rfl
    | none =>
        rw [found] at h
        cases h
        rfl

theorem candidates_of_stays {roster : Roster} (h : roster.running.state ≠ .exiting) :
    roster.candidates = roster.threads ∧
      roster.candidates[roster.earlier.length]? = some roster.running := by
  have all : roster.candidates = roster.threads := if_neg h
  refine ⟨all, ?_⟩
  rw [all, Roster.threads, List.getElem?_append_right (Nat.le_refl _), Nat.sub_self]
  rfl

theorem candidates_of_exiting {roster : Roster} (h : roster.running.state = .exiting) :
    roster.candidates = roster.earlier ++ roster.later ∧
      roster.candidates[roster.earlier.length]? = roster.later.head? := by
  have rest := Roster.candidates_of_exiting h
  refine ⟨rest, ?_⟩
  rw [rest, List.getElem?_append_right (Nat.le_refl _), Nat.sub_self, List.head?_eq_getElem?]

theorem Awake.reschedule (awake : machine.Awake) :
    ∃ current, machine.reschedule = .running current ∧ current.Awake := by
  have stays : machine.roster.running.state ≠ .exiting := by
    rw [awake.running]
    nofun
  have member : machine.roster.running ∈ machine.roster.candidates :=
    (candidates_of_stays stays).1 ▸ machine.roster.running_mem
  cases hr : machine.reschedule with
  | running current => exact ⟨current, rfl, awake_of_reschedule awake.others hr⟩
  | ended outcome =>
      -- It would have found all threads blocked, among them the one that runs.
      obtain ⟨blocked, -⟩ :=
        reschedule_eq_ended (candidates_stay awake.others) hr (List.ne_nil_of_mem member)
      obtain ⟨key, waits, -⟩ | ⟨id, joins, -⟩ := blocked _ member
      · cases awake.running.symm.trans waits
      · cases awake.running.symm.trans joins

/-- What the clock calls for never ends a run. -/
theorem Awake.switch (awake : machine.Awake) :
    ∃ current, machine.switch = .running current ∧ current.Awake := by
  rw [switch_eq]
  split
  · exact Awake.reschedule ⟨awake.running, awake.others⟩
  · exact ⟨machine.looked, rfl, awake.running, awake.others⟩

theorem awake_of_fork (awake : machine.Awake) (h : machine.fork setup = .running next) :
    next.Awake := by
  unfold fork at h
  cases forks : forked setup machine.roster with
  | error fault =>
      rw [forks] at h
      cases h
  | ok roster =>
      rw [forks] at h
      cases h
      have grows := forks_of_forked forks
      obtain ⟨values, stack, -, running⟩ := grows.running
      refine ⟨running ▸ awake.running, fun thread member => ?_⟩
      obtain ⟨old, found, hands⟩ | copy := grows.exists_handed member
      · exact hands.state ▸ awake.others old found
      · rw [copy.state]
        nofun

/-- What an instruction asks of the scheduler keeps the states of all threads in order. -/
theorem awake_of_answer {signal : Signal}
    (fits : signal.Fits .running machine.roster.running.state)
    (others : ∀ thread ∈ machine.roster.earlier ++ machine.roster.later, thread.state ≠ .exiting)
    (h : machine.answer setup signal = .running next) : next.Awake := by
  cases signal with
  | proceed =>
      cases h
      exact ⟨fits, others⟩
  | yield => exact awake_of_reschedule others h
  | fork => exact awake_of_fork ⟨fits, others⟩ h
  | join id =>
      unfold answer at h
      dsimp only at h
      split at h
      · exact awake_of_reschedule (by exact others) h
      · cases h
        exact ⟨fits, others⟩
  | leave =>
      unfold answer leave at h
      dsimp only at h
      split at h
      · cases h
      · exact awake_of_reschedule (by exact others) h

theorem fetch_eq_execute {current : Machine} {instruction : Instruction}
    (h : machine.fetch setup = .execute current instruction) :
    current.roster = { machine.roster with
      running := { machine.roster.running with ip := instruction.offset + instruction.size } } ∧
    current.result = machine.result := by
  unfold fetch at h
  dsimp only at h
  split at h
  · cases h
  · cases h
    exact ⟨rfl, rfl⟩

theorem fetch_of_execute {current : Machine} {instruction : Instruction}
    (h : machine.fetch setup = .execute current instruction) :
    setup.program.code.fetch machine.roster.running.ip = .ok instruction := by
  unfold fetch at h
  dsimp only at h
  split at h
  · cases h
  · next found =>
      cases h
      exact found

/-- Whether the running thread executes an instruction that asks something of the scheduler, with
what it makes of the scene. -/
def Performs (setup : Setup) (machine : Machine) (signal : Signal) (next : Scene) : Prop :=
  ∃ current instruction, machine.fetch setup = .execute current instruction ∧
    Step.execute instruction setup ⟨current.roster.running, current.world⟩ = .ok signal next

theorem Performs.settles {signal : Signal} {after : Scene}
    (performs : machine.Performs setup signal after) :
    after.thread.id = machine.roster.running.id ∧
      signal.Fits machine.roster.running.state after.thread.state := by
  obtain ⟨current, instruction, fetched, execute⟩ := performs
  have settles := (Step.execute_settles instruction).of_ok execute
  rw [(fetch_eq_execute fetched).1] at settles
  exact settles

/-- The ways in which an instruction of the running thread fails, with what has become of the thread
by then. -/
inductive Fails (setup : Setup) (machine : Machine) : Fault → Thread → Prop
  /-- There is no instruction at its position. -/
  | unreadable {cause : DecodeError} :
      setup.program.code.fetch machine.roster.running.ip = .error cause →
      Fails setup machine (.invalidInstruction machine.roster.running.ip cause)
        machine.roster.running
  /-- The instruction itself fails. -/
  | failed {current : Machine} {instruction : Instruction} {fault : Fault} {after : Scene} :
      machine.fetch setup = .execute current instruction →
      Step.execute instruction setup ⟨current.roster.running, current.world⟩ =
        .error fault after →
      Fails setup machine fault after.thread
  /-- It asks for a copy of the thread, which cannot be made. -/
  | uncopied {fault : Fault} {after : Scene} :
      machine.Performs setup .fork after →
      forked setup { machine.roster with running := after.thread } = .error fault →
      Fails setup machine fault after.thread
  /-- It blocks the thread, and no other one can ever go on. -/
  | blocked {signal : Signal} {after : Scene} {state : ThreadState} :
      machine.Performs setup signal after → signal ≠ .leave →
      (∀ thread ∈ { machine.roster with running := { after.thread with state } }.threads,
        thread.Blocked { machine.roster with running := { after.thread with state } }.threads
          after.world.held) →
      Fails setup machine (.deadlock machine.roster.count) { after.thread with state }

theorem given_eq_error {value : Value} {thread : Thread} {fault : Fault}
    (h : given value thread = .error fault) : fault = .stackOverflow := by
  unfold given Stack.push at h
  split at h
  · cases h
  · next found =>
      cases h
      split at found
      · cases found
        rfl
      · cases found

theorem forked_eq_error {roster : Roster} {fault : Fault}
    (h : forked setup roster = .error fault) :
    fault = .stackOverflow ∨ fault = .tooManyThreads setup.limits.threads := by
  rcases Except.bind_eq_error_iff.mp h with failed | ⟨⟨id, grown⟩, -, h⟩
  · unfold Roster.fork at failed
    dsimp only at failed
    split at failed
    · cases failed
      exact .inr rfl
    · rcases Except.bind_eq_error_iff.mp failed with full | ⟨grown, -, failed⟩
      · obtain ⟨thread, full⟩ := Roster.change_eq_error full
        exact .inl (given_eq_error full)
      · cases failed
  · rcases Except.bind_eq_error_iff.mp h with full | ⟨parent, -, h⟩
    · exact .inl (given_eq_error full)
    · cases h

/-- Why an instruction fails: it cannot be read, it refers to what its module does not have, or for
reasons that have nothing to do with its code. -/
theorem Fails.cause {fault : Fault} {thread : Thread} (h : machine.Fails setup fault thread) :
    (∃ cause, setup.program.code.fetch machine.roster.running.ip = .error cause ∧
      fault = .invalidInstruction machine.roster.running.ip cause) ∨
    (∃ instruction, setup.program.code.fetch machine.roster.running.ip = .ok instruction ∧
      instruction.Misses (setup.program.moduleOf machine.roster.running.moduleId) fault) ∨
    fault.aboutData ∨ (∃ limit, fault = .tooManyThreads limit) ∨
      ∃ count, fault = .deadlock count := by
  cases h with
  | unreadable failed => exact .inl ⟨_, failed, rfl⟩
  | @failed current instruction fault after fetched execute =>
      have settles := ((Step.execute_settles instruction).of_error execute).2
      rw [(fetch_eq_execute fetched).1] at settles
      rcases settles with data | misses
      · exact .inr (.inr (.inl data))
      · exact .inr (.inl ⟨instruction, fetch_of_execute fetched, misses⟩)
  | uncopied _ failed =>
      rcases forked_eq_error failed with rfl | rfl
      · exact .inr (.inr (.inl rfl))
      · exact .inr (.inr (.inr (.inl ⟨_, rfl⟩)))
  | blocked => exact .inr (.inr (.inr (.inr ⟨_, rfl⟩)))

/-- Whether threads are left and none of them can ever go on. -/
def Stranded (threads : List Thread) (held : List MonitorKey) : Prop :=
  threads ≠ [] ∧ ∀ thread ∈ threads, thread.Blocked threads held

/-- Whether a run ends in a way that the next instruction of a machine accounts for. -/
def Ends (setup : Setup) (machine : Machine) (ending : Ending) : Prop :=
  let others := machine.roster.earlier ++ machine.roster.later
  match ending with
  | .finished _ => ∃ after, machine.Performs setup .leave after ∧ others = []
  | .faulted fault trace =>
    (∃ thread, machine.Fails setup fault thread ∧ thread.id = machine.roster.running.id ∧
      trace = thread.trace) ∨
    ∃ after thread, machine.Performs setup .leave after ∧ Stranded others after.world.held ∧
      machine.roster.later.head? = some thread ∧ fault = .deadlock others.length ∧
      trace = thread.trace
  | .crashed =>
    ∃ after, machine.Performs setup .leave after ∧ Stranded others after.world.held ∧
      machine.roster.later = []

def performed (machine : Machine) (after : Scene) : Machine :=
  { machine with roster := { machine.roster with running := after.thread }, world := after.world }

theorem perform_eq {current : Machine} {instruction : Instruction}
    (fetched : machine.fetch setup = .execute current instruction) :
    current.perform setup instruction =
      match Step.execute instruction setup ⟨current.roster.running, current.world⟩ with
      | .ok signal after => (machine.performed after).answer setup signal
      | .error fault after => .ended ⟨.faulted fault after.thread.trace, after.world.store⟩ := by
  obtain ⟨roster, result⟩ := fetch_eq_execute fetched
  obtain ⟨⟨earlier, running, later, nextId⟩, world, value⟩ := current
  cases roster
  cases result
  unfold perform
  dsimp only
  cases Step.execute instruction setup
    ⟨{ machine.roster.running with ip := instruction.offset + instruction.size }, world⟩ <;> rfl

def act (setup : Setup) (machine : Machine) : Progress :=
  match machine.fetch setup with
  | .execute current instruction => current.perform setup instruction
  | .ended outcome => .ended outcome

theorem step_of_switch {current : Machine} (h : machine.switch = .running current) :
    machine.step setup = current.act setup := by
  have ready : machine.ready setup = current.fetch setup := by
    unfold ready
    rw [h]
  unfold step act
  exact ready ▸ rfl

theorem Reachable.awake (reachable : Reachable setup machine) : machine.Awake := by
  induction reachable with
  | start h =>
      unfold Machine.start at h
      dsimp only at h
      split at h
      · cases h
        exact ⟨rfl, nofun⟩
      · cases h
  | @step machine next _ h _ awake =>
      obtain ⟨current, switched, awake⟩ := awake.switch
      rw [step_of_switch switched] at h
      unfold act at h
      cases hf : current.fetch setup with
      | ended outcome =>
          rw [hf] at h
          cases h
      | execute ready instruction =>
          rw [hf] at h
          dsimp only at h
          rw [perform_eq hf] at h
          split at h
          · next signal after execute =>
              have fits := (Performs.settles ⟨ready, instruction, hf, execute⟩).2
              rw [awake.running] at fits
              exact awake_of_answer fits (by exact awake.others) h
          · cases h

/-! ## The end of a run -/

section

variable {after : Scene} {outcome : Outcome}

theorem ends_of_blocked {signal : Signal} {state : ThreadState} (awake : machine.Awake)
    (performs : machine.Performs setup signal after) (blocks : signal ≠ .leave)
    (stays : state ≠ .exiting)
    (h : ((machine.performed after).setState state).reschedule = .ended outcome) :
    machine.Ends setup outcome.ending := by
  generalize hm : (machine.performed after).setState state = waiting at h
  have roster : waiting.roster =
      { machine.roster with running := { after.thread with state } } := by
    rw [← hm]
    rfl
  have world : waiting.world = after.world := by
    rw [← hm]
    rfl
  have running : waiting.roster.running = { after.thread with state } := by rw [roster]
  have still : waiting.roster.running.state ≠ .exiting := by
    rw [running]
    exact stays
  obtain ⟨all, place⟩ := candidates_of_stays still
  have others : ∀ thread ∈ waiting.roster.earlier ++ waiting.roster.later,
      thread.state ≠ .exiting := by
    rw [roster]
    exact awake.others
  obtain ⟨blocked, ending⟩ := reschedule_eq_ended (candidates_stay others) h
    (by rw [all]; exact List.ne_nil_of_mem waiting.roster.running_mem)
  rw [place, all] at ending
  rw [all, world, roster] at blocked
  have count : waiting.roster.threads.length = machine.roster.count := by
    rw [roster, Roster.threads, Roster.count, List.length_append, List.length_cons]
    dsimp only
    omega
  rw [ending, count, running]
  exact .inl ⟨_, .blocked performs blocks blocked, performs.settles.1, rfl⟩

theorem leave_eq_reschedule (remain : machine.roster.earlier ++ machine.roster.later ≠ []) :
    ∃ left : Machine, machine.leave = left.reschedule ∧ left.world = machine.world ∧
      left.roster.earlier = machine.roster.earlier ∧
      left.roster.candidates = machine.roster.earlier ++ machine.roster.later ∧
      left.roster.candidates[left.roster.earlier.length]? = machine.roster.later.head? := by
  have several : machine.roster.count ≠ 1 := by
    rw [← List.length_pos_iff_ne_nil, List.length_append] at remain
    unfold Roster.count
    omega
  unfold leave
  dsimp only
  rw [if_neg several]
  exact ⟨_, rfl, rfl, rfl, candidates_of_exiting rfl⟩

theorem ends_of_leave (awake : machine.Awake) (performs : machine.Performs setup .leave after)
    (h : (machine.performed after).leave = .ended outcome) : machine.Ends setup outcome.ending := by
  by_cases alone : machine.roster.earlier ++ machine.roster.later = []
  · have count : (machine.performed after).roster.count = 1 := by
      obtain ⟨none, none'⟩ := List.append_eq_nil_iff.mp alone
      change machine.roster.earlier.length + 1 + machine.roster.later.length = 1
      rw [none, none']
      rfl
    unfold leave at h
    dsimp only at h
    rw [if_pos count] at h
    cases h
    exact ⟨after, performs, alone⟩
  · have remain : (machine.performed after).roster.earlier ++
        (machine.performed after).roster.later ≠ [] := alone
    obtain ⟨left, moved, world, -, rest, place⟩ := leave_eq_reschedule remain
    rw [moved] at h
    obtain ⟨blocked, ending⟩ := reschedule_eq_ended (by rw [rest]; exact awake.others) h
      (by rw [rest]; exact remain)
    rw [rest, world] at blocked
    rw [place, rest] at ending
    have stranded : Stranded (machine.roster.earlier ++ machine.roster.later) after.world.held :=
      ⟨alone, blocked⟩
    rw [ending]
    -- The place of the thread that leaves is taken by the one behind it, if there is one.
    cases next : machine.roster.later with
    | nil =>
        have none : (machine.performed after).roster.later = [] := next
        rw [none]
        exact ⟨after, performs, stranded, next⟩
    | cons thread rest =>
        have some : (machine.performed after).roster.later = thread :: rest := next
        rw [some]
        exact .inr ⟨after, thread, performs, stranded, by rw [next]; rfl, by rw [next]; rfl, rfl⟩

theorem ends_of_answer {signal : Signal} (awake : machine.Awake)
    (performs : machine.Performs setup signal after)
    (h : (machine.performed after).answer setup signal = .ended outcome) :
    machine.Ends setup outcome.ending := by
  obtain ⟨id, fits⟩ := performs.settles
  cases signal with
  | proceed => cases h
  | yield =>
      have stays : after.thread.state ≠ .exiting := by
        obtain state | ⟨_, state⟩ | ⟨_, state⟩ := fits <;> rw [state] <;> nofun
      exact ends_of_blocked awake performs nofun stays h
  | fork =>
      cases hf : forked setup (machine.performed after).roster with
      | ok roster =>
          unfold answer fork at h
          rw [hf] at h
          cases h
      | error fault =>
          unfold answer fork at h
          rw [hf] at h
          cases h
          exact .inl ⟨_, .uncopied performs hf, id, rfl⟩
  | join target =>
      unfold answer at h
      dsimp only at h
      split at h
      · have stays : ThreadState.joining target ≠ .exiting := nofun
        exact ends_of_blocked awake performs nofun stays h
      · cases h
  | leave => exact ends_of_leave awake performs h

theorem ends_of_act (awake : machine.Awake) (h : machine.act setup = .ended outcome) :
    machine.Ends setup outcome.ending := by
  unfold act at h
  cases hf : machine.fetch setup with
  | ended found =>
      rw [hf] at h
      cases h
      unfold fetch at hf
      dsimp only at hf
      split at hf
      · next unreadable =>
          cases hf
          exact .inl ⟨_, .unreadable unreadable, rfl, rfl⟩
      · cases hf
  | execute current instruction =>
      rw [hf] at h
      dsimp only at h
      rw [perform_eq hf] at h
      split at h
      · next signal after execute =>
          exact ends_of_answer awake ⟨current, instruction, hf, execute⟩ h
      · next fault after execute =>
          cases h
          have same := ((Step.execute_settles instruction).of_error execute).1
          rw [(fetch_eq_execute hf).1] at same
          exact .inl ⟨_, .failed hf execute, same, rfl⟩

/-- A thread that leaves only blocked threads behind, all of them before it in order, ends the run
without a trace. -/
theorem crashes_of_performs (performs : machine.Performs setup .leave after)
    (stranded : Stranded (machine.roster.earlier ++ machine.roster.later) after.world.held)
    (last : machine.roster.later = []) :
    machine.act setup = .ended ⟨.crashed, after.world.store⟩ := by
  obtain ⟨current, instruction, fetched, execute⟩ := performs
  have remain : (machine.performed after).roster.earlier ++
      (machine.performed after).roster.later ≠ [] := stranded.1
  obtain ⟨left, moved, world, -, rest, place⟩ := leave_eq_reschedule remain
  unfold act
  rw [fetched]
  dsimp only
  rw [perform_eq fetched, execute]
  change (machine.performed after).leave = _
  have none : (machine.performed after).roster.later = [] := last
  rw [moved, Machine.reschedule, Roster.schedule_of_blocked left.world.clock.look
    (by rw [rest]; exact remain) (by rw [rest, world]; exact stranded.2)]
  dsimp only
  rw [place, none, world]
  rfl

theorem ending_of_start {store : Store} {source : TickSource} {args : List String}
    (h : Machine.start setup store source args = .ended outcome) :
    outcome.ending = .faulted .stackOverflow [] := by
  unfold Machine.start Stack.push at h
  dsimp only at h
  split at h
  · cases h
  · next fault rest full =>
      split at full
      · cases full
        cases h
        rfl
      · cases full

theorem exists_advance_of_run {fuel : Nat} {progress : Progress}
    (h : run setup fuel progress = some outcome) :
    progress = .ended outcome ∨ ∃ count machine,
      Progress.advance setup count progress = .running machine ∧
        machine.step setup = .ended outcome := by
  induction fuel generalizing progress with
  | zero =>
      cases progress with
      | ended found =>
          cases h
          exact .inl rfl
      | running machine => cases h
  | succ fuel ih =>
      cases progress with
      | ended found =>
          cases h
          exact .inl rfl
      | running machine =>
          rcases ih h with ended | ⟨count, last, reached, ended⟩
          · exact .inr ⟨0, machine, rfl, ended⟩
          · exact .inr ⟨count + 1, last, reached, ended⟩

theorem exists_reachable_of_run {store : Store} {source : TickSource} {args : List String}
    {fuel : Nat}
    (h : run setup fuel (Machine.start setup store source args) = some outcome) :
    Machine.start setup store source args = .ended outcome ∨
      ∃ machine, Reachable setup machine ∧ machine.step setup = .ended outcome :=
  (exists_advance_of_run h).imp_right fun ⟨_, machine, reached, ended⟩ =>
    ⟨machine, .of_advance reached, ended⟩

/-- A run that ends at all either cannot begin, since there is no room for its arguments, or it ends
as the next instruction of a reachable machine accounts for: a fault comes with the frames of the
thread that was executing. There are no frames exactly if the last thread in order has left while
all others were blocked. -/
theorem run_ends {store : Store} {source : TickSource} {args : List String} {fuel : Nat}
    (h : run setup fuel (Machine.start setup store source args) = some outcome) :
    (Machine.start setup store source args = .ended outcome ∧
      outcome.ending = .faulted .stackOverflow []) ∨
    ∃ machine current, Reachable setup machine ∧ machine.switch = .running current ∧
      machine.step setup = .ended outcome ∧ current.Ends setup outcome.ending ∧
      (outcome.ending = .crashed ↔
        ∃ after, current.Performs setup .leave after ∧
          Stranded (current.roster.earlier ++ current.roster.later) after.world.held ∧
          current.roster.later = []) := by
  rcases exists_reachable_of_run h with ended | ⟨machine, reachable, ended⟩
  · exact .inl ⟨ended, ending_of_start ended⟩
  · obtain ⟨current, switched, awake⟩ := reachable.awake.switch
    have acted := ended
    rw [step_of_switch switched] at acted
    have ends := ends_of_act awake acted
    refine .inr ⟨machine, current, reachable, switched, ended, ends, fun crashed => ?_, ?_⟩
    · rw [crashed] at ends
      exact ends
    · rintro ⟨after, performs, stranded, last⟩
      rw [crashes_of_performs performs stranded last] at acted
      cases acted
      rfl

end

/-- A thread that takes a monitor, makes a copy of itself and asks for the monitor once more, while
the copy leaves. -/
def leavesBlocked : Setup :=
  (Setup.ofMain? [
    0x13, 0,  -- loadlocal, the main class
    0x95,     -- wait
    0x90,     -- fork
    0x07, 0,  -- pushbyte
    0x59, 6,  -- jce, to the exit of the copy
    0x13, 0,  -- loadlocal
    0x95,     -- wait
    0x31,     -- ret
    0x92]     -- exit
    0).get (by decide +kernel)

theorem leavesBlocked_crashes :
    ∃ store, run leavesBlocked 20 (Machine.start leavesBlocked
      (.ofCatalog leavesBlocked.program.catalog) (.steps 100) []) = some ⟨.crashed, store⟩ := by
  have crashes : ((run leavesBlocked 20 (Machine.start leavesBlocked
      (.ofCatalog leavesBlocked.program.catalog) (.steps 100) [])).map (·.ending)) =
        some .crashed := by
    decide +kernel
  obtain ⟨⟨ending, store⟩, ended, rfl⟩ := Option.map_eq_some_iff.mp crashes
  exact ⟨store, ended⟩

/-- There is a run whose end no thread stands for. -/
theorem run_crashes :
    ¬ ∀ (setup : Setup) (store : Store) (source : TickSource) (args : List String) (fuel : Nat)
      (outcome : Outcome), run setup fuel (Machine.start setup store source args) = some outcome →
      outcome.ending ≠ .crashed := by
  intro never
  obtain ⟨store, ended⟩ := leavesBlocked_crashes
  exact never _ _ _ _ _ _ ended rfl

/-- The copy has left as the last thread in order, and the other one is blocked. -/
theorem run_ends_leavesBlocked :
    ∃ machine current after, Reachable leavesBlocked machine ∧
      machine.switch = .running current ∧ current.Performs leavesBlocked .leave after ∧
      Stranded (current.roster.earlier ++ current.roster.later) after.world.held ∧
      current.roster.later = [] := by
  obtain ⟨store, ended⟩ := leavesBlocked_crashes
  obtain ⟨begun, -⟩ | ⟨machine, current, reachable, switched, -, -, crash⟩ := run_ends ended
  · have begins : run leavesBlocked 0 (Machine.start leavesBlocked
        (.ofCatalog leavesBlocked.program.catalog) (.steps 100) []) = none := by
      decide +kernel
    rw [begun] at begins
    cases begins
  · obtain ⟨after, performs, stranded, last⟩ := crash.mp rfl
    exact ⟨machine, current, after, reachable, switched, performs, stranded, last⟩

end Machine

end ObjectMachine
