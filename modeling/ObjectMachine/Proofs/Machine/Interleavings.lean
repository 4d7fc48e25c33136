import ObjectMachine.Proofs.Machine.Turns

/-!
# Interleavings

A clock that follows the time of day has a list of what the time does before each of the looks to
come. No step of a machine depends on what it will only see later. So it makes no difference whether
all of the list is fixed at the beginning of a run or each of the looks finds whatever time has
passed by then, and the reachable machines are those of all interleavings.
-/

namespace ObjectMachine

variable {ahead : List Passing}

/-! ## Clocks with another future -/

def TickSource.facing (ahead : List Passing) : TickSource → TickSource
  | .steps every => .steps every
  | .wall interval _ => .wall interval ahead

namespace Clock

def facing (ahead : List Passing) (clock : Clock) : Clock :=
  { clock with source := clock.source.facing ahead }

variable (ahead) (clock : Clock)

@[simp] theorem facing_now : (clock.facing ahead).now = clock.now := rfl

@[simp] theorem facing_due : (clock.facing ahead).due = clock.due := rfl

theorem facing_step : (clock.facing ahead).step = clock.step.facing ahead := by
  obtain ⟨source, now, steps, due⟩ := clock
  cases source with
  | steps every =>
      unfold step facing TickSource.facing
      dsimp only
      split <;> rfl
  | wall => rfl

theorem facing_ticksForMillis (millis : Int64) :
    (clock.facing ahead).ticksForMillis millis = clock.ticksForMillis millis := by
  obtain ⟨source, now, steps, due⟩ := clock
  cases source <;> rfl

theorem exists_facing_self : ∃ ahead, clock.facing ahead = clock := by
  obtain ⟨source, now, steps, due⟩ := clock
  cases source with
  | steps every => exact ⟨[], rfl⟩
  | wall interval ahead => exact ⟨ahead, rfl⟩

/-- What a look finds comes before all that is still ahead. At the end of the list it finds
nothing. -/
theorem exists_facing_look :
    ∃ before, (clock.facing before).look = clock.look.facing ahead := by
  obtain ⟨source, now, steps, due⟩ := clock
  cases source with
  | steps every => exact ⟨ahead, rfl⟩
  | wall interval list =>
      cases list with
      | nil =>
          refine ⟨⟨0, false⟩ :: ahead, ?_⟩
          change Clock.mk _ (now + 0) steps (due || false) = _
          rw [UInt64.add_zero, Bool.or_false]
          rfl
      | cons passing rest => exact ⟨passing :: ahead, rfl⟩

theorem exists_facing_idleUntil (tick : UInt64) :
    ∃ before, (clock.facing before).idleUntil tick = (clock.idleUntil tick).facing ahead := by
  obtain ⟨before, looks⟩ := clock.exists_facing_look ahead
  refine ⟨before, ?_⟩
  obtain ⟨source, now, steps, due⟩ := clock
  cases source with
  | steps every => rfl
  | wall interval list =>
      unfold idleUntil
      dsimp only [facing, TickSource.facing]
      exact congrArg (fun clock : Clock => { clock with now := max clock.now tick }) looks

end Clock

/-! ## Choices -/

def Decision.facing (ahead : List Passing) : Decision → Decision
  | .run roster held clock => .run roster held (clock.facing ahead)
  | .finished => .finished
  | .deadlock threads place => .deadlock threads place

theorem Schedule.resumeFirst_facing (ahead : List Passing) (threads : List Thread)
    (nextId : ThreadId) (held : List MonitorKey) (clock : Clock) (start : Nat) :
    resumeFirst threads nextId held (clock.facing ahead) start =
      (resumeFirst threads nextId held clock start).map (Decision.facing ahead) := by
  unfold resumeFirst
  rw [Clock.facing_now]
  cases pick threads held clock.now start with
  | none => rfl
  | some place =>
      change resume threads nextId held (clock.facing ahead) place =
        (resume threads nextId held clock place).map _
      unfold resume
      cases threads.drop place <;> rfl

theorem Roster.exists_facing_schedule (roster : Roster) (held : List MonitorKey) (clock : Clock)
    (ahead : List Passing) :
    ∃ before, roster.schedule held (clock.facing before) =
      (roster.schedule held clock).facing ahead := by
  simp only [schedule_eq, choice, Schedule.resumeFirst_facing]
  split
  · exact ⟨ahead, rfl⟩
  · cases first : Schedule.resumeFirst roster.candidates roster.nextId held clock
        roster.firstPlace with
    | some decision => exact ⟨ahead, rfl⟩
    | none =>
        cases Schedule.earliestWake roster.candidates with
        | none => exact ⟨ahead, rfl⟩
        | some wake =>
            -- The time passes until the tick, and the choice is made anew.
            obtain ⟨before, idles⟩ := clock.exists_facing_idleUntil ahead wake
            refine ⟨before, ?_⟩
            dsimp only [Option.map_none]
            rw [idles, Schedule.resumeFirst_facing]
            cases Schedule.resumeFirst roster.candidates roster.nextId held (clock.idleUntil wake)
              roster.firstPlace <;> rfl

/-! ## Instructions -/

namespace Step

variable {setup : Setup}

theorem sleep_facing (scene : Scene) :
    sleep setup (scene.under none (scene.world.clock.facing ahead)) =
      resultUnder none (scene.world.clock.facing ahead) (sleep setup scene) := by
  have pops :=
    (Disregards.of_pop : Disregards none (scene.world.clock.facing ahead) pop) setup scene
  unfold sleep
  change EStateM.bind (pop setup) _ (scene.under none _) =
    resultUnder none _ (EStateM.bind (pop setup) _ scene)
  unfold EStateM.bind
  rw [pops]
  cases popped : pop setup scene with
  | error fault middle => rfl
  | ok value middle =>
      obtain ⟨stack, -, rfl⟩ := onStack_eq_ok_iff.mp popped
      dsimp only [resultUnder]
      cases value.asInteger? with
      | none => rfl
      | some millis =>
          change EStateM.Result.ok Signal.yield (Scene.mk { scene.thread with
            state := .sleeping (_ + (scene.world.clock.facing ahead).ticksForMillis millis)
            stack } _) = _
          rw [Clock.facing_ticksForMillis]
          rfl

/-- No instruction depends on what the clock will show later. -/
theorem execute_facing (instruction : Instruction) (scene : Scene) :
    execute instruction setup (scene.under none (scene.world.clock.facing ahead)) =
      resultUnder none (scene.world.clock.facing ahead) (execute instruction setup scene) := by
  by_cases sleeps : instruction.opcode = .sleep
  · unfold execute
    rw [sleeps]
    exact sleep_facing scene
  · exact execute_under sleeps _

end Step

/-! ## Steps of a machine -/

def Machine.facing (ahead : List Passing) (machine : Machine) : Machine :=
  machine.underClock (machine.world.clock.facing ahead)

def Progress.facing (ahead : List Passing) : Progress → Progress
  | .running machine => .running (machine.facing ahead)
  | .ended outcome => .ended outcome

def Turn.facing (ahead : List Passing) : Turn → Turn
  | .execute machine instruction => .execute (machine.facing ahead) instruction
  | .ended outcome => .ended outcome

namespace Machine

variable {setup : Setup}

variable (ahead) (machine : Machine)

theorem exists_facing_looked :
    ∃ before, (machine.facing before).looked = machine.looked.facing ahead := by
  obtain ⟨before, looks⟩ := machine.world.clock.exists_facing_look ahead
  exact ⟨before, congrArg machine.underClock looks⟩

theorem exists_facing_reschedule :
    ∃ before, (machine.facing before).reschedule = machine.reschedule.facing ahead := by
  obtain ⟨later, schedules⟩ :=
    machine.roster.exists_facing_schedule machine.world.held machine.world.clock.look ahead
  obtain ⟨before, looks⟩ := machine.world.clock.exists_facing_look later
  refine ⟨before, ?_⟩
  have decides : (machine.facing before).roster.schedule (machine.facing before).world.held
      (machine.facing before).world.clock.look =
        (machine.roster.schedule machine.world.held machine.world.clock.look).facing ahead := by
    rw [← schedules, ← looks]
    rfl
  unfold reschedule
  dsimp only
  rw [decides]
  cases machine.roster.schedule machine.world.held machine.world.clock.look with
  | run roster held clock => rfl
  | finished => rfl
  | deadlock threads place =>
      dsimp only [Decision.facing]
      cases threads[place]? <;> rfl

theorem exists_facing_switch :
    ∃ before, (machine.facing before).switch = machine.switch.facing ahead := by
  simp only [switch_eq]
  by_cases due : machine.looked.world.clock.due = true
  · obtain ⟨later, decides⟩ := machine.looked.noted.exists_facing_reschedule ahead
    obtain ⟨before, looks⟩ := machine.exists_facing_looked later
    refine ⟨before, ?_⟩
    have due' : (machine.looked.facing later).world.clock.due = true := due
    rw [looks, if_pos due', if_pos due]
    exact decides
  · obtain ⟨before, looks⟩ := machine.exists_facing_looked ahead
    refine ⟨before, ?_⟩
    have due' : (machine.looked.facing ahead).world.clock.due ≠ true := due
    rw [looks, if_neg due', if_neg due]
    rfl

theorem exists_facing_fetch :
    ∃ before, (machine.facing before).fetch setup = (machine.fetch setup).facing ahead := by
  obtain ⟨before, looks⟩ := machine.world.clock.step.exists_facing_look ahead
  refine ⟨before, ?_⟩
  unfold fetch
  dsimp only [facing, underClock]
  rw [Clock.facing_step, looks]
  cases setup.program.code.fetch machine.roster.running.ip <;> rfl

theorem exists_facing_ready :
    ∃ before, (machine.facing before).ready setup = (machine.ready setup).facing ahead := by
  unfold ready
  cases switched : machine.switch with
  | running next =>
      obtain ⟨later, fetches⟩ := next.exists_facing_fetch ahead
      obtain ⟨before, switches⟩ := machine.exists_facing_switch later
      refine ⟨before, ?_⟩
      rw [switches, switched]
      exact fetches
  | ended outcome =>
      obtain ⟨before, switches⟩ := machine.exists_facing_switch ahead
      refine ⟨before, ?_⟩
      rw [switches, switched]
      rfl

theorem grant_facing (signal : Signal) :
    (machine.facing ahead).grant setup signal =
      (machine.grant setup signal).map fun (granted, pending) =>
        (granted.facing ahead, pending) := by
  have roster : (machine.facing ahead).roster = machine.roster := rfl
  unfold grant
  rw [roster]
  cases signal with
  | proceed | yield => rfl
  | fork =>
      dsimp only
      cases forked setup machine.roster <;> rfl
  | join | leave =>
      dsimp only
      split <;> rfl

theorem exists_facing_answer (signal : Signal) :
    ∃ before, (machine.facing before).answer setup signal =
      (machine.answer setup signal).facing ahead := by
  simp only [answer_eq_grant, grant_facing]
  cases machine.grant setup signal with
  | error outcome => exact ⟨ahead, rfl⟩
  | ok granted =>
      obtain ⟨granted, pending⟩ := granted
      cases pending with
      | false => exact ⟨ahead, rfl⟩
      | true => exact granted.exists_facing_reschedule ahead

theorem exists_facing_perform (instruction : Instruction) :
    ∃ before, (machine.facing before).perform setup instruction =
      (machine.perform setup instruction).facing ahead := by
  obtain ⟨⟨earlier, running, later, nextId⟩, world, result⟩ := machine
  have executes (before : List Passing) : Step.execute instruction setup
      ⟨running, { world with clock := world.clock.facing before }⟩ =
        Step.resultUnder none (world.clock.facing before)
          (Step.execute instruction setup ⟨running, world⟩) :=
    Step.execute_facing instruction ⟨running, world⟩
  unfold perform facing underClock
  dsimp only
  simp only [executes]
  cases executed : Step.execute instruction setup ⟨running, world⟩ with
  | error fault after => exact ⟨ahead, rfl⟩
  | ok signal after =>
      obtain ⟨before, answers⟩ := exists_facing_answer ahead
        (⟨⟨earlier, after.thread, later, nextId⟩, after.world, result⟩ : Machine) signal
      refine ⟨before, ?_⟩
      rw [← answers, ← Step.execute_clock executed]
      rfl

/-- What is still ahead of a machine after a step, whatever it is, can be ahead of it before. -/
theorem exists_facing_step :
    ∃ before, (machine.facing before).step setup = (machine.step setup).facing ahead := by
  unfold step
  cases ready : machine.ready setup with
  | execute current instruction =>
      obtain ⟨later, performs⟩ := current.exists_facing_perform ahead instruction
      obtain ⟨before, turns⟩ := machine.exists_facing_ready later
      refine ⟨before, ?_⟩
      rw [turns, ready]
      exact performs
  | ended outcome =>
      obtain ⟨before, turns⟩ := machine.exists_facing_ready ahead
      refine ⟨before, ?_⟩
      rw [turns, ready]
      rfl

end Machine

/-! ## Runs -/

namespace Machine

variable {setup : Setup}

/-- The machines that come up in the runs of a program in which time passes as it likes: before each
step anything may lie ahead. -/
inductive Interleaved (setup : Setup) : Machine → Prop
  | start {store : Store} {source : TickSource} {args : List String} {machine : Machine} :
      Machine.start setup store source args = .running machine → Interleaved setup machine
  | step {machine next : Machine} (ahead : List Passing) :
      Interleaved setup machine → (machine.facing ahead).step setup = .running next →
      Interleaved setup next

theorem facing_start (ahead : List Passing) (setup : Setup) (store : Store) (source : TickSource)
    (args : List String) :
    start setup store (source.facing ahead) args =
      (start setup store source args).facing ahead := by
  unfold start
  dsimp only
  split <;> rfl

/-- Of a reachable machine nothing is settled that it has not seen. -/
theorem Reachable.facing {machine : Machine} (reachable : Reachable setup machine)
    (ahead : List Passing) : Reachable setup (machine.facing ahead) := by
  induction reachable generalizing ahead with
  | @start store source args machine h =>
      have starts := facing_start ahead setup store source args
      rw [h] at starts
      exact .start starts
  | @step machine next _ step _ ih =>
      obtain ⟨before, steps⟩ := machine.exists_facing_step ahead
      rw [step] at steps
      exact .step (ih before) steps fun _ => trivial

/-- The reachable machines are those of all interleavings. -/
theorem reachable_iff_interleaved {machine : Machine} :
    Reachable setup machine ↔ Interleaved setup machine := by
  constructor
  · intro reachable
    induction reachable with
    | start h => exact .start h
    | @step machine next _ step _ ih =>
        obtain ⟨ahead, same⟩ := machine.world.clock.exists_facing_self
        refine ih.step ahead ?_
        rw [facing, same]
        exact step
  · intro interleaved
    induction interleaved with
    | start h => exact .start h
    | step ahead _ step ih => exact .step (ih.facing ahead) step fun _ => trivial

end Machine

end ObjectMachine
