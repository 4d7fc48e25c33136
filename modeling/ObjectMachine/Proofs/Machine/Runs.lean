import ObjectMachine.Machine.Engine
import ObjectMachine.Proofs.Machine.Lockstep
import ObjectMachine.Proofs.Machine.Reachable

/-!
# Runs in lockstep

Two programs whose instructions are tied wherever addresses correspond run in lockstep: tied
machines take the same decisions, execute tied instructions and come to tied machines, or end in
the same way.
-/

namespace ObjectMachine

variable {Address : Nat → Nat → Prop}

/-! ## Scheduling -/

section

variable (Address)

structure Roster.Tied (roster roster' : Roster) : Prop where
  earlier : List.Forall₂ (Thread.Tied Address) roster.earlier roster'.earlier
  running : roster.running.Tied Address roster'.running
  later : List.Forall₂ (Thread.Tied Address) roster.later roster'.later
  nextId : roster.nextId = roster'.nextId

def Decision.Tied : Decision → Decision → Prop
  | run roster held clock, run roster' held' clock' =>
    roster.Tied Address roster' ∧ held = held' ∧ clock = clock'
  | finished, finished => True
  | deadlock threads place, deadlock threads' place' =>
    List.Forall₂ (Thread.Tied Address) threads threads' ∧ place = place'
  | _, _ => False

end

namespace Schedule

section

variable {threads threads' : List Thread} (h : List.Forall₂ (Thread.Tied Address) threads threads')

include h

theorem resumable_tied (held : List MonitorKey) (now : UInt64) {thread thread' : Thread}
    (tied : thread.Tied Address thread') :
    resumable threads held now thread = resumable threads' held now thread' := by
  have ids : threads'.map (·.id) = threads.map (·.id) :=
    map_eq_of_forall₂ (h.imp fun _ _ tied => tied.id.symm)
  have any (id : ThreadId) : threads.any (·.id == id) = threads'.any (·.id == id) := by
    have := congrArg (List.any · (· == id)) ids
    simpa only [List.any_map, Function.comp_def] using this.symm
  unfold resumable
  rw [tied.state]
  simp only [any]

theorem pick_tied (held : List MonitorKey) (now : UInt64) (start : Nat) :
    pick threads held now start = pick threads' held now start := by
  have circle := List.rel_append (List.forall₂_drop start h) (List.forall₂_take start h)
  have same : (threads'.drop start ++ threads'.take start).map (resumable threads' held now) =
      (threads.drop start ++ threads.take start).map (resumable threads held now) :=
    map_eq_of_forall₂ (circle.imp fun _ _ tied => (resumable_tied h held now tied).symm)
  have found := congrArg (List.findIdx? id) same
  simp only [List.findIdx?_map, Function.id_comp] at found
  unfold pick
  dsimp only
  rw [found, h.length_eq]

theorem earliestWake_tied : earliestWake threads = earliestWake threads' := by
  have states : threads'.map (·.state) = threads.map (·.state) :=
    map_eq_of_forall₂ (h.imp fun _ _ tied => tied.state.symm)
  have wakes := congrArg (List.filterMap ThreadState.wake?) states
  simp only [List.filterMap_map, Function.comp_def] at wakes
  exact congrArg List.min? wakes.symm

theorem resume_tied (nextId : ThreadId) (held : List MonitorKey) (clock : Clock) (place : Nat) :
    Option.Rel (Decision.Tied Address) (resume threads nextId held clock place)
      (resume threads' nextId held clock place) := by
  have rest := List.forall₂_drop place h
  unfold resume
  generalize threads.drop place = found at rest ⊢
  generalize threads'.drop place = found' at rest ⊢
  cases rest with
  | nil => exact .none
  | cons first others =>
      refine .some ⟨⟨List.forall₂_take place h, first.withState .running, others, rfl⟩, ?_, rfl⟩
      unfold heldBy
      rw [first.state]

theorem resumeFirst_tied (nextId : ThreadId) (held : List MonitorKey) (clock : Clock)
    (start : Nat) :
    Option.Rel (Decision.Tied Address) (resumeFirst threads nextId held clock start)
      (resumeFirst threads' nextId held clock start) := by
  unfold resumeFirst
  rw [pick_tied h]
  cases pick threads' held clock.now start with
  | none => exact .none
  | some place => exact resume_tied h nextId held clock place

end

end Schedule

namespace Roster

theorem Tied.threads {roster roster' : Roster} (h : roster.Tied Address roster') :
    List.Forall₂ (Thread.Tied Address) roster.threads roster'.threads :=
  List.rel_append h.earlier (.cons h.running h.later)

theorem Tied.count {roster roster' : Roster} (h : roster.Tied Address roster') :
    roster.count = roster'.count := by
  rw [Roster.count, Roster.count, h.earlier.length_eq, h.later.length_eq]

theorem Tied.contains {roster roster' : Roster} (h : roster.Tied Address roster')
    (id : ThreadId) : roster.contains id = roster'.contains id := by
  have ids : roster'.threads.map (·.id) = roster.threads.map (·.id) :=
    map_eq_of_forall₂ (h.threads.imp fun _ _ tied => tied.id.symm)
  have := congrArg (List.any · (· == id)) ids
  simpa only [Roster.contains, List.any_map, Function.comp_def] using this.symm

theorem changeFirst_tied (id : ThreadId) {change change' : Thread → Except Fault Thread}
    (hc : ∀ {thread thread'}, thread.Tied Address thread' →
      Except.Match (Thread.Tied Address) (change thread) (change' thread'))
    {threads threads' : List Thread} (h : List.Forall₂ (Thread.Tied Address) threads threads') :
    Except.Match (List.Forall₂ (Thread.Tied Address)) (changeFirst id change threads)
      (changeFirst id change' threads') := by
  induction h with
  | nil => exact .nil
  | cons first others ih =>
      rw [changeFirst, changeFirst, first.id]
      split
      · exact (hc first).bind fun _ _ tied => .cons tied others
      · exact ih.bind fun _ _ tied => .cons first tied

theorem Tied.change {roster roster' : Roster} (h : roster.Tied Address roster') (id : ThreadId)
    {change change' : Thread → Except Fault Thread}
    (hc : ∀ {thread thread'}, thread.Tied Address thread' →
      Except.Match (Thread.Tied Address) (change thread) (change' thread')) :
    Except.Match (Roster.Tied Address) (roster.change id change) (roster'.change id change') := by
  have earlier : roster'.earlier.any (·.id == id) = roster.earlier.any (·.id == id) := by
    have ids : roster'.earlier.map (·.id) = roster.earlier.map (·.id) :=
      map_eq_of_forall₂ (h.earlier.imp fun _ _ tied => tied.id.symm)
    simpa only [List.any_map, Function.comp_def] using congrArg (List.any · (· == id)) ids
  unfold Roster.change
  rw [earlier, h.running.id]
  split
  · exact (changeFirst_tied id hc h.earlier).bind fun _ _ tied => { h with earlier := tied }
  · split
    · exact (hc h.running).bind fun _ _ tied => { h with running := tied }
    · exact (changeFirst_tied id hc h.later).bind fun _ _ tied => { h with later := tied }

theorem Tied.fork {roster roster' : Roster} (h : roster.Tied Address roster') (limit : Nat)
    {change change' : Thread → Except Fault Thread}
    (hc : ∀ {thread thread'}, thread.Tied Address thread' →
      Except.Match (Thread.Tied Address) (change thread) (change' thread')) :
    Except.Match (fun (forked forked' : ThreadId × Roster) =>
        forked.1 = forked'.1 ∧ forked.2.Tied Address forked'.2)
      (roster.fork limit change) (roster'.fork limit change') := by
  unfold Roster.fork
  rw [h.count]
  have copied : (roster.running.copy roster.nextId).Tied Address
      (roster'.running.copy roster'.nextId) :=
    ⟨h.nextId, rfl, h.running.stack, { h.running.registers with }⟩
  have grown : roster.withCopy.Tied Address roster'.withCopy :=
    { h with
      later := List.rel_append h.later (.cons copied .nil)
      nextId := by
        change (⟨roster.nextId.number + 1⟩ : ThreadId) = ⟨roster'.nextId.number + 1⟩
        rw [h.nextId] }
  split
  · exact rfl
  · have changed := grown.change roster'.nextId hc
    unfold Roster.withCopy at changed
    dsimp only
    rw [h.nextId] at changed ⊢
    refine Except.Match.bind changed fun _ _ tied => ?_
    exact ⟨rfl, tied⟩

theorem firstPlace_of_exiting {roster : Roster} (h : roster.running.state = .exiting) :
    roster.firstPlace = roster.earlier.length := by
  rw [firstPlace, if_pos h]

/-- Rosters with tied candidates choose tied threads. -/
theorem schedule_tied {roster roster' : Roster}
    (candidates : List.Forall₂ (Thread.Tied Address) roster.candidates roster'.candidates)
    (places : roster.firstPlace = roster'.firstPlace)
    (lengths : roster.earlier.length = roster'.earlier.length)
    (nextIds : roster.nextId = roster'.nextId) (held : List MonitorKey) (clock : Clock) :
    (roster.schedule held clock).Tied Address (roster'.schedule held clock) := by
  have blocked : Decision.Tied Address
      (.deadlock roster.candidates roster.earlier.length)
      (.deadlock roster'.candidates roster'.earlier.length) := ⟨candidates, lengths⟩
  rw [schedule_eq, schedule_eq, choice, choice, Schedule.earliestWake_tied candidates,
    forall₂_isEmpty candidates, places, nextIds]
  split
  · trivial
  · have first := Schedule.resumeFirst_tied candidates roster'.nextId held clock roster'.firstPlace
    generalize Schedule.resumeFirst roster.candidates roster'.nextId held clock
      roster'.firstPlace = found at first ⊢
    generalize Schedule.resumeFirst roster'.candidates roster'.nextId held clock
      roster'.firstPlace = found' at first ⊢
    cases first with
    | some tied => exact tied
    | none =>
        cases Schedule.earliestWake roster'.candidates with
        | none => exact blocked
        | some wake =>
            have second := Schedule.resumeFirst_tied candidates roster'.nextId held
              (clock.idleUntil wake) roster'.firstPlace
            dsimp only
            generalize Schedule.resumeFirst roster.candidates roster'.nextId held
              (clock.idleUntil wake) roster'.firstPlace = found at second ⊢
            generalize Schedule.resumeFirst roster'.candidates roster'.nextId held
              (clock.idleUntil wake) roster'.firstPlace = found' at second ⊢
            cases second with
            | some tied => exact tied
            | none => exact blocked

end Roster

/-! ## Machines -/

section

variable (Address)

structure Machine.Tied (machine machine' : Machine) : Prop where
  roster : machine.roster.Tied Address machine'.roster
  world : machine.world = machine'.world
  result : machine.result = machine'.result

def Progress.Tied : Progress → Progress → Prop
  | running machine, running machine' => machine.Tied Address machine'
  | ended outcome, ended outcome' => outcome = outcome'
  | _, _ => False

variable {Address}

theorem Progress.Tied.both {progress progress' : Progress} (h : progress.Tied Address progress') :
    (∃ outcome, progress = .ended outcome ∧ progress' = .ended outcome) ∨
      ∃ machine machine', progress = .running machine ∧ progress' = .running machine' ∧
        machine.Tied Address machine' := by
  cases progress with
  | running machine =>
      cases progress' with
      | running machine' => exact .inr ⟨machine, machine', rfl, rfl, h⟩
      | ended outcome' => exact h.elim
  | ended outcome =>
      cases progress' with
      | running machine' => exact h.elim
      | ended outcome' =>
          obtain rfl : outcome = outcome' := h
          exact .inl ⟨outcome, rfl, rfl⟩

end

namespace Machine

/-- The choice of a thread, from tied decisions. -/
theorem reschedule_tied {machine machine' : Machine}
    (decisions : (machine.roster.schedule machine.world.held machine.world.clock.look).Tied Address
      (machine'.roster.schedule machine'.world.held machine'.world.clock.look))
    (worlds : machine.world = machine'.world) (results : machine.result = machine'.result) :
    machine.reschedule.Tied Address machine'.reschedule := by
  unfold reschedule
  dsimp only
  generalize machine.roster.schedule machine.world.held machine.world.clock.look = decision
    at decisions ⊢
  generalize machine'.roster.schedule machine'.world.held machine'.world.clock.look = decision'
    at decisions ⊢
  cases decision with
  | run roster held clock =>
      cases decision' with
      | run roster' held' clock' =>
          obtain ⟨tied, rfl, rfl⟩ := decisions
          exact ⟨tied, by rw [worlds], results⟩
      | _ => exact decisions.elim
  | finished =>
      cases decision' with
      | finished =>
          rw [worlds, results]
          rfl
      | _ => exact decisions.elim
  | deadlock threads place =>
      cases decision' with
      | deadlock threads' place' =>
          obtain ⟨tied, rfl⟩ := decisions
          have here := forall₂_getElem? tied place
          dsimp only
          rw [worlds, tied.length_eq]
          generalize threads[place]? = found at here ⊢
          generalize threads'[place]? = found' at here ⊢
          cases here with
          | none => rfl
          | some same =>
              dsimp only
              rw [same.trace]
              rfl
      | _ => exact decisions.elim

theorem given_tied (value : Value) {thread thread' : Thread} (h : thread.Tied Address thread') :
    Except.Match (Thread.Tied Address) (given value thread) (given value thread') := by
  unfold given
  rw [h.stack]
  cases Stack.push value thread'.stack with
  | ok answer stack => exact h.withStack fun _ => stack
  | error fault stack => exact rfl

namespace Tied

variable {machine machine' : Machine} (h : machine.Tied Address machine')

include h

theorem reschedule : machine.reschedule.Tied Address machine'.reschedule := by
  have candidates :
      List.Forall₂ (Thread.Tied Address) machine.roster.candidates machine'.roster.candidates := by
    unfold Roster.candidates
    rw [h.roster.running.state]
    split
    · exact List.rel_append h.roster.earlier h.roster.later
    · exact h.roster.threads
  have places : machine.roster.firstPlace = machine'.roster.firstPlace := by
    unfold Roster.firstPlace
    rw [h.roster.running.state, h.roster.earlier.length_eq]
  refine reschedule_tied ?_ h.world h.result
  rw [h.world]
  exact Roster.schedule_tied candidates places h.roster.earlier.length_eq h.roster.nextId _ _

theorem switch : machine.switch.Tied Address machine'.switch := by
  have looked : machine.looked.Tied Address machine'.looked :=
    ⟨h.roster, congrArg (fun world : World => { world with clock := world.clock.look }) h.world,
      h.result⟩
  rw [switch_eq, switch_eq, looked.world]
  split
  · have noted : machine.looked.noted.Tied Address machine'.looked.noted :=
      ⟨h.roster, congrArg (fun world : World => { world with clock := world.clock.noted })
        looked.world, h.result⟩
    exact noted.reschedule
  · exact looked

theorem setState (state : ThreadState) :
    (machine.setState state).Tied Address (machine'.setState state) :=
  ⟨{ h.roster with running := h.roster.running.withState state }, h.world, h.result⟩

theorem fail (fault : Fault) : machine.fail fault = machine'.fail fault := by
  rw [Machine.fail, Machine.fail, h.roster.running.trace, h.world]

theorem goOn {forked forked' : Except Fault Roster}
    (hf : Except.Match (Roster.Tied Address) forked forked') :
    (machine.goOn forked).Tied Address (machine'.goOn forked') := by
  cases forked with
  | ok roster =>
      cases forked' with
      | ok roster' => exact ⟨hf, h.world, h.result⟩
      | error fault' => exact hf.elim
  | error fault =>
      cases forked' with
      | ok roster' => exact hf.elim
      | error fault' =>
          obtain rfl : fault = fault' := hf
          exact h.fail fault

theorem fork {left right : Setup} (limits : left.limits = right.limits) :
    (machine.fork left).Tied Address (machine'.fork right) := by
  unfold Machine.fork forked
  rw [limits]
  refine h.goOn ((h.roster.fork _ fun tied => given_tied (.int 0) tied).bind ?_)
  rintro ⟨id, roster⟩ ⟨id', roster'⟩ ⟨rfl, tied⟩
  refine (given_tied (Step.numberOf id) tied.running).bind fun running running' same => ?_
  exact ⟨tied.earlier, same, tied.later, tied.nextId⟩

end Tied

/-- An exiting thread is gone, wherever it was. -/
theorem leave_tied {machine machine' : Machine}
    (earlier : List.Forall₂ (Thread.Tied Address) machine.roster.earlier machine'.roster.earlier)
    (later : List.Forall₂ (Thread.Tied Address) machine.roster.later machine'.roster.later)
    (id : machine.roster.running.id = machine'.roster.running.id)
    (stack : machine.roster.running.stack = machine'.roster.running.stack)
    (nextId : machine.roster.nextId = machine'.roster.nextId)
    (worlds : machine.world = machine'.world) (results : machine.result = machine'.result) :
    machine.leave.Tied Address machine'.leave := by
  have count : machine.roster.count = machine'.roster.count := by
    rw [Roster.count, Roster.count, earlier.length_eq, later.length_eq]
  unfold leave
  dsimp only
  rw [id, stack, results, count, worlds]
  split
  · rfl
  · refine reschedule_tied (Roster.schedule_tied ?_ ?_ ?_ ?_ _ _) rfl rfl
    · rw [Roster.candidates_of_exiting rfl, Roster.candidates_of_exiting rfl]
      exact List.rel_append earlier later
    · rw [Roster.firstPlace_of_exiting rfl, Roster.firstPlace_of_exiting rfl]
      exact earlier.length_eq
    · exact earlier.length_eq
    · exact nextId

theorem Tied.answer {left right : Setup} (limits : left.limits = right.limits)
    {machine machine' : Machine} (h : machine.Tied Address machine') (signal : Signal) :
    (machine.answer left signal).Tied Address (machine'.answer right signal) := by
  cases signal with
  | proceed => exact h
  | yield => exact h.reschedule
  | fork => exact h.fork limits
  | join id =>
      unfold Machine.answer
      dsimp only
      rw [h.roster.contains]
      split
      · exact (h.setState _).reschedule
      · exact h
  | leave =>
      exact leave_tied h.roster.earlier h.roster.later h.roster.running.id h.roster.running.stack
        h.roster.nextId h.world h.result

end Machine

/-! ## Steps and runs -/

/-- Whether the instructions of two programs are tied wherever addresses correspond. Only an exit
may be the last one. -/
structure Setup.InStep (Address : Nat → Nat → Prop) (left right : Setup) : Prop where
  similar : left.Similar Address right
  order : ∀ {a a' b b'}, Address a a' → Address b b' → (a < b ↔ a' < b')
  fetch : ∀ {a a'}, Address a a' → ∃ instruction instruction',
    left.program.code.fetch a = .ok instruction ∧
      right.program.code.fetch a' = .ok instruction' ∧ instruction.Tied Address instruction' ∧
      (instruction.opcode ≠ .exit → Address (instruction.offset + instruction.size)
        (instruction'.offset + instruction'.size))
  entry : Address left.program.entry right.program.entry
  entryModule : left.program.entryModule = right.program.entryModule

def Progress.next? (setup : Setup) : Progress → Option (ThreadId × Instruction)
  | running machine =>
    match machine.ready setup with
    | .execute current instruction => some (current.roster.running.id, instruction)
    | .ended _ => none
  | ended _ => none

/-- What a part of a run keeps outside its threads, with what it has printed. -/
def Progress.store : Progress → Store
  | running machine => machine.world.store
  | ended outcome => outcome.store

theorem Progress.Tied.store {progress progress' : Progress} (h : progress.Tied Address progress') :
    progress.store = progress'.store := by
  obtain ⟨outcome, rfl, rfl⟩ | ⟨machine, machine', rfl, rfl, tied⟩ := h.both
  · rfl
  · exact congrArg World.store tied.world

theorem Step.execute_exit {setup : Setup} {scene : Scene} {instruction : Instruction}
    (h : instruction.opcode = .exit) :
    execute instruction setup scene = .ok .leave scene := by
  unfold execute
  rw [h]
  rfl

namespace Setup.InStep

variable {left right : Setup} (h : left.InStep Address right)

include h

/-- Tied machines execute tied instructions, and come to tied machines. -/
theorem perform {machine machine' : Machine} (tied : machine.Tied Address machine')
    {instruction instruction' : Instruction} (same : instruction.Tied Address instruction')
    (ahead : instruction.opcode ≠ .exit → Address (instruction.offset + instruction.size)
      (instruction'.offset + instruction'.size)) (world : World) :
    Progress.Tied Address
      (Machine.perform left
        { machine with
          roster := { machine.roster with running := { machine.roster.running with
            ip := instruction.offset + instruction.size } }
          world } instruction)
      (Machine.perform right
        { machine' with
          roster := { machine'.roster with running := { machine'.roster.running with
            ip := instruction'.offset + instruction'.size } }
          world } instruction') := by
  obtain ⟨⟨earlier, running, later, nextId⟩, -, result⟩ := tied
  unfold Machine.perform
  dsimp only
  by_cases exits : instruction.opcode = .exit
  · rw [Step.execute_exit exits, Step.execute_exit (same.opcode ▸ exits)]
    exact Machine.leave_tied earlier later running.id running.stack nextId rfl result
  · have agree : (Coupling.lockstep h.similar).Agree Eq (Step.execute instruction)
        (Step.execute instruction') := Coupling.Agree.of_executeTied h.order same
    have results := agree ⟨_, world⟩ ⟨_, world⟩ ⟨running.withIp (ahead exits), rfl⟩
    change ResultsMatch _ Eq (Step.execute instruction left _) (Step.execute instruction' right _)
      at results
    generalize Step.execute instruction left _ = after at results ⊢
    generalize Step.execute instruction' right _ = after' at results ⊢
    cases after with
    | ok signal scene =>
        cases after' with
        | error fault' scene' => exact results.elim
        | ok signal' scene' =>
            obtain ⟨rfl, thread, worlds⟩ := results
            refine Machine.Tied.answer h.similar.limits ?_ signal
            exact ⟨⟨earlier, thread, later, nextId⟩, worlds, result⟩
    | error fault scene =>
        cases after' with
        | ok signal' scene' => exact results.elim
        | error fault' scene' =>
            obtain ⟨rfl, thread, worlds⟩ := results
            dsimp only
            rw [thread.trace, worlds]
            rfl

/-- What tied machines are about to execute. -/
theorem ready {machine machine' : Machine} (tied : machine.Tied Address machine') :
    (∃ outcome, machine.ready left = .ended outcome ∧ machine'.ready right = .ended outcome) ∨
    ∃ (chosen chosen' : Machine) (instruction instruction' : Instruction),
      chosen.Tied Address chosen' ∧
      left.program.code.fetch chosen.roster.running.ip = .ok instruction ∧
      right.program.code.fetch chosen'.roster.running.ip = .ok instruction' ∧
      instruction.Tied Address instruction' ∧
      (instruction.opcode ≠ .exit → Address (instruction.offset + instruction.size)
        (instruction'.offset + instruction'.size)) ∧
      machine.ready left = chosen.fetch left ∧ machine'.ready right = chosen'.fetch right := by
  unfold Machine.ready
  obtain ⟨outcome, ends, ends'⟩ | ⟨chosen, chosen', next, next', same⟩ := tied.switch.both
  · exact .inl ⟨outcome, by rw [ends], by rw [ends']⟩
  · obtain ⟨instruction, instruction', fetched, fetched', alike, ahead⟩ :=
      h.fetch same.roster.running.registers.ip
    exact .inr ⟨chosen, chosen', instruction, instruction', same, fetched, fetched', alike, ahead,
      by rw [next], by rw [next']⟩

theorem step {machine machine' : Machine} (tied : machine.Tied Address machine') :
    (machine.step left).Tied Address (machine'.step right) := by
  unfold Machine.step
  rcases h.ready tied with ⟨outcome, ends, ends'⟩ | ⟨chosen, chosen', instruction, instruction',
    same, fetched, fetched', ties, ahead, ready, ready'⟩
  · rw [ends, ends']
    rfl
  · rw [ready, ready']
    unfold Machine.fetch
    dsimp only
    rw [fetched, fetched', ← same.world]
    exact h.perform same ties ahead _

/-- Tied machines are about to execute instructions at addresses that correspond. -/
theorem next? {progress progress' : Progress} (tied : progress.Tied Address progress') :
    Option.Rel (fun (next next' : ThreadId × Instruction) => next.1 = next'.1 ∧
        ∃ a a', Address a a' ∧ left.program.code.fetch a = .ok next.2 ∧
          right.program.code.fetch a' = .ok next'.2)
      (progress.next? left) (progress'.next? right) := by
  obtain ⟨outcome, rfl, rfl⟩ | ⟨machine, machine', rfl, rfl, tied⟩ := tied.both
  · exact .none
  · unfold Progress.next?
    dsimp only
    rcases h.ready tied with ⟨outcome, ends, ends'⟩ | ⟨chosen, chosen', instruction, instruction',
      same, fetched, fetched', -, -, ready, ready'⟩
    · rw [ends, ends']
      exact .none
    · rw [ready, ready']
      unfold Machine.fetch
      dsimp only
      rw [fetched, fetched']
      exact .some ⟨same.roster.running.id, _, _, same.roster.running.registers.ip, fetched,
        fetched'⟩

theorem start (store : Store) (source : TickSource) (args : List String) :
    (Machine.start left store source args).Tied Address
      (Machine.start right store source args) := by
  unfold Machine.start
  rw [h.similar.limits]
  dsimp only
  have started : Thread.Tied Address
      (.start .main left.program.entry left.program.entryModule right.limits.stack)
      (.start .main right.program.entry right.program.entryModule right.limits.stack) :=
    ⟨rfl, rfl, rfl, .nil, .nil, rfl, h.entry, h.entryModule, rfl⟩
  rw [started.stack]
  split
  · next stack _ =>
      exact ⟨⟨.nil, started.withStack fun _ => stack, .nil, rfl⟩, rfl, rfl⟩
  · rfl

theorem advance {progress progress' : Progress} (tied : progress.Tied Address progress')
    (count : Nat) :
    (Progress.advance left count progress).Tied Address
      (Progress.advance right count progress') := by
  induction count generalizing progress progress' with
  | zero => exact tied
  | succ count ih =>
      obtain ⟨outcome, rfl, rfl⟩ | ⟨machine, machine', rfl, rfl, tied⟩ := tied.both
      · rfl
      · exact ih (h.step tied)

/-- What one program reaches, the other one reaches as well. -/
theorem exists_of_left {machine : Machine} (reachable : Machine.Reachable left machine) :
    ∃ machine', Machine.Reachable right machine' ∧ machine.Tied Address machine' := by
  obtain ⟨store, source, args, count, reached⟩ := reachable.exists_advance
  have tied := h.advance (h.start store source args) count
  rw [reached] at tied
  obtain ⟨_, ends, -⟩ | ⟨_, machine', same, other, tied⟩ := tied.both
  · cases ends
  · cases same
    exact ⟨machine', .of_advance other, tied⟩

theorem exists_of_right {machine' : Machine} (reachable : Machine.Reachable right machine') :
    ∃ machine, Machine.Reachable left machine ∧ machine.Tied Address machine' := by
  obtain ⟨store, source, args, count, reached⟩ := reachable.exists_advance
  have tied := h.advance (h.start store source args) count
  rw [reached] at tied
  obtain ⟨_, -, ends⟩ | ⟨machine, _, other, same, tied⟩ := tied.both
  · cases ends
  · cases same
    exact ⟨machine, .of_advance other, tied⟩

/-- Tied machines end in the same way after the same number of instructions, or both go on. -/
theorem run {progress progress' : Progress} (tied : progress.Tied Address progress')
    (fuel : Nat) : Machine.run left fuel progress = Machine.run right fuel progress' := by
  induction fuel generalizing progress progress' with
  | zero =>
      obtain ⟨outcome, rfl, rfl⟩ | ⟨machine, machine', rfl, rfl, -⟩ := tied.both
      · rfl
      · rfl
  | succ fuel ih =>
      obtain ⟨outcome, rfl, rfl⟩ | ⟨machine, machine', rfl, rfl, tied⟩ := tied.both
      · rfl
      · exact ih (h.step tied)

end Setup.InStep

end ObjectMachine
