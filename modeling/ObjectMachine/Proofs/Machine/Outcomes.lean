import ObjectMachine.Proofs.Machine.Entrance
import ObjectMachine.Proofs.Machine.Initializers
import ObjectMachine.Proofs.Machine.Joins

/-!
# The result of a run

The result of a run is what the first thread leaves when it exits: the value on top of its stack, if
there is one above the slot of the arguments. It is settled as soon as the main method has returned
to the entry sequence, since nothing is left to the thread then but to exit. Other threads exit in
the same place, also copies of the first one that return from their own main method, but leave
nothing.
-/

namespace ObjectMachine

namespace Thread

/-- What a thread leaves as the result of a run if it is the first one. -/
def outcome (thread : Thread) : Value :=
  if thread.stack.depth ≤ 1 then .null else thread.stack.slots.back?.getD .null

variable {thread : Thread} {under : List Value}

theorem outcome_of_low (h : thread.stack.slots.toList.length ≤ 1) : thread.outcome = .null :=
  if_pos h

theorem outcome_of_append {value : Value} (h : thread.stack.slots.toList = under ++ [value])
    (high : under ≠ []) : thread.outcome = value := by
  have deep : ¬ thread.stack.depth ≤ 1 := by
    have length : thread.stack.depth = (under ++ [value]).length := congrArg List.length h
    rw [List.length_append, List.length_singleton] at length
    have := List.length_pos_iff.mpr high
    omega
  rw [outcome, if_neg deep, ← Array.getLast?_toList, h, List.getLast?_concat, Option.getD_some]

end Thread

theorem Roster.id_ne_of_nodup {roster : Roster} {thread : Thread} (nodup : roster.ids.Nodup)
    (other : thread ∈ roster.earlier ++ roster.later) : thread.id ≠ roster.running.id := by
  rw [ids_eq, List.nodup_middle, ← List.map_append] at nodup
  intro same
  exact (List.nodup_cons.mp nodup).1 (same ▸ List.mem_map_of_mem other)

namespace Machine

variable {setup : Setup} {machine granted current : Machine} {signal : Signal} {after : Scene}
  {value : Value}

theorem resultOnLeave_eq (machine : Machine) :
    machine.resultOnLeave =
      if machine.roster.running.id = .main then machine.roster.running.outcome
      else machine.result := rfl

theorem Grants.result_eq {pending : Bool} (h : machine.Grants setup signal granted pending)
    (other : machine.roster.running.id ≠ .main) : granted.result = machine.result := by
  cases h with
  | leave several => exact if_neg other
  | _ => rfl

theorem happenings_of_switch (h : machine.switch = .running current) :
    machine.happenings setup =
      (if machine.looked.world.clock.due then machine.looked.noted.decision else []) ++
        current.deeds setup := by
  unfold happenings
  rw [h]

/-- The exit of the last thread ends a run. -/
theorem finishes_of_performs (performs : machine.Performs setup .leave after)
    (alone : machine.roster.earlier ++ machine.roster.later = []) :
    machine.act setup =
      .ended ⟨.finished (machine.performed after).resultOnLeave, after.world.store⟩ := by
  obtain ⟨current, instruction, fetched, execute⟩ := performs
  have count : (machine.performed after).roster.count = 1 := by
    obtain ⟨none, none'⟩ := List.append_eq_nil_iff.mp alone
    change machine.roster.earlier.length + 1 + machine.roster.later.length = 1
    rw [none, none']
    rfl
  unfold act
  rw [fetched]
  dsimp only
  rw [perform_eq fetched, execute]
  change (machine.performed after).leave = _
  unfold leave
  dsimp only
  rw [if_pos count]
  rfl

/-- A thread at the exit leaves with its stack as it is. -/
theorem Performs.of_exit (performs : machine.Performs setup signal after)
    (hosts : setup.program.code.Hosts machine.roster.running.ip [(.exit, 0)]) :
    signal = .leave ∧ after.thread.stack = machine.roster.running.stack := by
  obtain ⟨current, instruction, fetched, execute⟩ := performs
  obtain ⟨exit, found, outline, -⟩ := hosts
  obtain rfl := Except.ok.inj ((fetch_of_execute fetched).symm.trans found)
  rw [Step.execute_exit (congrArg Prod.fst outline)] at execute
  cases execute
  refine ⟨rfl, ?_⟩
  rw [(fetch_eq_execute fetched).1]

/-- Whether it is certain what the first thread leaves: it is about to exit, or it has done so. -/
inductive Settled (setup : Setup) (value : Value) (machine : Machine) : Prop
  | awaits {thread : Thread} : thread ∈ machine.roster.threads → thread.id = .main →
      thread.state ≠ .exiting → setup.program.code.Hosts thread.ip [(.exit, 0)] →
      thread.outcome = value → Settled setup value machine
  | left : (∀ thread ∈ machine.roster.candidates, thread.id ≠ .main) → machine.result = value →
      Settled setup value machine

theorem Settled.leaves (settled : machine.Settled setup value)
    (distinct : machine.roster.ids.Nodup) (running : machine.roster.running.state = .running)
    (main : machine.roster.running.id = .main) (performs : machine.Performs setup signal after) :
    signal = .leave ∧ (machine.performed after).resultOnLeave = value := by
  cases settled with
  | left gone =>
      have stays := Roster.mem_candidates machine.roster.running_mem (by rw [running]; nofun)
      exact absurd main (gone _ stays)
  | awaits member own _ hosts outcome =>
      obtain rfl := List.inj_on_of_nodup_map distinct member machine.roster.running_mem
        (own.trans main.symm)
      obtain ⟨rfl, stack⟩ := performs.of_exit hosts
      refine ⟨rfl, ?_⟩
      have same : after.thread.outcome = machine.roster.running.outcome := by
        unfold Thread.outcome
        rw [stack]
      rw [resultOnLeave_eq, performed, if_pos (performs.settles.1.trans main)]
      exact same.trans outcome

theorem Settled.decides {next : Machine} {chosen : Thread} (settled : machine.Settled setup value)
    (decides : machine.reschedule = .running next)
    (resumes : machine.roster.Resumes chosen next.roster) : next.Settled setup value := by
  cases settled with
  | awaits member own stays hosts outcome =>
      rcases resumes.mem_candidates_iff.mp (Roster.mem_candidates member stays) with rfl | other
      · have running := resumes.running
        refine .awaits next.roster.running_mem ?_ ?_ ?_ ?_ <;> rw [running]
        · exact own
        · nofun
        · exact hosts
        · exact outcome
      · exact .awaits (Roster.mem_threads.mpr (.inr other)) own stays hosts outcome
  | left gone same =>
      refine .left (fun thread member => ?_) ((schedule_of_reschedule decides).2.2.trans same)
      rcases Roster.mem_threads.mp (next.roster.candidates_sublist.subset member) with rfl | other
      · have apart := gone chosen (resumes.mem_candidates_iff.mpr (.inl rfl))
        rw [resumes.running]
        exact apart
      · exact gone _ (resumes.mem_candidates_iff.mpr (.inr other))

theorem Settled.result_of_ended (settled : machine.Settled setup value) (awake : machine.Awake)
    (distinct : machine.roster.ids.Nodup) {result : Value} {store : Store}
    (ends : machine.act setup = .ended ⟨.finished result, store⟩) : result = value := by
  obtain ⟨after, performs, alone⟩ := ends_of_act awake ends
  have left : (machine.performed after).resultOnLeave = result := by
    rw [finishes_of_performs performs alone] at ends
    cases ends
    rfl
  by_cases main : machine.roster.running.id = .main
  · exact left.symm.trans (settled.leaves distinct awake.running main performs).2
  · cases settled with
    | awaits member own =>
        rcases Roster.mem_threads.mp member with rfl | other
        · exact absurd own main
        · rw [alone] at other
          cases other
    | left _ same =>
        rw [resultOnLeave_eq, performed, if_neg (performs.settles.1 ▸ main)] at left
        exact left.symm.trans same

end Machine

namespace Moment

variable {setup : Setup} {first moment next last : Moment} {log later entries : List Happening}
  {value : Value}

theorem Occurs.distinct (occurs : Occurs setup log moment) (few : forks log < UInt32.size - 1) :
    moment.machine.roster.ids.Nodup :=
  occurs.numbered.live.nodup (occurs.numbered.nodup few)

theorem Moves.settled_of_act {machine current granted : Machine} {instruction : Instruction}
    {signal : Signal} {after : Scene} {pending : Bool}
    (occurs : Occurs setup log ⟨machine, false⟩)
    (few : forks (log ++ [.executed machine instruction signal after]) < UInt32.size - 1)
    (fetched : machine.fetch setup = .execute current instruction)
    (execute : Step.execute instruction setup ⟨current.roster.running, current.world⟩ =
      .ok signal after)
    (grants : (machine.performed after).grant setup signal = .ok (granted, pending))
    (settled : machine.Settled setup value) : granted.Settled setup value := by
  have performs : machine.Performs setup signal after := ⟨current, instruction, fetched, execute⟩
  have distinct := occurs.distinct (forks_lt_of_append few)
  have running : machine.roster.running.state = .running := occurs.orderly.running rfl
  by_cases main : machine.roster.running.id = .main
  · obtain ⟨rfl, leaves⟩ := settled.leaves distinct running main performs
    cases Machine.grants_of_grant grants with
    | leave several =>
        refine .left (fun thread member => ?_) leaves
        rw [Roster.candidates_of_exiting rfl] at member
        exact main ▸ Roster.id_ne_of_nodup distinct member
  · cases settled with
    | awaits member own stays hosts outcome =>
        rcases Roster.mem_threads.mp member with rfl | other
        · exact absurd own main
        · obtain ⟨children, spares, -⟩ := Machine.spares_of_grant performs grants
          obtain ⟨kept, found, handed⟩ := spares.exists_handed other
          obtain rfl := occurs.eq_of_handed (forks_lt_of_append few) member handed
          exact .awaits (Roster.mem_threads.mpr (.inr found)) own stays hosts outcome
    | left gone same =>
        have result := (Machine.grants_of_grant grants).result_eq (performs.settles.1 ▸ main)
        refine .left (fun thread member own => ?_) (result.trans same)
        -- No copy is given the number of the first thread again.
        have there : ThreadId.main ∈ granted.roster.ids :=
          own ▸ List.mem_map_of_mem (granted.roster.candidates_sublist.subset member)
        have back := occurs.numbered.mem_of_mem_next (.act fetched execute grants) few
          List.mem_cons_self there
        obtain ⟨old, found, same⟩ := List.mem_map.mp back
        refine gone old (Roster.mem_candidates found ?_) same
        rcases Roster.mem_threads.mp found with rfl | other
        · rw [running]
          nofun
        · exact occurs.orderly.others old other

theorem Moves.settled (occurs : Occurs setup log moment) (move : Moves setup moment entries next)
    (few : forks (log ++ entries) < UInt32.size - 1)
    (settled : moment.machine.Settled setup value) : next.machine.Settled setup value := by
  cases move with
  | time clock =>
      cases settled with
      | awaits member own stays hosts outcome => exact .awaits member own stays hosts outcome
      | left gone same => exact .left gone same
  | decide decides resumes => exact settled.decides decides resumes
  | act fetched execute grants => exact settled_of_act occurs few fetched execute grants settled

theorem Leads.settled (occurs : Occurs setup log first) (leads : Leads setup first later last)
    (few : forks (log ++ later) < UInt32.size - 1)
    (settled : first.machine.Settled setup value) : last.machine.Settled setup value := by
  induction leads with
  | refl => exact settled
  | snoc before move ih =>
      rw [← List.append_assoc] at few
      exact move.settled (occurs.trans before) few (ih (forks_lt_of_append few))

end Moment

theorem Progress.result_of_settled {setup : Setup} {machine : Machine} {log : List Happening}
    {count : Nat} {value result : Value} {store : Store}
    (occurs : Moment.Occurs setup log ⟨machine, false⟩) (settled : machine.Settled setup value)
    (few : forks (log ++ history setup count (.running machine)) < UInt32.size - 1)
    (ends : advance setup count (.running machine) = .ended ⟨.finished result, store⟩) :
    result = value := by
  induction count generalizing machine log with
  | zero => cases ends
  | succ count ih =>
      change advance setup count (machine.step setup) = _ at ends
      rw [history, ← List.append_assoc] at few
      cases step : machine.step setup with
      | running next =>
          rw [step] at ends few
          have leads := Machine.leads_of_step step
          exact ih (occurs.trans leads) (leads.settled occurs (forks_lt_of_append few) settled) few
            ends
      | ended outcome =>
          have awake : machine.Awake := ⟨occurs.orderly.running rfl, occurs.orderly.others⟩
          obtain ⟨current, switched, awake⟩ := awake.switch
          rw [step] at ends
          have last : ended outcome = .ended ⟨.finished result, store⟩ := by
            cases count <;> exact ends
          rw [Machine.step_of_switch switched] at step
          rw [Machine.happenings_of_switch switched, ← List.append_assoc] at few
          have leads : Moment.Leads setup _ _ _ := Machine.leads_of_switch switched
          have few := forks_lt_of_append (forks_lt_of_append few)
          exact (leads.settled occurs few settled).result_of_ended awake
            ((occurs.trans leads).distinct few) (step.trans last)

/-! ## The main method -/

/-- A return of the receiver takes nothing off the stack before. -/
theorem Thread.stack_of_returned?_constructor {thread returner : Thread}
    {instruction : Instruction}
    (h : thread.returned? instruction = some (returner, .constructor)) :
    returner.stack = thread.stack := by
  rcases returned?_eq_some h with ⟨-, rfl, -⟩ | ⟨_, -, -, -, other⟩ | ⟨-, rfl, -⟩ |
    ⟨record, exit, -, -, -, -, rfl⟩
  · rfl
  · cases other
  · rfl
  · rfl

/-- What a thread leaves as the result of a run when its main method has returned. -/
theorem Thread.outcome_of_returned {thread back returner : Thread} {instruction : Instruction}
    {form : ReturnForm} {base : Nat} (low : base ≤ 1) (high : base < back.stack.depth)
    (returns : back.returned? instruction = some (returner, form))
    (slots : thread.stack.slots.toList = returner.stack.slots.toList.take base ++
      form.leaves .normal (returner.stack.get? base)) :
    (base = 0 → thread.outcome = .null) ∧ (form = .void → thread.outcome = .null) ∧
      (∀ value, form = .value value → base = 1 → thread.outcome = value) ∧
      (form = .constructor → base = 1 → back.stack.get? base = some thread.outcome) := by
  have under : (returner.stack.slots.toList.take base).length = base := by
    have := (returned?_stack returns).1
    rw [List.length_take]
    exact Nat.min_eq_left (by change _ ≤ returner.stack.depth; omega)
  have some (one : base = 1) : returner.stack.slots.toList.take base ≠ [] := by
    rw [← List.length_pos_iff, under]
    omega
  have top : (form.leaves .normal (returner.stack.get? base)).length ≤ 1 := by
    cases form with
    | void => exact Nat.zero_le _
    | value => exact Nat.le_refl _
    | constructor => exact Option.length_toList_le
  refine ⟨fun zero => ?_, ?_, ?_, ?_⟩
  · refine outcome_of_low ?_
    rw [slots, List.length_append, under, zero, Nat.zero_add]
    exact zero ▸ top
  · rintro rfl
    refine outcome_of_low ?_
    rw [slots, List.length_append, under]
    exact low
  · rintro value rfl one
    exact outcome_of_append slots (some one)
  · rintro rfl one
    obtain ⟨value, found⟩ : ∃ value, back.stack.get? base = Option.some value :=
      ⟨_, Array.getElem?_eq_getElem high⟩
    rw [stack_of_returned?_constructor returns, found] at slots
    rw [found, outcome_of_append slots (stack_of_returned?_constructor returns ▸ some one)]

namespace Program

variable {program : Program} {limits : Limits}

/-- The result of a run is what its main method has returned: the value of the return, null if there
is none, or what is in the first slot of the method's frame. The receiver has to stand above the
slot of the arguments for that, as it does unless the initializer of the main class has taken both
off the stack; else the result is null. The main thread is in the method from its only call outside
of all methods until the return, which may have been put off by finally bodies. The other threads
are what forks have made in whatever places, in the main method, too, and do what they like, before
the return and after it. -/
theorem result_of_main {facades : List Facade} {optimize : Bool} {units : List LoadedUnit}
    {store last : Store} {source : TickSource} {args : List String} {before count : Nat}
    {first middle machine : Machine} {origin thread returner : Thread} {call back : Act}
    {between : List Act} {form : ReturnForm} {result : Value}
    (room : optimize = true → (units.flatMap (·.code)).length < 0x100000000)
    (linked : link facades optimize units = .ok program)
    (start : Machine.start ⟨program, limits⟩ store source args = .running first)
    (ends : Progress.advance ⟨program, limits⟩ count (.running first) =
      .ended ⟨.finished result, last⟩)
    (few : forks (Progress.history ⟨program, limits⟩ count (.running first)) < UInt32.size - 1)
    (reached : Progress.advance ⟨program, limits⟩ before (.running first) = .running middle)
    (course : Machine.Course ⟨program, limits⟩ middle origin (call :: between ++ [back]) machine
      thread)
    (main : thread.id = .main) (opcode : call.instruction.opcode = .call)
    (outside : call.before.calls.size = 0) (encloses : call.Encloses between back)
    (returns : back.before.returned? back.instruction = some (returner, form))
    (high : call.after.dp < back.before.stack.depth) :
    (∃ key declaring, call.after.frame = .method declaring key .normal ∧
      program.symbols.Knows key.name mainName) ∧
    call.after.dp ≤ 1 ∧
    (call.after.dp = 0 → result = .null) ∧ (form = .void → result = .null) ∧
    (∀ value, form = .value value → call.after.dp = 1 → result = value) ∧
    (form = .constructor → call.after.dp = 1 →
      back.before.stack.get? call.after.dp = some result) := by
  obtain ⟨key, enters⟩ := entersMain_of_link room linked
  have reachable : Machine.Reachable ⟨program, limits⟩ middle := .of_advance (start ▸ reached)
  -- The run goes on from each of its machines until it ends.
  have goesOn {place : Nat} {here : Machine}
      (there : Progress.advance ⟨program, limits⟩ place (.running first) = .running here) :
      ∃ rest, count = place + rest ∧
        forks (Progress.history ⟨program, limits⟩ place (.running first)) < UInt32.size - 1 := by
    obtain ⟨rest, rfl⟩ : ∃ rest, count = place + rest := by
      refine Nat.exists_eq_add_of_le (Nat.le_of_not_lt fun less => ?_)
      rw [Progress.advance_of_ended ends (Nat.le_of_lt less)] at there
      cases there
    rw [Progress.history_add] at few
    exact ⟨rest, rfl, forks_lt_of_append few⟩
  have later {here : Machine} {acts : List Act} {thread : Thread}
      (course : Machine.Course ⟨program, limits⟩ middle origin acts here thread) :
      ∃ place, Progress.advance ⟨program, limits⟩ place (.running first) = .running here := by
    obtain ⟨more, there, -⟩ := course.exists_advance
    exact ⟨before + more, by rw [Progress.advance_add, reached, there]⟩
  -- The call is the one in the entry sequence.
  obtain ⟨caller, _, waiting, waits, calling, -, -⟩ := course.uncons
  obtain ⟨place, there⟩ := later waits
  obtain ⟨-, -, fewer⟩ := goesOn there
  obtain ⟨low, ⟨declaring, frame⟩, hosts⟩ :=
    (Progress.followsEntry enters start there fewer waiting waits.mem).calls_main enters calling
      opcode outside (by have := encloses.enters; omega)
  obtain ⟨base, -, key', kind, declaring', -, rfl, frame', registers, slots⟩ :=
    course.takes_up reachable encloses returns
  obtain ⟨rfl, rfl, rfl⟩ := Frame.method.inj (frame.symm.trans frame')
  -- The thread has only waited since the return.
  obtain ⟨more, there, -, undisturbed⟩ := course.exists_advance
  have there : Progress.advance ⟨program, limits⟩ (before + more) (.running first) =
      .running machine := by
    rw [Progress.advance_add, reached, there]
  obtain ⟨rest, rfl, fewer⟩ := goesOn there
  have stack : thread.stack = back.after.stack := by
    rw [Progress.history_add, reached] at fewer
    exact (Stack.undisturbed_concat.mp (undisturbed _
      ⟨⟨first, false⟩, ⟨rfl, store, source, args, start⟩, Progress.leads_of_advance reached⟩
      fewer)).2
  suffices result = thread.outcome by
    rw [this]
    exact ⟨⟨_, _, frame, enters.named⟩, low,
      Thread.outcome_of_returned low high returns (stack ▸ slots)⟩
  have occurs : Moment.Occurs ⟨program, limits⟩ _ ⟨machine, false⟩ :=
    ⟨⟨first, false⟩, ⟨rfl, store, source, args, start⟩, Progress.leads_of_advance there⟩
  have stays : thread.state ≠ .exiting := by
    rcases Roster.mem_threads.mp course.mem with rfl | other
    · rw [occurs.orderly.running rfl]
      nofun
    · exact occurs.orderly.others thread other
  have waits : (Setup.mk program limits).program.code.Hosts thread.ip [(.exit, 0)] := by
    rw [show thread.ip = call.instruction.returnAddress from
      congrArg Registers.ip (course.waits.registers.trans registers)]
    exact hosts
  rw [Progress.advance_add, there] at ends
  rw [Progress.history_add, there] at few
  exact Progress.result_of_settled occurs (.awaits course.mem main stays waits rfl) few ends

/-- Whether some acts of the first thread are those from the call of the main method until that
returns a value. The method keeps its receiver in the meantime. -/
def returnsFromMain (value : Value) : List Act → Bool
  | call :: rest => rest.getLast?.any fun back =>
    call.instruction.opcode = .call ∧ call.before.calls.size = 0 ∧
      call.Encloses rest.dropLast back ∧
      (back.before.returned? back.instruction).any (·.2 = .value value) ∧
      call.after.dp < call.after.stack.depth ∧
      (∀ act ∈ rest.dropLast, act.Above call.after.dp) ∧
      call.after.dp < back.before.stack.depth ∧ back.after.id = .main
  | [] => false

theorem of_returnsFromMain {value : Value} {acts : List Act}
    (h : returnsFromMain value acts = true) :
    ∃ call between back returner, acts = call :: between ++ [back] ∧
      call.instruction.opcode = .call ∧ call.before.calls.size = 0 ∧
      call.Encloses between back ∧
      back.before.returned? back.instruction = some (returner, .value value) ∧
      call.after.dp < call.after.stack.depth ∧ (∀ act ∈ between, act.Above call.after.dp) ∧
      call.after.dp < back.before.stack.depth ∧ back.after.id = .main := by
  cases acts with
  | nil => cases h
  | cons call rest =>
      obtain ⟨back, ends, happens⟩ := (Option.any_eq_true _ _).mp h
      obtain ⟨opcode, outside, encloses, returns, rest'⟩ := of_decide_eq_true happens
      obtain ⟨⟨returner, form⟩, returns, same⟩ := (Option.any_eq_true _ _).mp returns
      obtain rfl : form = .value value := of_decide_eq_true same
      refine ⟨call, rest.dropLast, back, returner, ?_, opcode, outside, encloses, returns, rest'⟩
      rw [List.cons_append, List.dropLast_append_getLast? back ends]

/-- The result with which a program that some units make up ends after so many steps, and how many
threads have been created until then. -/
def finished? (units : List LoadedUnit) (count : Nat) : Option (Value × Nat) :=
  (started? units).bind fun (program, first) =>
    match Progress.advance ⟨program, {}⟩ count (.running first) with
    | .ended ⟨.finished result, _⟩ =>
      some (result, forks (Progress.history ⟨program, {}⟩ count (.running first)))
    | _ => none

theorem ends_of_finished? {units : List LoadedUnit} {count created : Nat} {result : Value}
    {first : Machine} (h : finished? units count = some (result, created))
    (linked : link [] true units = .ok program)
    (start : Machine.start ⟨program, {}⟩ (.ofCatalog program.catalog) (.steps 100) [] =
      .running first) :
    (∃ last, Progress.advance ⟨program, {}⟩ count (.running first) =
      .ended ⟨.finished result, last⟩) ∧
      forks (Progress.history ⟨program, {}⟩ count (.running first)) = created := by
  have started : started? units = some (program, first) := by
    unfold started?
    rw [linked]
    dsimp only
    rw [start]
  unfold finished? at h
  rw [started, Option.bind_some] at h
  dsimp only at h
  split at h
  · next ended =>
      obtain ⟨rfl, rfl⟩ := by simpa using h
      exact ⟨⟨_, ended⟩, rfl⟩
  · cases h

/-- A module whose main method makes a copy of its thread. Each thread returns what it has found on
its stack then. -/
def forkingUnits : List LoadedUnit :=
  let app : List MetaRecord := [
    .moduleHeader "app" 0 0 0 0,
    .classHeader ⟨"Main", "", 0, 0, 1, .plain⟩,
    .method ⟨"main", 1, 0, true, 0, 0, true⟩,
    .finish]
  let code : Bytes := [
    0x90,  -- fork
    0x32]  -- retval
  [⟨MetaRecord.encodeAll app, code⟩] |>.filterMap LoadedUnit.verified?

/-- The copy returns zero from the main method and exits after the thread itself. -/
theorem result_of_main_forkingUnits :
    ∃ program first middle machine call between back last result,
      link [] true forkingUnits = .ok program ∧
      Machine.start ⟨program, {}⟩ (.ofCatalog program.catalog) (.steps 100) [] =
        .running first ∧
      Progress.advance ⟨program, {}⟩ 7 (.running first) = .ended ⟨.finished result, last⟩ ∧
      forks (Progress.history ⟨program, {}⟩ 7 (.running first)) = 1 ∧
      Progress.advance ⟨program, {}⟩ 1 (.running first) = .running middle ∧
      Machine.Course ⟨program, {}⟩ middle middle.roster.running (call :: between ++ [back])
        machine machine.roster.running ∧
      call.instruction.opcode = .call ∧ call.Encloses between back ∧ call.after.dp = 1 ∧
      result = .int 2 := by
  have happens : actsSatisfying forkingUnits 1 3 (fun _ acts =>
      returnsFromMain (.int 2) acts && acts.head?.any (·.after.dp = 1)) = true := by
    decide +kernel
  have finishes : (finished? forkingUnits 7).map (·.2) = some 1 := by
    decide +kernel
  obtain ⟨program, first, middle, machine, acts, linked, start, reached, course, -, holds⟩ :=
    exists_of_actsSatisfying happens
  obtain ⟨⟨result, _⟩, finishes, rfl⟩ := Option.map_eq_some_iff.mp finishes
  obtain ⟨⟨last, ends⟩, one⟩ := ends_of_finished? finishes linked start
  obtain ⟨returns, receiver⟩ := Bool.and_eq_true_iff.mp holds
  obtain ⟨call, between, back, returner, rfl, opcode, outside, encloses, returns, -, -, high,
    main⟩ := of_returnsFromMain returns
  have receiver : call.after.dp = 1 := of_decide_eq_true receiver
  have room : (forkingUnits.flatMap (·.code)).length < 0x100000000 := by decide +kernel
  have few : forks (Progress.history ⟨program, {}⟩ 7 (.running first)) < UInt32.size - 1 := by
    rw [one]
    decide
  have main := course.waits.id.trans main
  obtain ⟨-, -, -, -, values, -⟩ := result_of_main (fun _ => room) linked start ends few reached
    course main opcode outside encloses returns high
  exact ⟨program, first, middle, machine, call, between, back, last, result, linked, start, ends,
    one, reached, course, opcode, encloses, receiver, values _ rfl receiver⟩

/-- A module the initializer of whose main class takes the arguments off the stack, too. -/
def emptyingUnits : List LoadedUnit :=
  let app : List MetaRecord := [
    .moduleHeader "app" 0 0 0 0,
    .classHeader ⟨"Main", "", 0, 0, 2, .plain⟩,
    .method ⟨"<clinit>", 1, 0, false, 0, 0, true⟩,
    .method ⟨"main", 2, 3, true, 0, 0, true⟩,
    .finish]
  let code : Bytes := [
    0x01,     -- pop, in the initializer
    0x01,     -- pop
    0x31,     -- ret
    0x07, 5,  -- pushbyte, in the main method
    0x32]     -- retval
  [⟨MetaRecord.encodeAll app, code⟩] |>.filterMap LoadedUnit.verified?

/-- What the main method has returned is taken for the arguments if the initializer of its class has
taken those off the stack. -/
theorem result_lost_after_initializer :
    ¬ ∀ (facades : List Facade) (optimize : Bool) (units : List LoadedUnit) (program : Program)
      (limits : Limits) (store last : Store) (source : TickSource) (args : List String)
      (before count : Nat) (first middle machine : Machine) (origin thread returner : Thread)
      (call back : Act) (between : List Act) (value result : Value),
      link facades optimize units = .ok program →
      Machine.start ⟨program, limits⟩ store source args = .running first →
      Progress.advance ⟨program, limits⟩ count (.running first) =
        .ended ⟨.finished result, last⟩ →
      Progress.advance ⟨program, limits⟩ before (.running first) = .running middle →
      Machine.Course ⟨program, limits⟩ middle origin (call :: between ++ [back]) machine thread →
      thread.id = .main → call.instruction.opcode = .call → call.before.calls.size = 0 →
      call.Encloses between back →
      back.before.returned? back.instruction = some (returner, .value value) →
      call.after.dp < call.after.stack.depth → (∀ act ∈ between, act.Above call.after.dp) →
      result = value := by
  intro keeps
  have happens : actsSatisfying emptyingUnits 5 3
      (fun _ acts => returnsFromMain (.byte 5) acts) = true := by
    decide +kernel
  have finishes : finished? emptyingUnits 9 = some (.null, 0) := by
    decide +kernel
  obtain ⟨program, first, middle, machine, acts, linked, start, reached, course, -, holds⟩ :=
    exists_of_actsSatisfying happens
  obtain ⟨⟨last, ends⟩, -⟩ := ends_of_finished? finishes linked start
  obtain ⟨call, between, back, returner, rfl, opcode, outside, encloses, returns, high, above, -,
    main⟩ := of_returnsFromMain holds
  cases keeps [] true _ program {} _ last _ [] 5 9 first middle machine _ _ returner call back
    between _ _ linked start ends reached course (course.waits.id.trans main) opcode outside
    encloses returns high above

end Program

end ObjectMachine
