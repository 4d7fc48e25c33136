import ObjectMachine.Proofs.Machine.Conventions
import ObjectMachine.Proofs.Machine.Isolation
import ObjectMachine.Proofs.Machine.Loading
import ObjectMachine.Proofs.Program.Grid

/-!
# Static initializers

In a run of a program that has just been linked, a class is marked if and only if a thread has
loaded it. So it is the first load of a class by any thread that stores its constants and enters its
static initializer, and no later one does. When the initializer returns the class is loaded again,
and pushed. The stack below it is that of the first attempt, but for what a callee has stored into
it and for the zeros of forks whose numbers have come round.
-/

namespace ObjectMachine

namespace Happening

def loads? (program : Program) : Happening → Option ClassId
  | resumed _ _ => none
  | executed machine instruction _ _ => instruction.loads? program machine.roster.running

def initializes? : Happening → Option ClassId
  | resumed _ _ => none
  | executed machine _ _ after => machine.roster.running.entersInitializerOf? after.thread

def storeAfter : Happening → Store
  | resumed machine _ => machine.world.store
  | executed _ _ _ after => after.world.store

def mark (program : Program) (latches : Array Bool) (happening : Happening) : Array Bool :=
  match happening.loads? program with
  | some id => latches.setIfInBounds id.index true
  | none => latches

variable {program : Program}

theorem size_mark (latches : Array Bool) (happening : Happening) :
    (happening.mark program latches).size = latches.size := by
  unfold mark
  split
  · exact Array.size_setIfInBounds
  · rfl

theorem mark_eq_true_iff {latches : Array Bool} {happening : Happening} {id : ClassId}
    (inside : id.index < latches.size) :
    (happening.mark program latches)[id.index]? = some true ↔
      latches[id.index]? = some true ∨ happening.loads? program = some id := by
  unfold mark
  cases happening.loads? program with
  | none => simp
  | some other =>
      dsimp only
      rw [Array.getElem?_setIfInBounds]
      by_cases same : other.index = id.index
      · obtain rfl : other = id := by
          cases other
          cases id
          exact congrArg ClassId.mk same
        simp [inside]
      · have apart : other ≠ id := fun other => same (congrArg ClassId.index other)
        simp [same, apart]

theorem size_foldl_mark (log : List Happening) (latches : Array Bool) :
    (log.foldl (mark program) latches).size = latches.size := by
  induction log generalizing latches with
  | nil => rfl
  | cons happening rest ih => exact (ih _).trans (size_mark latches happening)

theorem foldl_mark_eq_true_iff (log : List Happening) (latches : Array Bool) {id : ClassId}
    (inside : id.index < latches.size) :
    (log.foldl (mark program) latches)[id.index]? = some true ↔
      latches[id.index]? = some true ∨ ∃ happening ∈ log, happening.loads? program = some id := by
  induction log generalizing latches with
  | nil => simp
  | cons happening rest ih =>
      rw [List.foldl_cons, ih _ (by rwa [size_mark]), mark_eq_true_iff inside, or_assoc]
      simp

end Happening

namespace Moment

variable {setup : Setup} {first last : Moment} {log entries : List Happening}
  {happening : Happening} {id : ClassId}

theorem Moves.latches (move : Moves setup first entries last) :
    last.machine.world.store.latches =
      entries.foldl (Happening.mark setup.program) first.machine.world.store.latches := by
  cases move with
  | time clock => rfl
  | decide decides resumes =>
      exact congrArg Store.latches (Machine.schedule_of_reschedule decides).2.1
  | @act machine current granted instruction signal after pending fetched execute grants =>
      have world := (Machine.grants_of_grant grants).world
      have marks := Step.execute_latches execute
      rw [(Machine.fetch_eq_execute fetched).1, Machine.fetch_world fetched] at marks
      rw [world]
      exact marks

theorem Leads.latches (leads : Leads setup first log last) :
    last.machine.world.store.latches =
      log.foldl (Happening.mark setup.program) first.machine.world.store.latches := by
  induction leads with
  | refl => rfl
  | snoc _ move ih => rw [move.latches, ih, List.foldl_append]

/-- A move enters the initializer of a class if it is the first to load the class, and the class has
an initializer of its own. -/
theorem Moves.initializes (move : Moves setup first [happening] last) (id : ClassId) :
    happening.initializes? = some id ↔
      happening.loads? setup.program = some id ∧
        ¬ first.machine.world.store.IsMarked id ∧
        (Step.initializerOf setup.program id).isSome := by
  cases move with
  | decide decides resumes => simp [Happening.initializes?, Happening.loads?]
  | @act machine current granted instruction signal after pending fetched execute grants =>
      have behind : current.roster.running.ip = instruction.offset + instruction.size := by
        rw [(Machine.fetch_eq_execute fetched).1]
      have enters := Step.execute_entersInitializerOf? execute behind id
      rw [(Machine.fetch_eq_execute fetched).1, Machine.fetch_world fetched] at enters
      exact enters

theorem Moves.storeAfter_eq (move : Moves setup first [happening] last)
    (loads : happening.loads? setup.program = some id)
    (unmarked : ¬ first.machine.world.store.IsMarked id) :
    happening.storeAfter =
      first.machine.world.store.loaded id (setup.program.catalog.get id) := by
  cases move with
  | decide decides resumes => cases loads
  | @act machine current granted instruction signal after pending fetched execute grants =>
      rw [(Machine.fetch_eq_execute fetched).1, Machine.fetch_world fetched] at execute
      exact Step.execute_stores execute loads unmarked

end Moment

/-! ## Freshly linked programs -/

namespace Program.Fresh

variable {program : Program} {limits : Limits} {source : TickSource} {args : List String}
  {first : Machine} {moment : Moment} {log : List Happening}

theorem inside_of_loads? (fresh : program.Fresh) {instruction : Instruction} {thread : Thread}
    {id : ClassId} (loads : instruction.loads? program thread = some id) :
    id.index < program.catalog.classes.size := by
  unfold Instruction.loads? at loads
  split at loads
  · next named _ found =>
      obtain rfl := Option.some.inj loads
      unfold ModuleRecord.classRef ModuleRecord.entry at found
      split at found
      · next id' there =>
          obtain rfl := Except.ok.inj found
          obtain ⟨place, -, there⟩ := Option.bind_eq_some_iff.mp there
          have member := Array.mem_of_getElem? there
          unfold Program.moduleOf at member
          rw [Array.getD_eq_getD_getElem?] at member
          cases record : program.modules[thread.moduleId.index]? with
          | none =>
              rw [record] at member
              cases member
              contradiction
          | some record' =>
              rw [record] at member
              exact fresh.references record' (Array.mem_of_getElem? record) _ member
      · cases found
  · cases loads

theorem latches_of_start (fresh : program.Fresh)
    (start : Machine.start ⟨program, limits⟩ (.ofCatalog program.catalog) source args =
      .running first) :
    first.world.store.latches.size = program.catalog.classes.size ∧
      ∀ place : Nat, first.world.store.latches[place]? ≠ some true := by
  have begins : first.world.store.latches =
      program.catalog.classes.map (·.statics.initialized) := by
    unfold Machine.start at start
    dsimp only at start
    split at start
    · cases start
      exact Array.map_map
    · cases start
  rw [begins]
  refine ⟨Array.size_map, fun place marked => ?_⟩
  rw [Array.getElem?_map] at marked
  obtain ⟨info, there, marked⟩ := Option.map_eq_some_iff.mp marked
  have uninitialized := (fresh.classes ⟨place⟩).uninitialized
  rw [Catalog.get, Array.getD_eq_getD_getElem?, there] at uninitialized
  exact Bool.false_ne_true (uninitialized.symm.trans marked)

theorem size_latches (fresh : program.Fresh)
    (start : Machine.start ⟨program, limits⟩ (.ofCatalog program.catalog) source args =
      .running first)
    (leads : Moment.Leads ⟨program, limits⟩ ⟨first, false⟩ log moment) :
    moment.machine.world.store.latches.size = program.catalog.classes.size := by
  rw [leads.latches, Happening.size_foldl_mark]
  exact (fresh.latches_of_start start).1

theorem isMarked_iff (fresh : program.Fresh)
    (start : Machine.start ⟨program, limits⟩ (.ofCatalog program.catalog) source args =
      .running first)
    (leads : Moment.Leads ⟨program, limits⟩ ⟨first, false⟩ log moment) {id : ClassId}
    (inside : id.index < program.catalog.classes.size) :
    moment.machine.world.store.IsMarked id ↔
      ∃ happening ∈ log, happening.loads? program = some id := by
  obtain ⟨size, unmarked⟩ := fresh.latches_of_start start
  rw [Store.isMarked_iff, leads.latches]
  rw [Happening.foldl_mark_eq_true_iff _ _ (by rw [size]; exact inside)]
  exact or_iff_right (unmarked id.index)

theorem inside_of_move (fresh : program.Fresh) {before after : Moment} {happening : Happening}
    (move : Moment.Moves ⟨program, limits⟩ before [happening] after) {id : ClassId}
    (loads : happening.loads? program = some id) : id.index < program.catalog.classes.size := by
  cases happening with
  | resumed machine thread => cases loads
  | executed machine instruction signal result => exact fresh.inside_of_loads? loads

theorem filter_initializes (fresh : program.Fresh)
    (start : Machine.start ⟨program, limits⟩ (.ofCatalog program.catalog) source args =
      .running first)
    (leads : Moment.Leads ⟨program, limits⟩ ⟨first, false⟩ log moment) (id : ClassId) :
    log.filter (·.initializes? = some id) =
      if (Step.initializerOf program id).isSome then
        (log.find? (·.loads? program = some id)).toList
      else [] := by
  induction leads with
  | refl => simp
  | @snoc middle last log entries leads move ih =>
      rcases move.eq_nil_or_singleton with rfl | ⟨happening, rfl⟩
      · rw [List.append_nil]
        exact ih
      · have enters := move.initializes id
        rw [List.filter_append, List.find?_append, ih]
        by_cases loads : happening.loads? program = some id
        · have marked := fresh.isMarked_iff start leads (fresh.inside_of_move move loads)
          cases found : log.find? (·.loads? program = some id) with
          | some earlier =>
              -- The class has been loaded before.
              have again : middle.machine.world.store.IsMarked id := by
                refine marked.mpr ⟨earlier, List.mem_of_find?_eq_some found, ?_⟩
                simpa using List.find?_some found
              have other : happening.initializes? ≠ some id := fun same =>
                (enters.mp same).2.1 again
              simp [other]
          | none =>
              have first : ¬ middle.machine.world.store.IsMarked id := by
                rw [marked]
                rintro ⟨earlier, member, same⟩
                exact absurd same (by simpa using List.find?_eq_none.mp found earlier member)
              cases own : (Step.initializerOf program id).isSome with
              | true =>
                  have entered := enters.mpr ⟨loads, first, own⟩
                  simp [entered, loads]
              | false =>
                  have other : happening.initializes? ≠ some id := fun same => by
                    rw [own] at enters
                    cases (enters.mp same).2.2
                  simp [other]
        · have other : happening.initializes? ≠ some id := fun same => loads (enters.mp same).1
          simp [other, loads]

theorem constants_of_first_load (fresh : program.Fresh)
    (start : Machine.start ⟨program, limits⟩ (.ofCatalog program.catalog) source args =
      .running first)
    (leads : Moment.Leads ⟨program, limits⟩ ⟨first, false⟩ log moment) {id : ClassId}
    {load : Happening} (found : log.find? (·.loads? program = some id) = some load)
    (few : (program.catalog.get id).enumValues.length < UInt32.size) {name : Symbol}
    {value : Int32} (constant : (name, value) ∈ (program.catalog.get id).enumValues) :
    ∃ slot, (program.catalog.get id).field? name = some ⟨slot, true⟩ ∧
      load.storeAfter.static id slot = .int value := by
  obtain ⟨loads, earlier, later, rfl, others⟩ := List.find?_eq_some_iff_append.mp found
  obtain ⟨before, after, leads, move, -⟩ := leads.split
  have loads := of_decide_eq_true loads
  have inside := fresh.inside_of_move move loads
  have unmarked : ¬ before.machine.world.store.IsMarked id := by
    rw [fresh.isMarked_iff start leads inside]
    rintro ⟨other, member, same⟩
    simpa [same] using others other member
  rw [move.storeAfter_eq loads unmarked]
  refine Store.static_loaded (fresh.classes id).enumerates few ?_ constant
  rw [← Store.size_latches, fresh.size_latches start leads]
  exact inside

end Program.Fresh

/-! ## Loading again -/

namespace Machine

variable {setup : Setup}

/-- A course is a part of the run that it begins in. -/
theorem Course.exists_advance {first machine : Machine} {start thread : Thread} {acts : List Act}
    (h : Course setup first start acts machine thread) :
    ∃ count, Progress.advance setup count (.running first) = .running machine ∧
      (∀ act ∈ acts, ∃ happening ∈ Progress.history setup count (.running first),
        happening.loads? setup.program = act.instruction.loads? setup.program act.before) ∧
      ∀ log, Moment.Occurs setup log ⟨first, false⟩ →
        forks (log ++ Progress.history setup count (.running first)) < UInt32.size - 1 →
          start.stack.Undisturbed acts thread.stack := by
  induction h with
  | start => exact ⟨0, rfl, fun _ none => absurd none List.not_mem_nil, fun _ _ _ => rfl⟩
  | @step acts machine next thread after act course step _ proceeds ih =>
      obtain ⟨count, reached, recorded, undisturbed⟩ := ih
      have history : Progress.history setup (count + 1) (.running first) =
          Progress.history setup count (.running first) ++ machine.happenings setup := by
        rw [Progress.history_add, reached, Progress.history, Progress.history, List.append_nil]
      refine ⟨count + 1, Progress.advance_of_step reached step, fun other member => ?_,
        fun log occurs few => ?_⟩
      · rw [history]
        rcases List.mem_append.mp member with earlier | last
        · obtain ⟨happening, found, same⟩ := recorded other earlier
          exact ⟨happening, List.mem_append_left _ found, same⟩
        · cases proceeds with
          | rests => cases last
          | acts executes _ _ _ =>
              obtain rfl := List.mem_singleton.mp last
              obtain ⟨current, found, running⟩ := executes.mem_happenings
              refine ⟨_, List.mem_append_right _ found, ?_⟩
              rw [running]
              rfl
      · rw [history, ← List.append_assoc] at few
        have few := forks_lt_of_append few
        have before := undisturbed log occurs few
        cases act with
        | none =>
            cases proceeds with
            | rests rests =>
                have occurs := occurs.trans (Progress.leads_of_advance reached)
                rw [Option.toList_none, List.append_nil,
                  (occurs.idles_of_rests few course.mem rests).stack]
                exact before
        | some act =>
            obtain ⟨rfl, -⟩ := proceeds.executes
            exact Stack.undisturbed_concat.mpr ⟨proceeds.stack_before ▸ before, rfl⟩

/-- Whether the next instruction of a thread is a given one, and does nothing but push a class on
the values that are left. -/
structure Pushes (setup : Setup) (machine : Machine) (thread : Thread) (instruction : Instruction)
    (id : ClassId) (registers : Registers) (kept : List Value) : Prop where
  fetched : setup.program.code.fetch thread.ip = .ok instruction
  executes : ∀ current, machine.ready setup = .execute current instruction →
    current.roster.running.Idles { thread with ip := instruction.offset + instruction.size } →
    ∃ after, Step.execute instruction setup ⟨current.roster.running, current.world⟩ =
        .ok .proceed ⟨after, current.world⟩ ∧
      after.registers = registers ∧ after.stack.slots.toList = kept ++ [.classRef id]

/-- A thread that is about to load a class once more pushes it. -/
theorem pushes_of_isMarked {machine : Machine} {thread : Thread} {instruction : Instruction}
    {id : ClassId} {registers : Registers} (marked : machine.world.store.IsMarked id)
    (loads : instruction.loads? setup.program thread = some id)
    (fetched : setup.program.code.fetch instruction.offset = .ok instruction)
    (behind : registers.ip = instruction.offset + instruction.size)
    (same : thread.registers = { registers with ip := instruction.offset })
    (room : thread.stack.depth < thread.stack.limit) :
    machine.Pushes setup thread instruction id registers thread.stack.slots.toList := by
  have ip : thread.ip = instruction.offset := congrArg Registers.ip same
  refine ⟨by rwa [ip], fun current ready idle => ?_⟩
  have moduleId : current.roster.running.moduleId = thread.moduleId := by
    rw [idle.eq]
  have pushed : Step.execute instruction setup ⟨current.roster.running, current.world⟩ =
      .ok .proceed ⟨current.roster.running.withClass id, current.world⟩ :=
    Step.execute_of_isMarked ((Instruction.loads?_congr moduleId).trans loads)
      (by rwa [store_of_ready ready]) (by rwa [idle.stack])
  have moved : current.roster.running.registers =
      { thread.registers with ip := instruction.offset + instruction.size } := idle.registers
  refine ⟨_, pushed, ?_, ?_⟩
  · change current.roster.running.registers = registers
    rw [moved, same, ← behind]
  · change (current.roster.running.stack.slots.push _).toList = _
    rw [idle.stack, Array.toList_push]

/-- A thread that comes back from the initializer that a load has entered is as it was before the
load, but for what has been stored in its part of the stack. -/
theorem Course.initializer_returns {first machine : Machine} {start thread : Thread}
    {call back : Act} {between : List Act} (reachable : Reachable setup first)
    (course : Course setup first start (call :: between ++ [back]) machine thread)
    (load : call.instruction.opcode = .loadClass) (encloses : call.Encloses between back)
    {returner : Thread} {form : ReturnForm}
    (returns : back.before.returned? back.instruction = some (returner, form))
    (high : call.after.dp < call.after.stack.depth)
    (above : ∀ act ∈ between, act.Above call.after.dp) :
    ∃ id, call.instruction.loads? setup.program call.before = some id ∧
      setup.program.code.fetch call.instruction.offset = .ok call.instruction ∧
      call.before.ip = call.instruction.offset + call.instruction.size ∧
      back.after.registers = { call.before.registers with ip := call.instruction.offset } ∧
      back.after.stack.depth = call.before.stack.depth ∧
      back.after.stack.depth < setup.limits.stack ∧
      ∀ place < back.after.stack.depth, (∀ act ∈ between, ¬ act.Stores place) →
        back.after.stack.get? place = call.before.stack.get? place := by
  obtain ⟨base, height, key, kind, declaring, convention, dp, -, registers, left⟩ :=
    course.takes_up reachable encloses returns
  obtain ⟨enough, keeps⟩ := course.spares_under encloses returns high above
  obtain ⟨calling, next, waiting, waits, proceeds, step, entered⟩ := course.uncons
  obtain ⟨-, fetched, -, world, signal, result, execute, -⟩ := proceeds.executes
  obtain ⟨id, loads, -⟩ := Step.execute_loads execute load
  -- The frame is that of an initializer, whose return leaves nothing.
  obtain ⟨rfl, rfl⟩ : base = call.before.stack.depth ∧ kind = .initializer := by
    cases convention with
    | call other => rw [load] at other; cases other
    | invoke other => rw [load] at other; cases other
    | loadClass => exact ⟨rfl, rfl⟩
  have stack : back.after.stack.slots.toList =
      returner.stack.slots.toList.take call.before.stack.depth := by
    rw [left]
    cases form <;> exact List.append_nil _
  have depth : back.after.stack.depth = call.before.stack.depth :=
    (congrArg List.length stack).trans (List.length_take_of_le (dp ▸ enough))
  refine ⟨id, loads, ?_, proceeds.ip_before, ?_, depth, ?_, fun place inside spares => ?_⟩
  · rw [Segment.offset_of_fetch fetched]
    exact fetched
  · rw [registers, Instruction.returnAddress, if_pos load]
  · -- There has been room for the receiver.
    have reached := ReachableBy.step (waits.reachable reachable) step fun _ => trivial
    have low := (Reachable.room reached call.after entered.start_mem).2
    omega
  · rw [depth] at inside
    rw [← keeps place (dp ▸ inside) spares, Stack.get?, ← Array.getElem?_toList, stack,
      List.getElem?_take_of_lt inside, Array.getElem?_toList]
    rfl

end Machine

namespace Program

variable {program : Program} {limits : Limits} {source : TickSource} {args : List String}
  {first middle machine : Machine} {origin thread : Thread}

theorem Fresh.isMarked_of_course (fresh : program.Fresh)
    (start : Machine.start ⟨program, limits⟩ (.ofCatalog program.catalog) source args =
      .running first) {count : Nat}
    (reached : Progress.advance ⟨program, limits⟩ count (.running first) = .running middle)
    {acts : List Act}
    (course : Machine.Course ⟨program, limits⟩ middle origin acts machine thread) {act : Act}
    (member : act ∈ acts) {id : ClassId}
    (loads : act.instruction.loads? program act.before = some id) :
    machine.world.store.IsMarked id := by
  obtain ⟨more, goesOn, recorded, -⟩ := course.exists_advance
  obtain ⟨happening, found, same⟩ := recorded act member
  have leads := (Progress.leads_of_advance reached).trans (Progress.leads_of_advance goesOn)
  refine (fresh.isMarked_iff start leads (fresh.inside_of_loads? loads)).mpr ⟨happening, ?_, ?_⟩
  · exact List.mem_append_right _ found
  · exact same.trans loads

/-- Static initialization happens once. Whatever the threads of a freshly linked program do, the
initializers that they enter are those of the classes that have one of their own, each once and by
the first `loadclass` of its class, which stores the constants of the class, too. When the
initializer returns to the instruction, that does nothing any more but push the class on what the
thread has had on its stack before, of which only those values may have changed that a callee of the
initializer has stored something over. In a run of so many forks that their numbers have gone round,
the thread may also have found zeros on top of that while it waited. -/
theorem initialized_once {facades : List Facade} {optimize : Bool} {units : List LoadedUnit}
    (linked : link facades optimize units = .ok program)
    (start : Machine.start ⟨program, limits⟩ (.ofCatalog program.catalog) source args =
      .running first) :
    (∀ (log : List Happening) (moment : Moment) (id : ClassId),
      Moment.Leads ⟨program, limits⟩ ⟨first, false⟩ log moment →
      log.filter (·.initializes? = some id) =
          (if (Step.initializerOf program id).isSome then
            (log.find? (·.loads? program = some id)).toList
          else []) ∧
        ∀ load, log.find? (·.loads? program = some id) = some load →
          (program.catalog.get id).enumValues.length < UInt32.size →
          ∀ name value, (name, value) ∈ (program.catalog.get id).enumValues →
            ∃ slot, (program.catalog.get id).field? name = some ⟨slot, true⟩ ∧
              load.storeAfter.static id slot = .int value) ∧
    ∀ (count : Nat) (middle machine : Machine) (origin thread returner : Thread) (call back : Act)
      (between : List Act) (form : ReturnForm),
      Progress.advance ⟨program, limits⟩ count (.running first) = .running middle →
      Machine.Course ⟨program, limits⟩ middle origin (call :: between ++ [back]) machine thread →
      call.instruction.opcode = .loadClass → call.Encloses between back →
      back.before.returned? back.instruction = some (returner, form) →
      call.after.dp < call.after.stack.depth → (∀ act ∈ between, act.Above call.after.dp) →
      ∃ id zeros, call.instruction.loads? program call.before = some id ∧
        back.after.stack.depth = call.before.stack.depth ∧
        (∀ place < back.after.stack.depth, (∀ act ∈ between, ¬ act.Stores place) →
          back.after.stack.get? place = call.before.stack.get? place) ∧
        thread.stack.slots.toList =
          back.after.stack.slots.toList ++ List.replicate zeros (.int 0) ∧
        (zeros = 0 ∨ thread.stack.depth < limits.stack →
          machine.Pushes ⟨program, limits⟩ thread call.instruction id call.before.registers
            thread.stack.slots.toList) ∧
        ∃ more, Progress.advance ⟨program, limits⟩ more (.running middle) = .running machine ∧
          (forks (Progress.history ⟨program, limits⟩ (count + more) (.running first)) <
            UInt32.size - 1 → zeros = 0) := by
  have fresh := fresh_of_link linked
  refine ⟨fun log moment id leads => ⟨fresh.filter_initializes start leads id,
    fun load found few name value constant =>
      fresh.constants_of_first_load start leads found few constant⟩, ?_⟩
  intro count middle machine origin thread returner call back between form reached course load
    encloses returns high above
  have reachable : Machine.Reachable ⟨program, limits⟩ middle :=
    .of_advance (start ▸ reached)
  obtain ⟨id, loads, fetched, behind, registers, depth, room, same⟩ :=
    course.initializer_returns reachable load encloses returns high above
  have waits := course.waits
  obtain ⟨zeros, heaped⟩ := waits.stack
  obtain ⟨more, goesOn, -, undisturbed⟩ := course.exists_advance
  refine ⟨id, zeros, loads, depth, same, heaped.toList, fun spared => ?_, more, goesOn,
    fun few => ?_⟩
  · have marked := fresh.isMarked_of_course start reached course List.mem_cons_self loads
    have registers := waits.registers.trans registers
    have moduleId : thread.moduleId = call.before.moduleId := congrArg Registers.moduleId registers
    refine Machine.pushes_of_isMarked marked ((Instruction.loads?_congr moduleId).trans loads)
      fetched behind registers ?_
    rw [((course.reachable reachable).room thread course.mem).1]
    rcases spared with rfl | low
    · rwa [heaped.eq]
    · exact low
  · rw [Progress.history_add, reached] at few
    have occurs : Moment.Occurs ⟨program, limits⟩ _ ⟨middle, false⟩ :=
      ⟨⟨first, false⟩, ⟨rfl, _, source, args, start⟩, Progress.leads_of_advance reached⟩
    have own := (Stack.undisturbed_concat.mp (undisturbed _ occurs few)).2
    have height := heaped.depth
    rw [own, List.length_replicate] at height
    omega

/-- A module one of whose classes has a static initializer. That catches what a method throws, which
it has called with a value of the main method as the receiver. The method has written to its
receiver before. It throws an enumeration. -/
def initializerUnits : List LoadedUnit :=
  let app : List MetaRecord := [
    .moduleHeader "app" 3 0 1 0,
    .classHeader ⟨"Other", "", 0, 0, 1, .plain⟩,
    .method ⟨"<clinit>", 1, 0, false, 0, 0, true⟩,
    .classHeader ⟨"Main", "", 0, 0, 2, .plain⟩,
    .method ⟨"main", 1, 10, true, 0, 0, true⟩,
    .method ⟨"throws", 2, 16, false, 1, 0, true⟩,
    .enumeration "Level" [("low", 3)],
    .classRef "Main" 1,
    .classRef "Other" 2,
    .classRef "Level" 3,
    .methodCall "throws" 1 1,
    .finish]
  let code : Bytes := [
    0x70, 6, 8,  -- entertry, in the initializer
    0x25, 1,     -- call, with the value of the main method as the receiver
    0x73,        -- leavetry
    0x01,        -- pop, in the catch body
    0x74,        -- leavecatch
    0x75,        -- leavefinally
    0x31,        -- ret
    0x1f, 1,     -- loadclass, in the main method
    0x1f, 2,     -- loadclass, which enters the initializer
    0x01,        -- pop
    0x32,        -- retval
    0x07, 5,     -- pushbyte, in the method that throws
    0x16, 0,     -- storelocal
    0x1f, 3,     -- loadclass
    0x76]        -- throw
  [⟨MetaRecord.encodeAll app, code⟩] |>.filterMap LoadedUnit.verified?

def started? (units : List LoadedUnit) : Option (Program × Machine) :=
  match link [] true units with
  | .ok program =>
    match Machine.start ⟨program, {}⟩ (.ofCatalog program.catalog) (.steps 100) [] with
    | .running first => some (program, first)
    | .ended _ => none
  | .error _ => none

/-- Whether a test is true of what the main method of some units does in so many steps after
others. -/
def actsSatisfying (units : List LoadedUnit) (before count : Nat)
    (test : Program → List Act → Bool) : Bool :=
  (started? units).any fun (program, first) =>
    match Progress.advance ⟨program, {}⟩ before (.running first) with
    | .running middle => (middle.course? ⟨program, {}⟩ count).any (test program ·.1)
    | .ended _ => false

theorem exists_of_actsSatisfying {units : List LoadedUnit} {before count : Nat}
    {test : Program → List Act → Bool} (h : actsSatisfying units before count test = true) :
    ∃ program first middle machine acts, link [] true units = .ok program ∧
      Machine.start ⟨program, {}⟩ (.ofCatalog program.catalog) (.steps 100) [] =
        .running first ∧
      Progress.advance ⟨program, {}⟩ before (.running first) = .running middle ∧
      Machine.Course ⟨program, {}⟩ middle middle.roster.running acts machine
        machine.roster.running ∧
      middle.roster.running.stack.Undisturbed acts machine.roster.running.stack ∧
      test program acts = true := by
  obtain ⟨⟨program, first⟩, made, found⟩ := (Option.any_eq_true _ _).mp h
  unfold started? at made
  split at made
  · next linked =>
      split at made
      · next start =>
          cases made
          dsimp only at found
          split at found
          · next middle reached =>
              obtain ⟨⟨acts, last⟩, course, holds⟩ := (Option.any_eq_true _ _).mp found
              exact ⟨program, first, middle, last, acts, linked, start, reached,
                .of_course? course, Machine.undisturbed_of_course? course, holds⟩
          · cases found
      · cases made
  · cases made

/-- The initializer is entered by the first load of its class, and returns to it. The enumeration
has its constant then. -/
theorem initialized_once_initializerUnits :
    ∃ program first middle machine call between back,
      link [] true initializerUnits = .ok program ∧
      Machine.start ⟨program, {}⟩ (.ofCatalog program.catalog) (.steps 100) [] =
        .running first ∧
      Progress.advance ⟨program, {}⟩ 3 (.running first) = .running middle ∧
      Machine.Course ⟨program, {}⟩ middle middle.roster.running (call :: between ++ [back])
        machine machine.roster.running ∧
      call.Encloses between back ∧
      (∃ log entry load slot, Moment.Leads ⟨program, {}⟩ ⟨first, false⟩ log ⟨machine, false⟩ ∧
        log.find? (·.loads? program = some ⟨0⟩) = some entry ∧
        log.filter (·.initializes? = some ⟨0⟩) = [entry] ∧
        log.find? (·.loads? program = some ⟨2⟩) = some load ∧
        load.storeAfter.static ⟨2⟩ slot = .int 3) ∧
      machine.Pushes ⟨program, {}⟩ machine.roster.running call.instruction ⟨0⟩
        call.before.registers machine.roster.running.stack.slots.toList := by
  have happens : actsSatisfying initializerUnits 3 11 (fun program acts =>
      decide ((Step.initializerOf program ⟨0⟩).isSome ∧
          (program.catalog.get ⟨2⟩).enumValues.map (·.2) = [3] ∧
          acts.head?.bind (fun call => call.instruction.loads? program call.before) = some ⟨0⟩ ∧
          ∃ act ∈ acts, act.instruction.loads? program act.before = some ⟨2⟩) &&
        Machine.overwritesWithin acts) = true := by
    decide +kernel
  obtain ⟨program, first, middle, machine, acts, linked, start, reached, course, undisturbed,
    holds⟩ := exists_of_actsSatisfying happens
  obtain ⟨named, overwrites⟩ := Bool.and_eq_true_iff.mp holds
  obtain ⟨own, constants, loads, other, among, loads'⟩ := of_decide_eq_true named
  obtain ⟨call, between, back, returner, rfl, encloses, returns, high, above, -⟩ :=
    Machine.of_overwritesWithin overwrites
  have loads : call.instruction.loads? program call.before = some ⟨0⟩ := loads
  obtain ⟨more, goesOn, recorded, -⟩ := course.exists_advance
  have leads := (Progress.leads_of_advance reached).trans (Progress.leads_of_advance goesOn)
  generalize Progress.history ⟨program, {}⟩ 3 (.running first) = earlier at leads
  generalize Progress.history ⟨program, {}⟩ more (.running middle) = log at leads recorded
  -- Each load of the course is recorded, so there is a first one of its class.
  have first_load {act : Act} (member : act ∈ call :: between ++ [back]) {id : ClassId}
      (loads : act.instruction.loads? program act.before = some id) :
      ∃ load, (earlier ++ log).find? (·.loads? program = some id) = some load := by
    obtain ⟨happening, found, same⟩ := recorded act member
    refine Option.isSome_iff_exists.mp (List.find?_isSome.mpr ⟨happening, ?_, ?_⟩)
    · exact List.mem_append_right _ found
    · exact decide_eq_true (same.trans loads)
  obtain ⟨entry, enters⟩ := first_load List.mem_cons_self loads
  obtain ⟨load, stores⟩ := first_load among loads'
  obtain ⟨⟨name, _⟩, constant, rfl⟩ := List.mem_map.mp (constants ▸ List.mem_singleton_self _)
  obtain ⟨once, again⟩ := initialized_once linked start
  have few : (program.catalog.get ⟨2⟩).enumValues.length < UInt32.size := by
    have one := congrArg List.length constants
    rw [List.length_map] at one
    rw [one]
    decide
  obtain ⟨slot, -, stored⟩ := (once _ _ ⟨2⟩ leads).2 load stores few name _ constant
  obtain ⟨id, zeros, same, -, -, stack, pushes, -⟩ := again 3 middle machine _ _ returner call back
    between .void reached course (Step.opcode_of_loads? loads) encloses returns high above
  obtain rfl := Option.some.inj (loads.symm.trans same)
  rw [(Stack.undisturbed_concat.mp undisturbed).2, List.self_eq_append_right,
    List.replicate_eq_nil_iff] at stack
  refine ⟨program, first, middle, machine, call, between, back, linked, start, reached, course,
    encloses, ⟨_, entry, load, slot, leads, enters, ?_, stores, stored⟩, pushes (.inl stack)⟩
  rw [(once _ _ ⟨0⟩ leads).1, if_pos own, enters]
  rfl

/-- A thread can find other values under the class that it has loaded than before, although its
stack has never been lower. -/
theorem initializer_overwrites_stack :
    ¬ ∀ (facades : List Facade) (optimize : Bool) (units : List LoadedUnit) (program : Program)
      (limits : Limits) (source : TickSource) (args : List String) (count : Nat)
      (first middle machine : Machine) (origin thread : Thread) (call back again : Act)
      (between : List Act) (id : ClassId),
      link facades optimize units = .ok program →
      Machine.start ⟨program, limits⟩ (.ofCatalog program.catalog) source args =
        .running first →
      Progress.advance ⟨program, limits⟩ count (.running first) = .running middle →
      Machine.Course ⟨program, limits⟩ middle origin (call :: between ++ [back] ++ [again]) machine
        thread →
      call.instruction.loads? program call.before = some id → call.Encloses between back →
      (back.before.returned? back.instruction).isSome →
      call.after.dp < call.after.stack.depth → (∀ act ∈ between, act.Above call.after.dp) →
      again.instruction = call.instruction →
      again.after.stack.slots.toList = call.before.stack.slots.toList ++ [.classRef id] := by
  intro keeps
  have happens : actsSatisfying initializerUnits 3 12 (fun program acts =>
      Machine.overwritesWithin acts.dropLast && acts.getLast?.any fun again =>
        acts.dropLast.head?.any fun call =>
          decide (call.instruction.loads? program call.before = some ⟨0⟩ ∧
            again.instruction = call.instruction ∧
            again.after.stack.slots.toList ≠
              call.before.stack.slots.toList ++ [.classRef ⟨0⟩])) = true := by
    decide +kernel
  obtain ⟨program, first, middle, machine, acts, linked, start, reached, course, -, holds⟩ :=
    exists_of_actsSatisfying happens
  obtain ⟨overwrites, holds⟩ := Bool.and_eq_true_iff.mp holds
  obtain ⟨again, ends, holds⟩ := (Option.any_eq_true _ _).mp holds
  obtain ⟨call, between, back, returner, all, encloses, returns, high, above, -⟩ :=
    Machine.of_overwritesWithin overwrites
  rw [all] at holds
  obtain ⟨loads, same, changes⟩ := of_decide_eq_true holds
  rw [← List.dropLast_append_getLast? again ends, all] at course
  exact changes (keeps [] true _ program {} _ _ 3 first middle machine _ _ call back again between
    ⟨0⟩ linked start reached course loads encloses (by rw [returns]; rfl) high above same)

end Program

end ObjectMachine
