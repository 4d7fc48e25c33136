import ObjectMachine.Proofs.Machine.Courses

/-!
# Where a throw goes

A throw leaves the constructs that are in their finally bodies already and goes to the innermost
one that is not. The thread is then back in the activation that has entered that construct: with
the calls, the data pointer, the module and the frame that were current when the instruction that
entered it was executed, however many frames the thread has entered and left in the meantime.
-/

namespace ObjectMachine

theorem Stack.truncate_truncate (stack : Stack) (height : Nat) :
    (stack.truncate height).truncate height = stack.truncate height := by
  refine congrArg (fun slots => Stack.mk slots stack.limit) ?_
  refine Array.ext_getElem? fun place => ?_
  change ((stack.slots.shrink height).shrink height)[place]? = _
  rw [getElem?_shrink, getElem?_shrink]
  split <;> rfl

/-! ## Throwing -/

namespace Thread

def backIn (thread origin : Thread) (height : Nat) : Thread :=
  { thread with
    calls := origin.calls
    dp := origin.dp
    moduleId := origin.moduleId
    frame := origin.frame
    stack := thread.stack.truncate height }

/-- What a throw comes to in a thread that is back in the frame of the construct that takes it. -/
def lands (record : TryRecord) (outer : List TryRecord) (exception : Value) (world : World)
    (back : Thread) : EStateM.Result Fault Scene Unit :=
  match record.phase, record.onCatch with
  | .inTry, some onCatch =>
    let caught := { back with handlers := { record with phase := .inCatch exception } :: outer }
    match Stack.push exception back.stack with
    | .ok _ stack => .ok () ⟨{ caught with stack, ip := onCatch }, world⟩
    | .error fault _ => .error fault ⟨caught, world⟩
  | _, _ =>
    .ok () ⟨{ back with
      handlers := { record with phase := .inFinally (.rethrow exception) } :: outer
      ip := record.onFinally }, world⟩

/-- A construct that takes a throw can only fail to have room for the exception. -/
theorem lands_fault {record : TryRecord} {outer : List TryRecord} {exception : Value}
    {world : World} {back : Thread} {fault : Fault} {after : Scene}
    (h : lands record outer exception world back = .error fault after) :
    fault = .stackOverflow ∧ back.stack.limit ≤ back.stack.depth := by
  unfold lands Stack.push at h
  split at h
  · dsimp only at h
    by_cases full : back.stack.limit ≤ back.stack.slots.size
    · rw [if_pos full] at h
      cases h
      exact ⟨rfl, full⟩
    · rw [if_neg full] at h
      cases h
  · cases h

end Thread

theorem TryRecord.isInFinally_eq (record : TryRecord) :
    record.phase.isInFinally = !record.intercepts := by
  unfold TryPhase.isInFinally intercepts
  cases record.phase <;> rfl

namespace Step

variable {setup : Setup} {scene : Scene} {exception : Value}

theorem raise_uncaught (done : ∀ record ∈ scene.thread.handlers, record.phase.isInFinally) :
    raise exception setup scene =
      .error (.uncaughtException (setup.program.describe scene.world.store.heap exception))
        { scene with thread := { scene.thread with handlers := [] } } := by
  have none : scene.thread.handlers.dropWhile (·.phase.isInFinally) = [] :=
    List.dropWhile_eq_nil_iff.mpr done
  unfold raise
  rw [onThread_bind, ofThread_bind]
  dsimp only
  rw [none]
  rfl

theorem push_enter (thread : Thread) (world : World) (ip : Nat) :
    (do push exception; onThread fun thread => { thread with ip } : Step Unit) setup
        ⟨thread, world⟩ =
      match Stack.push exception thread.stack with
      | .ok _ stack => .ok () ⟨{ thread with stack, ip }, world⟩
      | .error fault _ => .error fault ⟨thread, world⟩ := by
  change EStateM.bind (push exception setup)
    (fun _ => onThread (fun thread => { thread with ip }) setup) ⟨thread, world⟩ = _
  unfold EStateM.bind push onStack Stack.push
  dsimp only
  by_cases full : thread.stack.limit ≤ thread.stack.slots.size
  · simp only [if_pos full]
  · simp only [if_neg full]
    rfl

theorem raise_lands {record : TryRecord} {outer : List TryRecord}
    (found : scene.thread.handlers.dropWhile (·.phase.isInFinally) = record :: outer) :
    raise exception setup scene =
      (scene.thread.rewind record).lands record outer exception scene.world := by
  unfold raise
  rw [onThread_bind, ofThread_bind]
  dsimp only
  rw [found]
  have passes : onThread (·.enterFinally (.rethrow exception)) setup
      { scene with thread := { scene.thread with handlers := record :: outer }.rewind record } =
      .ok () ⟨{ scene.thread.rewind record with
        handlers := { record with phase := .inFinally (.rethrow exception) } :: outer
        ip := record.onFinally }, scene.world⟩ := by
    change EStateM.Result.ok () (Scene.mk { scene.thread.rewind record with
      handlers := { record with phase := .inFinally (.rethrow exception) } :: outer
      ip := record.onFinally
      stack := (scene.thread.stack.truncate record.stackDepth).truncate record.stackDepth } _) = _
    rw [Stack.truncate_truncate]
    rfl
  obtain ⟨start, onCatch, onFinally, phase, moduleId, callDepth, dp, stackDepth⟩ := record
  cases phase with
  | inTry =>
      cases onCatch with
      | none => exact passes
      | some onCatch => exact push_enter _ scene.world onCatch
  | inCatch => exact passes
  | inFinally => exact passes

theorem exists_construct {next : Scene} {instruction : Instruction} {signal : Signal}
    (h : execute instruction setup scene = .ok signal next) {record : TryRecord}
    (member : record ∈ next.thread.handlers) :
    record = scene.thread.entered instruction ∨
      ∃ old ∈ scene.thread.handlers, record.stackDepth = old.stackDepth := by
  by_cases enters : instruction.opcode = .enterTry
  · have handlers := handlers_of_enterTry h enters
    change next.thread.handlers = _ at handlers
    rw [handlers] at member
    rcases List.mem_cons.mp member with rfl | member
    · exact .inl rfl
    · exact .inr ⟨record, member, rfl⟩
  · exact .inr ((execute_reshapes h enters).exists_mem member)

end Step

/-! ## The bounds of the stack -/

/-- Whether a thread keeps its stack to a limit, and will after every throw. -/
structure Thread.Bounded (bound : Nat) (thread : Thread) : Prop where
  limit : thread.stack.limit = bound
  depth : thread.stack.depth ≤ bound
  records : ∀ record ∈ thread.handlers, record.stackDepth ≤ bound

namespace Machine

variable {setup : Setup}

theorem Proceeds.bounded {machine : Machine} {thread next : Thread} {act : Option Act}
    (h : machine.Proceeds setup thread act next) (bounded : thread.Bounded setup.limits.stack) :
    next.Bounded setup.limits.stack := by
  have fits := h.fits
  have room := bounded.limit ▸ fits.room (bounded.limit ▸ bounded.depth)
  refine ⟨fits.limit.trans bounded.limit, room, fun record member => ?_⟩
  cases h with
  | rests rests =>
      have same : next.handlers = thread.handlers := congrArg Registers.handlers rests.registers
      exact bounded.records record (same ▸ member)
  | @acts instruction scene result signal _ executes _ behind answered =>
      have same : next.handlers = result.thread.handlers :=
        congrArg Registers.handlers answered.registers
      have handlers : scene.thread.handlers = thread.handlers := by rw [behind.eq]
      rcases Step.exists_construct executes.execute (same ▸ member) with rfl | ⟨old, found, depth⟩
      · change scene.thread.stack.depth ≤ _
        rw [behind.stack]
        exact bounded.depth
      · rw [depth]
        exact bounded.records old (handlers ▸ found)

theorem Reachable.bounded {machine : Machine} (reachable : Reachable setup machine) :
    ∀ thread ∈ machine.roster.threads, thread.Bounded setup.limits.stack := by
  refine reachable.threads (fun {value stack} pushed => ?_) fun _ _ bounded proceeds =>
    proceeds.bounded bounded
  obtain ⟨room, rfl⟩ := Stack.push_eq_ok pushed
  exact ⟨rfl, (Stack.Regrown.of_push value room).room (Nat.zero_le _), nofun⟩

/-! ## The instruction that has entered a construct -/

/-- Whether an act has entered the construct with `depth` others around it, which a thread still has
since then. -/
def Entered (setup : Setup) (depth : Nat) (entry : Act) (machine : Machine) (thread : Thread) :
    Prop :=
  ∃ first start later, Reachable setup first ∧
    Course setup first start (entry :: later) machine thread ∧
    entry.instruction.opcode = .enterTry ∧ entry.before.handlers.length = depth ∧
    ∀ act ∈ later, depth < act.after.handlers.length

variable {machine : Machine} {thread : Thread} {depth : Nat}

theorem Reachable.exists_entered (reachable : Reachable setup machine)
    (member : thread ∈ machine.roster.threads) (inside : depth < thread.handlers.length) :
    ∃ entry, Entered setup depth entry machine thread := by
  induction reachable generalizing thread with
  | start h =>
      unfold Machine.start at h
      dsimp only at h
      split at h
      · cases h
        obtain rfl : thread = _ := by simpa [Roster.threads, Roster.start] using member
        cases inside
      · cases h
  | @step machine next before step _ ih =>
      obtain ⟨old, found, act, proceeds⟩ := exists_proceeds step member
      by_cases there : depth < old.handlers.length
      · obtain ⟨entry, first, start, later, reachable, course, enters, place, stays⟩ :=
          ih found there
        refine ⟨entry, first, start, later ++ act.toList, reachable,
          course.step step member proceeds, enters, place, fun other among => ?_⟩
        rcases List.mem_append.mp among with among | among
        · exact stays other among
        · obtain rfl : act = some other := by simpa using among
          obtain rfl := proceeds.executes.1
          exact inside
      · -- No thread had this construct before, so that the step has entered it.
        have same : old.handlers.length ≤ depth := Nat.le_of_not_lt there
        cases proceeds with
        | rests rests =>
            have handlers : thread.handlers = old.handlers :=
              congrArg Registers.handlers rests.registers
            exact absurd (handlers ▸ inside) there
        | @acts instruction scene result signal _ executes fetched behind answered =>
            have handlers : scene.thread.handlers = old.handlers := by rw [behind.eq]
            have results : thread.handlers = result.thread.handlers :=
              congrArg Registers.handlers answered.registers
            obtain ⟨enters, place⟩ :=
              Step.execute_enters executes.execute (handlers ▸ same) (results ▸ inside)
            have course := (Course.start found).step step member
              (.acts executes fetched behind answered)
            exact ⟨⟨instruction, scene.thread, thread⟩, machine, old, [], before, course, enters,
              place.symm, fun _ none => absurd none List.not_mem_nil⟩

/-- What is left of the entry of a construct as long as the construct is there: the record that was
made then, but for its phase, and the activation that was current. -/
structure Recalls (depth : Nat) (entry : Act) (thread : Thread) : Prop where
  construct : ∃ record, thread.registers.construct? depth = some record ∧
    record = { entry.before.entered entry.instruction with phase := record.phase }
  same : Registers.SameUpTo entry.before.calls.size entry.before.registers thread.registers

theorem Recalls.of_entry {entry : Act} {next : Thread}
    (proceeds : machine.Proceeds setup thread (some entry) next)
    (enters : entry.instruction.opcode = .enterTry) :
    Recalls entry.before.handlers.length entry next := by
  obtain ⟨rfl, -, signal, moves⟩ := proceeds.moves
  unfold Thread.Moves at moves
  rw [enters] at moves
  refine ⟨⟨entry.before.entered entry.instruction, ?_, rfl⟩, ?_⟩
  · rw [moves, Registers.construct?_of_cons rfl, if_pos rfl]
  · rw [moves]
    exact ⟨fun _ _ => rfl, rfl, Registers.outerTries_of_append
      [entry.before.entered entry.instruction] rfl (by simp [Thread.entered])⟩

/-- The construct is in the frame of its activation, which is therefore still there. -/
theorem Recalls.proceeds {entry : Act} {act : Option Act} {next : Thread}
    (h : Recalls depth entry thread) (step : machine.Proceeds setup thread act next)
    (before : thread.registers.Framed) (after : next.registers.Framed)
    (inside : depth < thread.handlers.length) (stays : depth < next.handlers.length) :
    Recalls depth entry next := by
  obtain ⟨⟨record, found, same⟩, recalls⟩ := h
  obtain ⟨record₀, record', found₀, found', advances⟩ := step.continues.advances inside stays
  obtain rfl : record₀ = record := Option.some.inj (found₀.symm.trans found)
  have same' : record' =
      { entry.before.entered entry.instruction with phase := record'.phase } := by
    rw [advances.eq, same]
  have own : record₀.callDepth = entry.before.calls.size := by
    rw [same]
    rfl
  have own' : record'.callDepth = entry.before.calls.size := by
    rw [same']
    rfl
  have there := before.nested.callDepth_le found
  have there' := after.nested.callDepth_le found'
  exact ⟨⟨record', found', same'⟩,
    recalls.trans (step.sameUpTo before (own ▸ there) (own' ▸ there'))⟩

theorem Entered.recalls {entry : Act} (h : Entered setup depth entry machine thread) :
    Recalls depth entry thread := by
  obtain ⟨first, start, later, reachable, whole, enters, rfl, stays⟩ := h
  obtain ⟨before, next, waiting, waits, proceeds, step, course⟩ := whole.uncons
  have reached : Reachable setup next :=
    .step (waits.reachable reachable) step fun _ => trivial
  clear whole
  suffices entry.before.handlers.length < thread.handlers.length ∧
      Recalls entry.before.handlers.length entry thread from this.2
  induction course with
  | start =>
      have recalls := Recalls.of_entry proceeds enters
      obtain ⟨record, found, -⟩ := recalls.construct
      exact ⟨Registers.lt_of_construct? found, recalls⟩
  | @step acts machine next' thread after act course step member goesOn ih =>
      obtain ⟨inside, recalls⟩ := ih fun act among => stays act (List.mem_append_left _ among)
      have left : entry.before.handlers.length < after.handlers.length := by
        cases goesOn with
        | rests rests =>
            have handlers : after.handlers = thread.handlers :=
              congrArg Registers.handlers rests.registers
            rwa [handlers]
        | acts => exact stays _ (List.mem_append_right _ (List.mem_singleton.mpr rfl))
      have here := course.reachable reached
      have there : Reachable setup next' := .step here step fun _ => trivial
      exact ⟨left, recalls.proceeds goesOn (here.framed thread course.mem)
        (there.framed after member) inside left⟩

/-- A throw that a construct takes goes back to the frame that has entered it. -/
theorem Recalls.rewind_eq {entry : Act} (h : Recalls depth entry thread)
    (framed : thread.registers.Framed) {record : TryRecord}
    (found : thread.registers.construct? depth = some record) {other : Thread}
    (calls : other.calls = thread.calls) (frame : other.frame = thread.frame) :
    other.rewind record = other.backIn entry.before record.stackDepth := by
  obtain ⟨⟨_, found', same⟩, recalls⟩ := h
  obtain rfl := Option.some.inj (found.symm.trans found')
  have own : record.callDepth = entry.before.calls.size := by
    rw [same]
    rfl
  have member : record ∈ thread.handlers := List.mem_reverse.mp (List.mem_of_getElem? found)
  have active := Thread.activation?_of_framed framed member
  have origin : thread.registers.activation? entry.before.calls.size =
      some ⟨entry.before.dp, entry.before.moduleId, entry.before.frame⟩ :=
    recalls.activation.trans entry.before.registers.activation?_here
  rw [own] at active
  obtain ⟨dp, moduleId, frames⟩ := Activation.mk.inj (Option.some.inj (active.symm.trans origin))
  have shrunk : other.calls.shrink record.callDepth = entry.before.calls := by
    refine Array.ext_getElem? fun place => ?_
    rw [getElem?_shrink, calls, own]
    split
    · next inside => exact recalls.calls place inside
    · next outside => exact (Array.getElem?_eq_none (Nat.le_of_not_lt outside)).symm
  have rewound : (other.rewind record).frame = entry.before.frame := by
    refine Eq.trans ?_ frames
    unfold Thread.rewind
    rw [calls, frame]
  unfold Thread.backIn
  rw [← rewound, ← shrunk, ← dp, ← moduleId]
  rfl

/-- Every throw goes to the right activation. It is a fault exactly if all constructs of the thread
are in their finally bodies. Otherwise it drops the innermost constructs up to the first one that is
not, leaves those around that one as they are, and takes the thread back to the activation whose
instruction has entered it, with the stack no higher than it was then. A construct in its try body
goes to its catch body with the exception on the stack, if it has one, and any other to its finally
body, which will throw again. The throw may happen after an instruction has left some of the
innermost constructs, as the end of a finally body does, and has changed position and stack. -/
theorem throw_unwinds (reachable : Reachable setup machine)
    (member : thread ∈ machine.roster.threads) {left : List TryRecord}
    (suffix : left <:+ thread.handlers) (scene : Scene) {ip : Nat}
    (registers : scene.thread.registers = { thread.registers with handlers := left, ip })
    (limit : scene.thread.stack.limit = setup.limits.stack) (exception : Value) :
    ((∃ text after, Step.raise exception setup scene = .error (.uncaughtException text) after) ↔
        ∀ record ∈ left, record.phase.isInFinally) ∧
      ∀ {inner outer : List TryRecord} {record : TryRecord}, left = inner ++ record :: outer →
        (∀ passed ∈ inner, passed.phase.isInFinally) → record.intercepts →
        (∃ entry, Entered setup outer.length entry machine thread) ∧
        ∀ {entry : Act}, Entered setup outer.length entry machine thread →
          record = { entry.before.entered entry.instruction with phase := record.phase } ∧
          Step.raise exception setup scene =
            (scene.thread.backIn entry.before record.stackDepth).lands record outer exception
              scene.world ∧
          ∀ {fault : Fault} {after : Scene},
            Step.raise exception setup scene = .error fault after →
            fault = .stackOverflow ∧ record.stackDepth = setup.limits.stack := by
  have handlers : scene.thread.handlers = left := congrArg Registers.handlers registers
  have calls : scene.thread.calls = thread.calls := congrArg Registers.calls registers
  have frame : scene.thread.frame = thread.frame := congrArg Registers.frame registers
  refine ⟨⟨?_, fun done => ?_⟩, fun {inner outer record} split passed intercepts => ?_⟩
  · rintro ⟨text, after, failed⟩
    cases found : scene.thread.handlers.dropWhile (·.phase.isInFinally) with
    | nil => exact handlers ▸ List.dropWhile_eq_nil_iff.mp found
    | cons record outer =>
        rw [Step.raise_lands found] at failed
        cases (Thread.lands_fault failed).1
  · exact ⟨_, _, Step.raise_uncaught (handlers ▸ done)⟩
  · have suffix' : record :: outer <:+ thread.handlers :=
      (List.suffix_append inner (record :: outer)).trans (split ▸ suffix)
    have place : outer.length < (record :: outer).length := Nat.lt_succ_self _
    have found : thread.registers.construct? outer.length = some record := by
      have here : Registers.construct? { thread.registers with handlers := record :: outer }
          outer.length = thread.registers.construct? outer.length :=
        Registers.construct?_of_suffix suffix' place
      rw [← here, Registers.construct?_of_cons rfl, if_pos rfl]
    have inside := Registers.lt_of_construct? found
    refine ⟨reachable.exists_entered member inside, fun {entry} entered => ?_⟩
    have recalls := entered.recalls
    have framed := reachable.framed thread member
    have bounded := reachable.bounded thread member
    have dropped : scene.thread.handlers.dropWhile (·.phase.isInFinally) = record :: outer := by
      rw [handlers, split, List.dropWhile_append_of_pos passed]
      exact List.dropWhile_cons_of_neg (by simp [record.isInFinally_eq, intercepts])
    obtain ⟨_, found', same⟩ := recalls.construct
    obtain rfl := Option.some.inj (found.symm.trans found')
    have lands : Step.raise exception setup scene =
        (scene.thread.backIn entry.before record.stackDepth).lands record outer exception
          scene.world := by
      rw [Step.raise_lands dropped, recalls.rewind_eq framed found calls frame]
    refine ⟨same, lands, fun {fault after} failed => ?_⟩
    obtain ⟨overflow, full⟩ := Thread.lands_fault (lands.symm.trans failed)
    have among : record ∈ thread.handlers := suffix'.subset List.mem_cons_self
    have reaches : setup.limits.stack ≤
        min record.stackDepth scene.thread.stack.slots.size := by
      simpa [Thread.backIn, Stack.truncate, Stack.depth, limit] using full
    exact ⟨overflow, Nat.le_antisymm (bounded.records record among)
      (reaches.trans (Nat.min_le_left _ _))⟩

end Machine

def Setup.ofMethods? (code : Bytes) (methods : List MethodHeader) (calls : List MethodRef) :
    Option Setup :=
  let view : Metadata := {
    moduleName := "app"
    uses := #[]
    classes := #[{
      name := "Main"
      parent := none
      kind := .plain
      staticFieldCount := 0
      instanceFieldCount := 0
      fields := #[]
      methods := (methods.map (⟨·, #[]⟩)).toArray }]
    enums := #[]
    strings := []
    classRefs := []
    fieldAccesses := []
    methodCalls := calls }
  (Program.link [] false [⟨code, view⟩]).toOption.map fun program => ⟨program, {}⟩

namespace Machine

/-- A method that catches what another one throws, which it has called with a value of its own
caller as the receiver. The other one has written to its receiver before. -/
def catchesThrow : Setup :=
  (Setup.ofMethods? [
    0x13, 0,     -- loadlocal, the main class
    0x13, 0,     -- loadlocal
    0x25, 1,     -- call, of the method without arguments
    0x32,        -- retval
    0x70, 6, 8,  -- entertry, in that method
    0x25, 2,     -- call, of the method with an argument, which is the receiver
    0x73,        -- leavetry
    0x01,        -- pop, in the catch body
    0x74,        -- leavecatch
    0x75,        -- leavefinally
    0x31,        -- ret
    0x07, 5,     -- pushbyte, in the method with an argument
    0x16, 0,     -- storelocal
    0x07, 1,     -- pushbyte
    0x76]        -- throw
    [⟨"main", 1, 0, true, 0, 0, true⟩, ⟨"catches", 2, 7, false, 0, 0, true⟩,
      ⟨"throws", 3, 17, false, 1, 0, true⟩]
    [⟨"catches", 0⟩, ⟨"throws", 1⟩]).get (by decide +kernel)

/-- Whether a thread is in a method that it has called in the one try construct that it is in. -/
def calledInTry (thread : Thread) : Bool :=
  match thread.handlers with
  | [record] => record.intercepts && decide (record.callDepth < thread.calls.size)
  | _ => false

/-- The throw of the innermost method goes to the one that has called it. -/
theorem throw_unwinds_catchesThrow :
    ∃ machine thread record entry, Reachable catchesThrow machine ∧
      thread ∈ machine.roster.threads ∧ thread.handlers = [record] ∧
      Entered catchesThrow 0 entry machine thread ∧
      entry.before.calls.size < thread.calls.size ∧
      Step.raise (.int 1) catchesThrow ⟨thread, machine.world⟩ =
        (thread.backIn entry.before record.stackDepth).lands record [] (.int 1) machine.world := by
  have reaches : reachesSatisfying catchesThrow 10 (fun machine =>
      machine.roster.threads.any fun thread =>
        decide (thread.stack.limit = catchesThrow.limits.stack) && calledInTry thread) = true := by
    decide +kernel
  obtain ⟨machine, reachable, found⟩ := exists_of_reachesSatisfying reaches
  obtain ⟨thread, member, holds⟩ := List.any_eq_true.mp found
  obtain ⟨limit, called⟩ := Bool.and_eq_true_iff.mp holds
  unfold calledInTry at called
  split at called
  · next record handlers =>
      obtain ⟨intercepts, below⟩ := Bool.and_eq_true_iff.mp called
      have split : thread.handlers = [] ++ record :: [] := handlers
      obtain ⟨⟨entry, entered⟩, unwinds⟩ :=
        (throw_unwinds reachable member (List.suffix_refl _) ⟨thread, machine.world⟩ rfl
          (of_decide_eq_true limit) (.int 1)).2 split
          (fun _ none => absurd none List.not_mem_nil) intercepts
      obtain ⟨same, raises, -⟩ := unwinds entered
      have own : record.callDepth = entry.before.calls.size := by
        rw [same]
        rfl
      exact ⟨machine, thread, record, entry, reachable, member, handlers, entered,
        own ▸ of_decide_eq_true below, raises⟩
  · cases called

end Machine

end ObjectMachine
