import ObjectMachine.Proofs.Machine.Branches

/-!
# The life of a try construct

A construct is entered in its try body. From there it goes to its catch body at most once, and to
its finally body at most once, with an exit that it keeps until it is left. The finally body is
entered from six places in the code of the instructions, each of which turns the innermost construct
of a thread: what a run makes of one construct is told by its place among the constructs of its
thread, counted from the outermost one, as this place is its own from the entry to the end.
-/

namespace ObjectMachine

namespace TryRecord

def takes (record : TryRecord) : Bool :=
  record.phase = .inTry && record.onCatch.isSome

/-- What an instruction makes of a construct that it does not drop, with the exit that the finally
body is entered with, if it is, and the address that control goes to. -/
inductive Advances (record : TryRecord) : Option ExitAction → TryRecord → Nat → Prop
  | stays (ip : Nat) : Advances record none record ip
  | catches {onCatch : Nat} (exception : Value) :
      record.phase = .inTry → record.onCatch = some onCatch →
      Advances record none { record with phase := .inCatch exception } onCatch
  | turns (exit : ExitAction) : record.intercepts →
      Advances record (some exit) { record with phase := .inFinally exit } record.onFinally

/-- An instruction changes nothing of a construct but its phase. -/
theorem Advances.eq {record record' : TryRecord} {turned : Option ExitAction} {ip : Nat}
    (h : record.Advances turned record' ip) : record' = { record with phase := record'.phase } := by
  cases h <;> rfl

/-- What a construct has become since it was entered, given the exits that its finally body has
been entered with. There is one at most, and the construct keeps it. -/
def Became (entered : TryRecord) : List ExitAction → TryRecord → Prop
  | [], record => record.intercepts ∧ record = { entered with phase := record.phase }
  | [exit], record => record = { entered with phase := .inFinally exit }
  | _ :: _ :: _, _ => False

theorem Became.advances {entered record record' : TryRecord} {turns : List ExitAction}
    {turned : Option ExitAction} {ip : Nat} (h : entered.Became turns record)
    (advances : record.Advances turned record' ip) :
    entered.Became (turns ++ turned.toList) record' := by
  match turns, h with
  | [], ⟨intercepts, same⟩ =>
      cases advances with
      | stays => exact ⟨intercepts, same⟩
      | catches exception =>
          refine ⟨rfl, ?_⟩
          rw [same]
      | turns exit =>
          change { record with phase := _ } = { entered with phase := _ }
          rw [same]
  | [exit], same =>
      obtain rfl : record = { entered with phase := .inFinally exit } := same
      cases advances with
      | stays => rfl
      | catches exception tries => cases tries
      | turns exit intercepts => cases intercepts

theorem Became.eq_nil {entered record : TryRecord} {turns : List ExitAction}
    (h : entered.Became turns record) (intercepts : record.intercepts) : turns = [] := by
  match turns, h with
  | [], _ => rfl
  | [exit], same =>
      obtain rfl : record = { entered with phase := .inFinally exit } := same
      cases intercepts

theorem Became.eq_singleton {entered record : TryRecord} {turns : List ExitAction}
    (h : entered.Became turns record) {exit : ExitAction} (phase : record.phase = .inFinally exit) :
    turns = [exit] := by
  match turns, h with
  | [], ⟨intercepts, _⟩ =>
      rw [TryRecord.intercepts, phase] at intercepts
      cases intercepts
  | [_], same =>
      rw [same] at phase
      obtain rfl := TryPhase.inFinally.inj phase
      rfl

end TryRecord

namespace Registers

def construct? (registers : Registers) (depth : Nat) : Option TryRecord :=
  registers.handlers.reverse[depth]?

variable {registers after : Registers}

theorem construct?_isSome (registers : Registers) {depth : Nat}
    (inside : depth < registers.handlers.length) :
    ∃ record, registers.construct? depth = some record :=
  ⟨_, List.getElem?_eq_getElem (by rwa [List.length_reverse])⟩

theorem lt_of_construct? {depth : Nat} {record : TryRecord}
    (found : registers.construct? depth = some record) : depth < registers.handlers.length := by
  obtain ⟨inside, -⟩ := List.getElem?_eq_some_iff.mp found
  rwa [List.length_reverse] at inside

theorem Nested.callDepth_le (h : registers.Nested) {depth : Nat} {record : TryRecord}
    (found : registers.construct? depth = some record) :
    record.callDepth ≤ registers.calls.size :=
  h.depth record (List.mem_reverse.mp (List.mem_of_getElem? found))

theorem construct?_of_suffix (suffix : after.handlers <:+ registers.handlers) {depth : Nat}
    (inside : depth < after.handlers.length) :
    after.construct? depth = registers.construct? depth := by
  obtain ⟨left, all⟩ := suffix
  unfold construct?
  rw [← all, List.reverse_append, List.getElem?_append_left (by rwa [List.length_reverse])]

theorem construct?_of_cons {record : TryRecord} {outer : List TryRecord}
    (found : registers.handlers = record :: outer) (depth : Nat) :
    registers.construct? depth =
      if depth = outer.length then some record else outer.reverse[depth]? := by
  unfold construct?
  rw [found, List.reverse_cons, List.getElem?_append, List.length_reverse]
  split_ifs with inside last last
  · omega
  · rfl
  · simp [last]
  · rw [List.getElem?_eq_none (by simp; omega), List.getElem?_eq_none (by simp; omega)]

theorem eq_cons_of_construct? {record : TryRecord} {depth : Nat}
    (found : registers.construct? depth = some record)
    (innermost : registers.handlers.length = depth + 1) :
    ∃ outer, registers.handlers = record :: outer := by
  obtain ⟨first, outer, here⟩ := List.exists_cons_of_length_eq_add_one innermost
  have last : depth = outer.length := by
    rw [here] at innermost
    exact (Nat.succ.inj innermost).symm
  rw [construct?_of_cons here, if_pos last] at found
  exact ⟨outer, Option.some.inj found ▸ here⟩

theorem construct?_of_innermost (registers : Registers) {record record' : TryRecord}
    {outer : List TryRecord} (suffix : record :: outer <:+ registers.handlers)
    (found : after.handlers = record' :: outer) {depth : Nat}
    (inside : depth < after.handlers.length) :
    (depth = outer.length ∧ registers.construct? depth = some record ∧
        after.construct? depth = some record') ∨
      (depth ≠ outer.length ∧ after.construct? depth = registers.construct? depth) := by
  have length : depth < (record :: outer).length := by rwa [found] at inside
  have before : Registers.construct? { registers with handlers := record :: outer } depth =
      registers.construct? depth := construct?_of_suffix suffix length
  rw [← before, construct?_of_cons rfl, construct?_of_cons found]
  by_cases last : depth = outer.length
  · simp [last]
  · simp [last]

end Registers

namespace Thread

variable {thread : Thread}

/-! ## Entering a finally body -/

/-- The thread whose innermost construct a branch turns to its finally body, with the exit. -/
def turningBranch? (target : Nat) (thread : Thread) : Option (Thread × ExitAction) :=
  (thread.interceptor?.filter fun record => !record.covers target).map fun _ =>
    (thread, .branch target)

def turningReturn? (form : ReturnForm) (thread : Thread) : Option (Thread × ExitAction) :=
  thread.interceptor?.map fun _ => (thread, form.exit)

def turningThrow? (exception : Value) (thread : Thread) : Option (Thread × ExitAction) :=
  match thread.handlers.dropWhile (·.phase.isInFinally) with
  | [] => none
  | record :: outer =>
    if record.takes then none
    else some ({ thread.rewind record with handlers := record :: outer }, .rethrow exception)

/-- The thread whose innermost construct is turned to its finally body by what was put off until
the end of another one, with the exit. -/
def turningExit? (exit : ExitAction) (thread : Thread) : Option (Thread × ExitAction) :=
  match exit with
  | .fallThrough => none
  | .ret => thread.turningReturn? .void
  | .retValue value => thread.turningReturn? (.value value)
  | .retConstructor => thread.turningReturn? .constructor
  | .branch target => thread.turningBranch? target
  | .rethrow exception => thread.turningThrow? exception

/-- The thread whose innermost construct an instruction turns to its finally body, with the exit.
It is the thread that executes the instruction, without the constructs and calls that the
instruction leaves before. -/
def turning? (instruction : Instruction) (thread : Thread) : Option (Thread × ExitAction) :=
  match instruction.opcode, thread.currentTry?.map (·.phase) with
  | .ret, _ => thread.turningReturn? .void
  | .retVal, _ => thread.stack.slots.back?.bind fun value => thread.turningReturn? (.value value)
  | .retCtor, _ => thread.turningReturn? .constructor
  | .leaveTry, _ | .leaveCatch, _ => thread.interceptor?.map fun _ => (thread, .fallThrough)
  | .leaveFinally, some (TryPhase.inFinally exit) =>
    turningExit? exit { thread with handlers := thread.handlers.tail }
  | .raise, _ => thread.stack.slots.back?.bind fun exception => thread.turningThrow? exception
  | .reraise, some (TryPhase.inCatch exception) =>
    thread.currentTry?.map fun record => (thread.rewind record, .rethrow exception)
  | _, _ => (thread.branch? instruction).bind fun target => thread.turningBranch? target

/-- What becomes of the constructs of a thread by what enters none: some of the innermost ones are
left, and the innermost one of the others may be turned to its catch or its finally body. -/
inductive Reshapes (thread : Thread) : Option (Thread × ExitAction) → Registers → Prop
  | keeps {after : Registers} : after.handlers <:+ thread.handlers → Reshapes thread none after
  | catches {record : TryRecord} {outer : List TryRecord} {exception : Value} {after : Registers} :
      record :: outer <:+ thread.handlers → record.phase = .inTry → record.onCatch = some after.ip →
      after.handlers = { record with phase := .inCatch exception } :: outer →
      Reshapes thread none after
  | turns {turning : Thread} {exit : ExitAction} {record : TryRecord} {outer : List TryRecord} :
      turning.handlers = record :: outer → record :: outer <:+ thread.handlers →
      record.intercepts →
      Reshapes thread (some (turning, exit)) (turning.enterFinally exit).registers

def exitAt (depth : Nat) (turned : Option (Thread × ExitAction)) : Option ExitAction :=
  turned.bind fun (turning, exit) => if turning.handlers.length = depth + 1 then some exit else none

namespace Reshapes

variable {turned : Option (Thread × ExitAction)} {after : Registers}

theorem of_suffix {other : Thread} (h : other.Reshapes turned after)
    (suffix : other.handlers <:+ thread.handlers) : thread.Reshapes turned after := by
  cases h with
  | keeps left => exact .keeps (left.trans suffix)
  | catches left tries catches found => exact .catches (left.trans suffix) tries catches found
  | turns found left intercepts => exact .turns found (left.trans suffix) intercepts

theorem exists_mem (h : thread.Reshapes turned after) {record : TryRecord}
    (member : record ∈ after.handlers) :
    ∃ old ∈ thread.handlers, record.stackDepth = old.stackDepth := by
  cases h with
  | keeps left => exact ⟨record, left.subset member, rfl⟩
  | catches left _ _ found =>
      rw [found] at member
      rcases List.mem_cons.mp member with rfl | member
      · exact ⟨_, left.subset List.mem_cons_self, rfl⟩
      · exact ⟨record, left.subset (List.mem_cons_of_mem _ member), rfl⟩
  | @turns turning exit record outer here left =>
      have found : (turning.enterFinally exit).registers.handlers =
          { record with phase := .inFinally exit } :: outer := by
        simp only [enterFinally, here, registers]
      rw [found] at member
      rcases List.mem_cons.mp member with rfl | member
      · exact ⟨_, left.subset List.mem_cons_self, rfl⟩
      · exact ⟨_, left.subset (List.mem_cons_of_mem _ member), rfl⟩

theorem advances (h : thread.Reshapes turned after) {depth : Nat}
    (inside : depth < after.handlers.length) :
    ∃ record record', thread.registers.construct? depth = some record ∧
      after.construct? depth = some record' ∧
      record.Advances (exitAt depth turned) record' after.ip := by
  have stays (same : after.construct? depth = thread.registers.construct? depth) :
      ∃ record record', thread.registers.construct? depth = some record ∧
        after.construct? depth = some record' ∧ record.Advances none record' after.ip := by
    obtain ⟨record, found⟩ := Registers.construct?_isSome _ inside
    exact ⟨record, record, same ▸ found, found, .stays _⟩
  cases h with
  | keeps left => exact stays (Registers.construct?_of_suffix left inside)
  | @catches record outer exception _ left tries catches found =>
      rcases Registers.construct?_of_innermost thread.registers left found inside with
        ⟨-, before, after⟩ | ⟨-, same⟩
      · exact ⟨record, _, before, after, .catches exception tries catches⟩
      · exact stays same
  | @turns turning exit record outer here left intercepts =>
      have found : (turning.enterFinally exit).registers.handlers =
          { record with phase := .inFinally exit } :: outer := by
        simp only [enterFinally, here, registers]
      have place : exitAt depth (some (turning, exit)) =
          if outer.length = depth then some exit else none := by
        simp [exitAt, here]
      have lands : (turning.enterFinally exit).registers.ip = record.onFinally := by
        simp only [enterFinally, here, registers]
      rw [place]
      rcases Registers.construct?_of_innermost thread.registers left found inside with
        ⟨last, before, after⟩ | ⟨inner, same⟩
      · rw [if_pos last.symm, lands]
        exact ⟨record, _, before, after, .turns exit intercepts⟩
      · rw [if_neg (Ne.symm inner)]
        exact stays same

end Reshapes

theorem Reshapes.of_interceptor {record : TryRecord} (within : thread.interceptor? = some record)
    (exit : ExitAction) :
    thread.Reshapes (some (thread, exit)) (thread.enterFinally exit).registers := by
  obtain ⟨outer, found, -, intercepts⟩ := interceptor?_eq_some.mp within
  exact .turns found (found ▸ List.suffix_rfl) intercepts

theorem reshapes_branchTo (target : Nat) :
    thread.Reshapes (thread.turningBranch? target) (thread.branchTo target).registers := by
  unfold branchTo turningBranch?
  cases within : thread.interceptor? with
  | none => exact .keeps List.suffix_rfl
  | some record =>
      dsimp only
      cases covers : record.covers target with
      | true =>
          simp only [Option.filter_some, covers]
          exact .keeps List.suffix_rfl
      | false =>
          simp only [Option.filter_some, covers]
          exact .of_interceptor within _

theorem Returns.reshapes {form : ReturnForm} {after : Registers} {signal : Signal}
    (hr : thread.Returns form after signal) :
    thread.Reshapes (thread.turningReturn? form) after := by
  unfold turningReturn?
  cases hr with
  | deferred intercepted =>
      obtain ⟨record, within⟩ := Option.isSome_iff_exists.mp intercepted
      rw [within]
      exact .of_interceptor within _
  | left free bottom =>
      rw [free]
      exact .keeps List.suffix_rfl
  | popped free top =>
      rw [free]
      exact .keeps (List.dropWhile_suffix _)

/-- The construct that a throw comes to is in its try or catch body. -/
theorem intercepts_of_dropWhile {record : TryRecord} {outer : List TryRecord}
    (found : thread.handlers.dropWhile (·.phase.isInFinally) = record :: outer) :
    record.intercepts := by
  have first : record.phase.isInFinally = false := by
    have := List.head?_dropWhile_not (fun record : TryRecord => record.phase.isInFinally)
      thread.handlers
    rw [found] at this
    simpa using this
  unfold TryRecord.intercepts
  unfold TryPhase.isInFinally at first
  split <;> simp_all

theorem Raises.reshapes {exception : Value} {after : Registers}
    (hr : thread.Raises exception after) :
    thread.Reshapes (thread.turningThrow? exception) after := by
  unfold turningThrow?
  cases hr with
  | @caught record outer onCatch found tries there =>
      have takes : record.takes = true := by simp [TryRecord.takes, tries, there]
      rw [found]
      dsimp only
      rw [if_pos takes]
      exact .catches (found ▸ List.dropWhile_suffix _) tries there rfl
  | @passed record outer found only =>
      have passes : ¬record.takes = true := by
        simp only [TryRecord.takes, Bool.and_eq_true, decide_eq_true_eq, not_and]
        intro tries
        simp [only tries]
      rw [found]
      dsimp only
      rw [if_neg passes]
      exact .turns rfl (found ▸ List.dropWhile_suffix _) (intercepts_of_dropWhile found)

theorem Enters.handlers {setup : Setup} {returnIp : Nat} {after : Registers}
    (he : thread.Enters setup returnIp after) : after.handlers = thread.handlers := by
  cases he
  rfl

theorem CarriesOut.reshapes {exit : ExitAction} {after : Registers} {signal : Signal}
    (hc : thread.CarriesOut exit after signal) :
    thread.Reshapes (thread.turningExit? exit) after := by
  cases exit with
  | fallThrough =>
      obtain ⟨rfl, -⟩ := hc
      exact .keeps List.suffix_rfl
  | ret | retValue | retConstructor => exact Returns.reshapes hc
  | branch target =>
      obtain ⟨rfl, -⟩ := hc
      exact reshapes_branchTo target
  | rethrow exception => exact Raises.reshapes hc.1

theorem reshapes_branched (target : Option Nat) :
    thread.Reshapes (target.bind fun target => thread.turningBranch? target)
      (thread.branched target).registers := by
  cases target with
  | none => exact .keeps List.suffix_rfl
  | some target => exact reshapes_branchTo target

end Thread

/-! ## Each instruction -/

namespace Step

variable {setup : Setup} {scene next : Scene}

/-- What becomes of the constructs of a thread by an instruction other than the entry of one. -/
theorem execute_reshapes {instruction : Instruction} {signal : Signal}
    (h : execute instruction setup scene = .ok signal next)
    (other : instruction.opcode ≠ .enterTry) :
    scene.thread.Reshapes (scene.thread.turning? instruction) next.thread.registers := by
  have moves := (execute_moves h).2
  unfold Thread.Moves at moves
  unfold Thread.turning?
  cases hop : instruction.opcode with
  | jmp | jt | jf | jce | jcne | jcl | jcle | jcg | jcge | caseOf =>
      rw [hop] at moves
      rw [moves]
      exact Thread.reshapes_branched _
  | ret | retCtor =>
      rw [hop] at moves
      exact Thread.Returns.reshapes moves
  | retVal =>
      unfold execute at h
      rw [hop] at h
      obtain ⟨value, _, hp, h⟩ := bind_eq_ok_iff.mp h
      obtain ⟨found, top, -⟩ := pop_eq_ok hp
      rw [top]
      exact ((returnFrom_returns h).2.congr found.registers).reshapes
  | raise =>
      unfold execute at h
      rw [hop] at h
      obtain ⟨exception, _, hp, h⟩ := bind_eq_ok_iff.mp h
      obtain ⟨found, top, -⟩ := pop_eq_ok hp
      obtain ⟨_, h⟩ := proceed_eq_ok h
      rw [top]
      exact ((raise_raises h).2.congr found.registers).reshapes
  | leaveTry | leaveCatch =>
      rw [hop] at moves
      obtain ⟨record, current, intercepts, moved⟩ := moves
      obtain ⟨outer, found, own⟩ := Thread.currentTry?_eq_some.mp current
      have within := Thread.interceptor?_eq_some.mpr ⟨outer, found, own, intercepts⟩
      rw [within, moved]
      exact .of_interceptor within _
  | leaveFinally =>
      rw [hop] at moves
      obtain ⟨record, exit, current, phase, out⟩ := moves
      rw [current, Option.map_some, phase]
      exact (Thread.CarriesOut.reshapes out).of_suffix (List.tail_suffix _)
  | reraise =>
      rw [hop] at moves
      obtain ⟨record, exception, current, phase, moved⟩ := moves
      obtain ⟨outer, found, own⟩ := Thread.currentTry?_eq_some.mp current
      rw [current, Option.map_some, phase, moved]
      refine .turns found (found ▸ List.suffix_rfl) ?_
      rw [TryRecord.intercepts, phase]
  | loadClass | call | invoke =>
      rw [hop] at moves
      have handlers : next.thread.registers.handlers = scene.thread.handlers :=
        moves.elim (fun same => congrArg Registers.handlers same) fun enters => enters.handlers
      rw [Thread.branch?, hop]
      exact .keeps (handlers ▸ List.suffix_rfl)
  | enterTry => exact absurd hop other
  | _ =>
      rw [hop] at moves
      rw [moves, Thread.branch?, hop]
      exact .keeps List.suffix_rfl

theorem turning?_of_enterTry {instruction : Instruction} (enters : instruction.opcode = .enterTry)
    (thread : Thread) : thread.turning? instruction = none := by
  unfold Thread.turning?
  rw [enters, Thread.branch?, enters]
  rfl

theorem handlers_of_enterTry {instruction : Instruction} {signal : Signal}
    (h : execute instruction setup scene = .ok signal next)
    (enters : instruction.opcode = .enterTry) :
    next.thread.registers.handlers = scene.thread.entered instruction :: scene.thread.handlers := by
  have moves := (execute_moves h).2
  unfold Thread.Moves at moves
  rw [enters] at moves
  rw [moves]

theorem execute_advances {instruction : Instruction} {signal : Signal}
    (h : execute instruction setup scene = .ok signal next) {depth : Nat}
    (there : depth < scene.thread.handlers.length)
    (inside : depth < next.thread.handlers.length) :
    ∃ record record', scene.thread.registers.construct? depth = some record ∧
      next.thread.registers.construct? depth = some record' ∧
      record.Advances (Thread.exitAt depth (scene.thread.turning? instruction)) record'
        next.thread.ip := by
  by_cases enters : instruction.opcode = .enterTry
  · have left : scene.thread.registers.handlers <:+ next.thread.registers.handlers :=
      handlers_of_enterTry h enters ▸ List.suffix_cons _ _
    obtain ⟨record, found⟩ := scene.thread.registers.construct?_isSome there
    rw [turning?_of_enterTry enters]
    exact ⟨record, record, found, Registers.construct?_of_suffix left there ▸ found, .stays _⟩
  · exact (execute_reshapes h enters).advances inside

/-- A construct that has not been there is the one that the instruction enters. -/
theorem execute_enters {instruction : Instruction} {signal : Signal}
    (h : execute instruction setup scene = .ok signal next) {depth : Nat}
    (new : scene.thread.handlers.length ≤ depth) (inside : depth < next.thread.handlers.length) :
    instruction.opcode = .enterTry ∧ depth = scene.thread.handlers.length := by
  by_cases enters : instruction.opcode = .enterTry
  · have length := congrArg List.length (handlers_of_enterTry h enters)
    change next.thread.handlers.length = scene.thread.handlers.length + 1 at length
    exact ⟨enters, by omega⟩
  · obtain ⟨record, -, found, -, -⟩ := (execute_reshapes h enters).advances inside
    obtain ⟨there, -⟩ := List.getElem?_eq_some_iff.mp found
    rw [List.length_reverse] at there
    exact absurd there (Nat.not_lt_of_le new)

/-- The end of a finally body carries out what the construct has put off, and is a fault anywhere
else in the frame. -/
theorem execute_leaveFinally {instruction : Instruction}
    (leaves : instruction.opcode = .leaveFinally) {record : TryRecord}
    (current : scene.thread.currentTry? = some record) :
    execute instruction setup scene =
      match record.phase with
      | .inFinally exit =>
        carryOut exit setup
          { scene with thread := { scene.thread with handlers := scene.thread.handlers.tail } }
      | _ => .error (.illegalExceptionState "leavefinally") scene := by
  have start : execute instruction setup scene = leaveFinally setup scene := by
    unfold execute
    rw [leaves]
  rw [start]
  unfold leaveFinally currentPhase
  rw [ofThread_bind, current, Option.map_some]
  cases record.phase <;> rfl

end Step

namespace Machine

variable {setup : Setup}

/-! ## Runs -/

/-- How a thread goes on in a step: it executes an instruction, its position being behind that
already, or it rests. A copy that the instruction makes of it goes on like the thread itself. -/
inductive Continues (setup : Setup) (machine : Machine) (thread : Thread) :
    Option (Instruction × Thread) → Thread → Prop
  | rests {next : Thread} :
      next.id = thread.id → next.registers = thread.registers →
      Continues setup machine thread none next
  | acts {instruction : Instruction} {scene after : Scene} {signal : Signal} {next : Thread} :
      machine.Executes setup instruction scene signal after →
      scene.thread.id = thread.id →
      scene.thread.registers =
        { thread.registers with ip := instruction.offset + instruction.size } →
      next.id = thread.id ∨ signal = .fork →
      next.registers = after.thread.registers →
      Continues setup machine thread (some (instruction, scene.thread)) next

/-- Every thread after a step is what one before it has come to. -/
theorem exists_continues {machine next : Machine} (h : machine.step setup = .running next)
    {after : Thread} (member : after ∈ next.roster.threads) :
    ∃ thread ∈ machine.roster.threads, ∃ act, machine.Continues setup thread act after := by
  obtain ⟨instruction, scene, signal, result, executes, threads⟩ := step_eq_running h
  rcases threads after member with ⟨-, id, same⟩ | ⟨old, found, id, same⟩
  · obtain ⟨⟨current, ready, rfl⟩, execute⟩ := executes
    obtain ⟨⟨old, found, id', -, behind⟩, -⟩ := ready_eq_execute ready
    have kept := (Step.execute_moves execute).1.trans id'
    exact ⟨old, found, _, .acts ⟨⟨current, ready, rfl⟩, execute⟩ id' behind
      (id.imp_left fun id => id.trans kept) same⟩
  · exact ⟨old, found, none, .rests id same⟩

/-- The exit that a step enters the finally body of the construct at a place with, if it does. -/
def exitOf (depth : Nat) (act : Option (Instruction × Thread)) : Option ExitAction :=
  act.bind fun (instruction, thread) => Thread.exitAt depth (thread.turning? instruction)

/-- The life of the try construct with `depth` others around it in one thread, from the instruction
that has entered it on: the construct as it was entered, and the exits that its finally body has
been entered with. It goes on as long as the construct is not dropped, and in copies of the
thread, too. -/
inductive Life (setup : Setup) (depth : Nat) :
    TryRecord → List ExitAction → Machine → Thread → Prop
  | enters {machine next : Machine} {instruction : Instruction} {thread behind after : Thread} :
      Reachable setup machine → thread ∈ machine.roster.threads →
      machine.step setup = .running next → after ∈ next.roster.threads →
      machine.Continues setup thread (some (instruction, behind)) after →
      instruction.opcode = .enterTry → depth = thread.handlers.length →
      Life setup depth (behind.entered instruction) [] next after
  | goesOn {entered : TryRecord} {turns : List ExitAction} {machine next : Machine}
      {act : Option (Instruction × Thread)} {thread after : Thread} :
      Life setup depth entered turns machine thread →
      machine.step setup = .running next → after ∈ next.roster.threads →
      machine.Continues setup thread act after → depth < after.handlers.length →
      Life setup depth entered (turns ++ (exitOf depth act).toList) next after

variable {depth : Nat} {machine : Machine} {thread : Thread}

theorem Continues.advances {act : Option (Instruction × Thread)} {after : Thread}
    (h : machine.Continues setup thread act after) (there : depth < thread.handlers.length)
    (inside : depth < after.handlers.length) :
    ∃ record record', thread.registers.construct? depth = some record ∧
      after.registers.construct? depth = some record' ∧
      record.Advances (exitOf depth act) record' after.ip := by
  cases h with
  | rests _ same =>
      obtain ⟨record, found⟩ := thread.registers.construct?_isSome there
      exact ⟨record, record, found, same ▸ found, .stays _⟩
  | @acts instruction scene result signal _ executes _ behind _ same =>
      have handlers : scene.thread.handlers = thread.handlers := congrArg Registers.handlers behind
      have results : after.handlers = result.thread.handlers := congrArg Registers.handlers same
      have ip : after.ip = result.thread.ip := congrArg Registers.ip same
      have place : scene.thread.registers.construct? depth = thread.registers.construct? depth := by
        rw [behind]
        rfl
      rw [same, ip, ← place]
      exact Step.execute_advances executes.execute (handlers ▸ there) (results ▸ inside)

theorem Continues.handlers_of_enterTry {instruction : Instruction} {behind after : Thread}
    (h : machine.Continues setup thread (some (instruction, behind)) after)
    (enters : instruction.opcode = .enterTry) :
    after.handlers = behind.entered instruction :: thread.handlers := by
  cases h with
  | @acts _ scene result signal _ executes _ behind _ same =>
      have handlers : scene.thread.handlers = thread.handlers := congrArg Registers.handlers behind
      have results : after.handlers = result.thread.handlers := congrArg Registers.handlers same
      rw [results, ← handlers]
      exact Step.handlers_of_enterTry executes.execute enters

theorem Continues.enters {act : Option (Instruction × Thread)} {after : Thread}
    (h : machine.Continues setup thread act after) (new : thread.handlers.length ≤ depth)
    (inside : depth < after.handlers.length) :
    ∃ instruction behind, act = some (instruction, behind) ∧ instruction.opcode = .enterTry ∧
      depth = thread.handlers.length := by
  cases h with
  | rests _ same =>
      have handlers : after.handlers = thread.handlers := congrArg Registers.handlers same
      exact absurd (handlers ▸ inside) (Nat.not_lt_of_le new)
  | @acts instruction scene result signal _ executes _ behind _ same =>
      have handlers : scene.thread.handlers = thread.handlers := congrArg Registers.handlers behind
      have results : after.handlers = result.thread.handlers := congrArg Registers.handlers same
      obtain ⟨enters, place⟩ :=
        Step.execute_enters executes.execute (handlers ▸ new) (results ▸ inside)
      exact ⟨instruction, scene.thread, rfl, enters, handlers ▸ place⟩

theorem Life.length_lt {entered : TryRecord} {turns : List ExitAction}
    (h : Life setup depth entered turns machine thread) : depth < thread.handlers.length := by
  cases h with
  | enters _ _ _ _ continues enters place =>
      rw [continues.handlers_of_enterTry enters, place]
      exact Nat.lt_succ_self _
  | goesOn _ _ _ _ inside => exact inside

theorem Life.became {entered : TryRecord} {turns : List ExitAction}
    (h : Life setup depth entered turns machine thread) :
    ∃ record, thread.registers.construct? depth = some record ∧ entered.phase = .inTry ∧
      entered.Became turns record := by
  induction h with
  | enters _ _ _ _ continues enters place =>
      rw [Registers.construct?_of_cons (continues.handlers_of_enterTry enters), if_pos place]
      exact ⟨_, rfl, rfl, rfl, rfl⟩
  | goesOn life _ _ continues inside ih =>
      obtain ⟨record, found, started, became⟩ := ih
      obtain ⟨before, record', found', after, advances⟩ := continues.advances life.length_lt inside
      obtain rfl : record = before := Option.some.inj (found.symm.trans found')
      exact ⟨record', after, started, became.advances advances⟩

/-- Every construct that comes up in a run has been entered, and lives since then. -/
theorem Reachable.exists_life (reachable : Reachable setup machine)
    (member : thread ∈ machine.roster.threads) (inside : depth < thread.handlers.length) :
    ∃ entered turns, Life setup depth entered turns machine thread := by
  induction reachable generalizing thread with
  | start h =>
      unfold Machine.start at h
      dsimp only at h
      split at h
      · cases h
        obtain rfl : thread = _ := by simpa [Roster.threads, Roster.start] using member
        cases inside
      · cases h
  | @step machine next before step _ ih =>
      obtain ⟨old, found, act, continues⟩ := exists_continues step member
      by_cases there : depth < old.handlers.length
      · obtain ⟨entered, turns, life⟩ := ih found there
        exact ⟨entered, _, life.goesOn step member continues inside⟩
      · -- No thread had this construct before, so that the step has entered it.
        obtain ⟨instruction, behind, rfl, enters, place⟩ :=
          continues.enters (Nat.le_of_not_lt there) inside
        exact ⟨_, [], .enters before found step member continues enters place⟩

/-- A construct goes one way. Every construct of a thread in a run has been entered by an
instruction, in its try body. Whatever has happened since then, to the thread or to those that it
is a copy of, the finally body of the construct has been entered once at most, with an exit that
the construct keeps; it has not changed otherwise, but for having gone to its catch body. The next
step drops it, leaves it as it is, or takes it to a later phase and control to the body of that. The
end of the finally body carries out the exit. -/
theorem constructs_go_one_way (reachable : Reachable setup machine)
    (member : thread ∈ machine.roster.threads) (inside : depth < thread.handlers.length) :
    (∃ entered turns, Life setup depth entered turns machine thread) ∧
    ∀ {entered : TryRecord} {turns : List ExitAction},
      Life setup depth entered turns machine thread →
      ∃ record, thread.registers.construct? depth = some record ∧ entered.phase = .inTry ∧
        entered.Became turns record ∧
        (∀ {next : Machine} {act : Option (Instruction × Thread)} {after : Thread},
          machine.step setup = .running next → after ∈ next.roster.threads →
          machine.Continues setup thread act after → depth < after.handlers.length →
          ∃ record', after.registers.construct? depth = some record' ∧
            record.Advances (exitOf depth act) record' after.ip) ∧
        ∀ {current : Machine} {instruction : Instruction},
          machine.ready setup = .execute current instruction →
          instruction.opcode = .leaveFinally →
          current.roster.running.registers =
            { thread.registers with ip := instruction.offset + instruction.size } →
          thread.handlers.length = depth + 1 → record.callDepth = thread.calls.size →
          Step.execute instruction setup ⟨current.roster.running, current.world⟩ =
            match turns with
            | [exit] =>
              Step.carryOut exit setup ⟨{ current.roster.running with
                handlers := current.roster.running.handlers.tail }, current.world⟩
            | _ => .error (.illegalExceptionState "leavefinally")
              ⟨current.roster.running, current.world⟩ := by
  refine ⟨reachable.exists_life member inside, fun {entered turns} life => ?_⟩
  obtain ⟨record, found, started, became⟩ := life.became
  refine ⟨record, found, started, became, ?_, ?_⟩
  · intro next act after _ _ continues stays
    obtain ⟨before, record', found', after, advances⟩ := continues.advances inside stays
    obtain rfl : record = before := Option.some.inj (found.symm.trans found')
    exact ⟨record', after, advances⟩
  · intro current instruction _ leaves behind innermost own
    have handlers : current.roster.running.handlers = thread.handlers :=
      congrArg Registers.handlers behind
    have calls : current.roster.running.calls = thread.calls := congrArg Registers.calls behind
    obtain ⟨outer, first⟩ := Registers.eq_cons_of_construct? found innermost
    have current : current.roster.running.currentTry? = some record :=
      Thread.currentTry?_eq_some.mpr ⟨outer, handlers.trans first, calls ▸ own⟩
    rw [Step.execute_leaveFinally leaves current]
    cases phase : record.phase with
    | inFinally exit =>
        obtain rfl := became.eq_singleton phase
        rfl
    | inTry | inCatch =>
        obtain rfl := became.eq_nil (by simp [TryRecord.intercepts, phase])
        rfl

/-- A try construct, and a branch out of its try body. -/
def leavesByBranch : Setup :=
  (Setup.ofMain? [
    0x70, 0, 5,  -- entertry, without a catch body
    0x50, 3,     -- jmp behind the finally body
    0x75,        -- leavefinally
    0x31] 0).get (by decide +kernel)

/-- Whether an instruction is the end of the only finally body, with a branch put off. -/
def endsFinally (instruction : Instruction) (scene _after : Scene) : Bool :=
  match scene.thread.handlers, scene.thread.handlers.map (·.phase) with
  | [record], [TryPhase.inFinally (.branch _)] =>
    instruction.opcode = .leaveFinally && record.callDepth = scene.thread.calls.size
  | _, _ => false

/-- In a run of that program the finally body has been entered once, with the branch as its exit,
when its end is reached and carries that out. -/
theorem constructs_go_one_way_leavesByBranch :
    ∃ machine thread entered target current instruction,
      Reachable leavesByBranch machine ∧ thread ∈ machine.roster.threads ∧
      Life leavesByBranch 0 entered [.branch target] machine thread ∧
      machine.ready leavesByBranch = .execute current instruction ∧
      instruction.opcode = .leaveFinally ∧
      Step.execute instruction leavesByBranch ⟨current.roster.running, current.world⟩ =
        Step.carryOut (.branch target) leavesByBranch ⟨{ current.roster.running with
          handlers := current.roster.running.handlers.tail }, current.world⟩ := by
  have ends : nextSatisfies leavesByBranch endsFinally
      (Progress.advance leavesByBranch 4
        (Machine.start leavesByBranch (.ofCatalog leavesByBranch.program.catalog)
          (.steps 100) [])) = true := by
    decide +kernel
  obtain ⟨machine, instruction, scene, signal, next, reached, executes, holds⟩ :=
    exists_of_nextSatisfies ends
  obtain ⟨⟨current, ready, rfl⟩, -⟩ := executes
  obtain ⟨⟨thread, member, -, -, behind⟩, -⟩ := ready_eq_execute ready
  have handlers : current.roster.running.handlers = thread.handlers :=
    congrArg Registers.handlers behind
  have calls : current.roster.running.calls = thread.calls := congrArg Registers.calls behind
  unfold endsFinally at holds
  dsimp only at holds
  rw [handlers, calls] at holds
  split at holds
  · next record target only phases =>
      obtain ⟨leaves, own⟩ : instruction.opcode = .leaveFinally ∧
          record.callDepth = thread.calls.size := by simpa using holds
      have reachable : Reachable leavesByBranch machine := .of_advance reached
      have inside : 0 < thread.handlers.length := by simp [only]
      obtain ⟨⟨entered, turns, life⟩, lived⟩ := constructs_go_one_way reachable member inside
      obtain ⟨record', found, -, became, -, carries⟩ := lived life
      obtain rfl : record = record' := by
        rw [Registers.construct?_of_cons only] at found
        exact Option.some.inj found
      have carried := carries ready leaves behind (by simp [only]) own
      have phase : record.phase = .inFinally (.branch target) := by
        rw [only] at phases
        exact (List.cons.inj phases).1
      obtain rfl := became.eq_singleton phase
      exact ⟨machine, thread, entered, target, current, instruction, reachable, member, life,
        ready, leaves, carried⟩
  · cases holds

end Machine

end ObjectMachine
