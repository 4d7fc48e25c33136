import ObjectMachine.Proofs.Machine.Blind

/-!
# What instructions do to the registers

Each instruction that moves the registers is described by what they are afterwards. The values on
the stack decide which of the described moves is made, but they do not show in the registers.
-/

namespace ObjectMachine

theorem getElem?_shrink {items : Array α} {size place : Nat} :
    (items.shrink size)[place]? = if place < size then items[place]? else none := by
  rw [← Array.getElem?_toList, Array.toList_shrink, List.getElem?_take, Array.getElem?_toList]

theorem mem_of_mem_pop {items : Array α} {item : α} (h : item ∈ items.pop) : item ∈ items := by
  obtain ⟨place, inside, rfl⟩ := Array.mem_iff_getElem.mp h
  rw [Array.getElem_pop]
  exact Array.getElem_mem _

theorem mem_of_mem_shrink {items : Array α} {size : Nat} {item : α}
    (h : item ∈ items.shrink size) : item ∈ items := by
  obtain ⟨place, inside, rfl⟩ := Array.mem_iff_getElem.mp h
  rw [Array.getElem_shrink]
  exact Array.getElem_mem _

/-! ## Programs coupled with themselves -/

section

variable (Address : Nat → Nat → Prop) (same : ∀ address, Address address address)

include same

theorem MethodBody.Similar.refl (body : MethodBody) : body.Similar Address body := by
  cases body with
  | bytecode address localCount => exact ⟨same address, rfl⟩
  | native => trivial

theorem ClassDef.Similar.refl (info : ClassDef) : info.Similar Address info :=
  ⟨rfl, List.forall₂_same.mpr fun method _ =>
    ⟨rfl, rfl, rfl, rfl, rfl, MethodBody.Similar.refl Address same method.2.body⟩⟩

theorem Setup.Similar.refl (setup : Setup) : setup.Similar Address setup :=
  ⟨rfl, rfl, rfl, List.forall₂_same.mpr fun info _ => ClassDef.Similar.refl Address same info⟩

end

namespace Thread

/-- Two threads with the same registers differ in the rest only. -/
theorem eq_of_registers {thread other : Thread} (h : other.registers = thread.registers) :
    other = { thread with id := other.id, state := other.state, stack := other.stack } := by
  obtain ⟨id, state, stack, calls, handlers, dp, ip, moduleId, frame⟩ := other
  simp only [registers, Registers.mk.injEq] at h
  obtain ⟨rfl, rfl, rfl, rfl, rfl, rfl⟩ := h
  rfl

end Thread

/-- The coupling of a program with itself in which a thread keeps its registers. -/
def Coupling.steady (setup : Setup) (id : ThreadId) (registers : Registers) : Coupling where
  left := setup
  right := setup
  Address := Eq
  similar := Setup.Similar.refl Eq (fun _ => rfl) setup
  Kept scene scene' :=
    scene = scene' ∧ scene.thread.id = id ∧ scene.thread.registers = registers
  alike := by
    rintro scene _ ⟨rfl, -, -⟩
    exact ⟨rfl, rfl, rfl, rfl, rfl, rfl, rfl⟩
  rebuild := by
    rintro scene _ next next' ⟨rfl, id, registers⟩ rests rests' alike
    refine ⟨?_, rests.id.trans id, rests.registers.trans registers⟩
    have thread : next.thread = next'.thread := by
      rw [Thread.eq_of_registers (rests.registers.trans rests'.registers.symm), alike.id,
        alike.state, alike.stack]
    obtain ⟨thread₁, world₁⟩ := next
    obtain ⟨thread₂, world₂⟩ := next'
    exact congr (congrArg Scene.mk thread) alike.world

namespace Step

variable {setup : Setup} {scene next : Scene}

theorem bind_eq_ok_iff {step : Step α} {following : α → Step β} {value : β} :
    (step >>= following) setup scene = .ok value next ↔
      ∃ first middle, step setup scene = .ok first middle ∧
        following first setup middle = .ok value next :=
  EStateM.bind_eq_ok_iff

theorem bind_of_ok {step : Step α} {following : α → Step β} {answer : α}
    (h : step setup scene = .ok answer next) :
    (step >>= following) setup scene = following answer setup next := by
  change EStateM.bind (step setup) (fun answer => following answer setup) scene = _
  unfold EStateM.bind
  rw [h]

theorem bind_of_error {step : Step α} {following : α → Step β} {fault : Fault}
    (h : step setup scene = .error fault next) :
    (step >>= following) setup scene = .error fault next := by
  change EStateM.bind (step setup) (fun answer => following answer setup) scene = _
  unfold EStateM.bind
  rw [h]

theorem pure_eq_ok_iff {value result : α} :
    (pure value : Step α) setup scene = .ok result next ↔ value = result ∧ scene = next := by
  change EStateM.Result.ok value scene = _ ↔ _
  rw [EStateM.Result.ok.injEq]

theorem ofThread_eq_ok_iff {part : Thread → α} {value : α} :
    ofThread part setup scene = .ok value next ↔ part scene.thread = value ∧ scene = next := by
  change EStateM.Result.ok (part scene.thread) scene = _ ↔ _
  rw [EStateM.Result.ok.injEq]

theorem onThread_eq_ok_iff {change : Thread → Thread} {answer : Unit} :
    onThread change setup scene = .ok answer next ↔
      { scene with thread := change scene.thread } = next := by
  change EStateM.Result.ok () { scene with thread := change scene.thread } = _ ↔ _
  rw [EStateM.Result.ok.injEq]
  exact ⟨fun h => h.2, fun h => ⟨rfl, h⟩⟩

theorem ofThread_bind {part : Thread → α} {following : α → Step β} :
    (ofThread part >>= following) setup scene = following (part scene.thread) setup scene := rfl

theorem onThread_bind {change : Thread → Thread} {following : Unit → Step α} :
    (onThread change >>= following) setup scene =
      following () setup { scene with thread := change scene.thread } := rfl

theorem onStack_eq_ok_iff {operation : Stack.Operation α} {value : α} :
    onStack operation setup scene = .ok value next ↔
      ∃ stack, operation scene.thread.stack = .ok value stack ∧
        next = { scene with thread := { scene.thread with stack } } := by
  unfold onStack
  dsimp only
  cases operation scene.thread.stack with
  | ok found stack =>
      simp only [EStateM.Result.ok.injEq]
      constructor
      · rintro ⟨rfl, rfl⟩
        exact ⟨stack, ⟨rfl, rfl⟩, rfl⟩
      · rintro ⟨_, ⟨rfl, rfl⟩, rfl⟩
        exact ⟨rfl, rfl⟩
  | error fault stack =>
      simp

theorem read_eq_ok_iff {found : Setup} :
    (read : Step Setup) setup scene = .ok found next ↔ setup = found ∧ scene = next := by
  change EStateM.Result.ok setup scene = _ ↔ _
  rw [EStateM.Result.ok.injEq]

theorem program_eq_ok_iff {program : Program} :
    Step.program setup scene = .ok program next ↔ setup.program = program ∧ scene = next := by
  change EStateM.Result.ok setup.program scene = _ ↔ _
  rw [EStateM.Result.ok.injEq]

theorem get_eq_ok_iff {found : Scene} :
    (get : Step Scene) setup scene = .ok found next ↔ scene = found ∧ scene = next := by
  change EStateM.Result.ok scene scene = _ ↔ _
  rw [EStateM.Result.ok.injEq]

theorem throw_bind_ne_ok {fault : Fault} {following : γ → Step α} {value : α} :
    ((throw fault : Step γ) >>= following) setup scene ≠ .ok value next := by
  intro h
  cases h

theorem throw_ne_ok {fault : Fault} {value : α} :
    (throw fault : Step α) setup scene ≠ .ok value next := by
  intro h
  cases h

/-- A part that does the same in every coupling of the program with itself leaves the registers
alone. -/
theorem rests {step : Step α}
    (h : ∀ id registers, (Coupling.steady setup id registers).Agree Eq step step) {value : α}
    (hr : step setup scene = .ok value next) : next.Rests scene := by
  have agree := h scene.thread.id scene.thread.registers
  obtain ⟨value', next', -, -, rfl, id, registers⟩ := agree.of_ok ⟨rfl, rfl, rfl⟩ hr
  exact ⟨id, registers⟩

end Step

namespace Scene.Rests

theorem trans {last next scene : Scene} (h : last.Rests next) (h' : next.Rests scene) :
    last.Rests scene :=
  ⟨h.id.trans h'.id, h.registers.trans h'.registers⟩

theorem ip {next scene : Scene} (h : next.Rests scene) : next.thread.ip = scene.thread.ip :=
  congrArg Registers.ip h.registers

end Scene.Rests

theorem Thread.currentTry?_eq_some {thread : Thread} {record : TryRecord} :
    thread.currentTry? = some record ↔
      ∃ outer, thread.handlers = record :: outer ∧ record.callDepth = thread.calls.size := by
  unfold Thread.currentTry?
  cases thread.handlers with
  | nil => simp
  | cons first outer =>
      by_cases own : first.callDepth = thread.calls.size
      · simp only [own, if_true, Option.some.injEq, List.cons.injEq]
        constructor
        · rintro rfl
          exact ⟨outer, ⟨rfl, rfl⟩, own⟩
        · rintro ⟨_, ⟨rfl, -⟩, -⟩
          rfl
      · simp only [own, if_false, reduceCtorEq, List.cons.injEq, false_iff]
        rintro ⟨_, ⟨rfl, -⟩, depth⟩
        exact own depth

/-! ## Registers decide about registers -/

namespace Thread

variable {thread other : Thread} (h : other.registers = thread.registers)

include h

theorem interceptor?_congr : other.interceptor? = thread.interceptor? := by
  rw [eq_of_registers h]
  rfl

theorem withIp_congr (ip : Nat) :
    ({ other with ip } : Thread).registers = { thread.registers with ip } := by
  rw [eq_of_registers h]
  rfl

theorem enterFinally_congr (exit : ExitAction) :
    (other.enterFinally exit).registers = (thread.enterFinally exit).registers := by
  rw [eq_of_registers h]
  unfold enterFinally
  cases hh : thread.handlers <;> simp only [hh, registers]

theorem branchTo_congr (target : Nat) :
    (other.branchTo target).registers = (thread.branchTo target).registers := by
  unfold branchTo
  rw [interceptor?_congr h]
  split
  · split
    · rw [eq_of_registers h]
      rfl
    · exact enterFinally_congr h _
  · rw [eq_of_registers h]
    rfl

theorem rewind_congr (record : TryRecord) :
    (other.rewind record).registers = (thread.rewind record).registers := by
  rw [eq_of_registers h]
  rfl

theorem popCall_congr : other.popCall.registers = thread.popCall.registers := by
  rw [eq_of_registers h]
  rfl

theorem restore_congr (call : CallRecord) :
    (other.restore call).registers = (thread.restore call).registers := by
  rw [eq_of_registers h]
  rfl

end Thread

/-! ## Moves -/

namespace Instruction

def jumpTarget (instruction : Instruction) : Nat :=
  match instruction.operand with
  | .offset distance => instruction.target distance
  | _ => instruction.target 0

theorem target_zero (instruction : Instruction) : instruction.target 0 = instruction.offset := by
  simp [target]

end Instruction

namespace Thread

/-- What a return makes of the registers. -/
inductive Returns (thread : Thread) (form : ReturnForm) : Registers → Signal → Prop
  | deferred : thread.interceptor?.isSome →
      Returns thread form (thread.enterFinally form.exit).registers .proceed
  | left : thread.interceptor? = none → thread.calls.back? = none →
      Returns thread form thread.registers .leave
  | popped {call : CallRecord} : thread.interceptor? = none → thread.calls.back? = some call →
      Returns thread form (thread.popCall.restore call).registers .proceed

/-- What a throw makes of the registers, given the try constructs that it leaves. -/
inductive Raises (thread : Thread) (exception : Value) : Registers → Prop
  | caught {record : TryRecord} {outer : List TryRecord} {onCatch : Nat} :
      thread.handlers.dropWhile (·.phase.isInFinally) = record :: outer →
      record.phase = .inTry → record.onCatch = some onCatch →
      Raises thread exception
        { (thread.rewind record).registers with
          handlers := { record with phase := .inCatch exception } :: outer
          ip := onCatch }
  | passed {record : TryRecord} {outer : List TryRecord} :
      thread.handlers.dropWhile (·.phase.isInFinally) = record :: outer →
      (record.phase = .inTry → record.onCatch = none) →
      Raises thread exception
        { (thread.rewind record).registers with
          handlers := { record with phase := .inFinally (.rethrow exception) } :: outer
          ip := record.onFinally }

/-- What the end of a finally body makes of the registers, its own construct being left. -/
def CarriesOut (thread : Thread) (exit : ExitAction) (registers : Registers) (signal : Signal) :
    Prop :=
  match exit with
  | .fallThrough => registers = thread.registers ∧ signal = .proceed
  | .ret => thread.Returns .void registers signal
  | .retValue value => thread.Returns (.value value) registers signal
  | .retConstructor => thread.Returns .constructor registers signal
  | .branch target => registers = (thread.branchTo target).registers ∧ signal = .proceed
  | .rethrow exception => thread.Raises exception registers ∧ signal = .proceed

/-- What entering a method of the program makes of the registers. -/
inductive Enters (setup : Setup) (thread : Thread) (returnIp : Nat) : Registers → Prop
  | intro {id : ClassId} {key : MethodKey} {entry : MethodEntry} {address : Nat}
      {localCount : UInt16} (kind : FrameKind) (dp : Nat) :
      (setup.program.catalog.get id).method? key = some entry →
      entry.body = .bytecode address localCount →
      thread.calls.size < setup.limits.callDepth →
      Enters setup thread returnIp
        { calls := thread.calls.push ⟨thread.dp, returnIp, thread.moduleId, thread.frame⟩
          handlers := thread.handlers
          dp
          ip := address
          moduleId := entry.moduleId
          frame := .method entry.declaring key kind }

def entered (instruction : Instruction) (thread : Thread) : TryRecord :=
  let (onCatch, onFinally) := match instruction.operand with
    | .tryPair onCatch onFinally => (onCatch, onFinally)
    | _ => (0, 0)
  { start := instruction.offset
    onCatch := if onCatch = 0 then none else some (instruction.target onCatch)
    onFinally := instruction.target onFinally
    phase := .inTry
    moduleId := thread.moduleId
    callDepth := thread.calls.size
    dp := thread.dp
    stackDepth := thread.stack.depth }

theorem enterTry_eq_entered (instruction : Instruction) :
    Step.enterTry instruction = Step.onThread fun thread =>
      { thread with handlers := thread.entered instruction :: thread.handlers } := by
  unfold Step.enterTry entered
  cases instruction.operand <;> rfl

section

variable {thread other : Thread} (h : other.registers = thread.registers)

include h

theorem Returns.congr {form : ReturnForm} {registers : Registers} {signal : Signal}
    (hr : other.Returns form registers signal) : thread.Returns form registers signal := by
  cases hr with
  | deferred intercepted =>
      rw [enterFinally_congr h]
      exact .deferred (interceptor?_congr h ▸ intercepted)
  | left free bottom =>
      rw [h]
      rw [eq_of_registers h] at bottom
      exact .left (interceptor?_congr h ▸ free) bottom
  | @popped call free top =>
      rw [restore_congr (popCall_congr h)]
      rw [eq_of_registers h] at top
      exact .popped (interceptor?_congr h ▸ free) top

theorem Raises.congr {exception : Value} {registers : Registers}
    (hr : other.Raises exception registers) : thread.Raises exception registers := by
  cases hr with
  | @caught record outer onCatch found phase there =>
      rw [rewind_congr h]
      rw [eq_of_registers h] at found
      exact .caught found phase there
  | @passed record outer found only =>
      rw [rewind_congr h]
      rw [eq_of_registers h] at found
      exact .passed found only

theorem Enters.congr {setup : Setup} {returnIp : Nat} {registers : Registers}
    (he : other.Enters setup returnIp registers) : thread.Enters setup returnIp registers := by
  obtain ⟨kind, dp, found, body, room⟩ := he
  rw [eq_of_registers h] at room ⊢
  exact .intro kind dp found body room

end

/-- A throw of what a catch body was given is raised in the construct itself. -/
theorem raises_of_reraise {thread : Thread} {record : TryRecord} {exception : Value}
    (current : thread.currentTry? = some record) (phase : record.phase = .inCatch exception) :
    thread.Raises exception
      ((thread.rewind record).enterFinally (.rethrow exception)).registers := by
  obtain ⟨outer, found, -⟩ := currentTry?_eq_some.mp current
  have after : ((thread.rewind record).enterFinally (.rethrow exception)).registers =
      { (thread.rewind record).registers with
        handlers := { record with phase := .inFinally (.rethrow exception) } :: outer
        ip := record.onFinally } := by
    simp only [enterFinally, rewind, found, registers]
  rw [after]
  refine .passed ?_ ?_
  · rw [found, List.dropWhile_cons_of_neg]
    simp [TryPhase.isInFinally, phase]
  · rw [phase]
    nofun

/-! ## Branches that are taken -/

def condition? (thread : Thread) : Option Bool :=
  thread.stack.slots.back?.bind (·.asBool?)

def compares (op : ComparisonOp) (thread : Thread) : Bool :=
  match thread.stack.slots.pop.back?, thread.stack.slots.back? with
  | some a, some b =>
    match Value.comparison op a b with
    | .ok holds => holds
    | .error _ => false
  | _, _ => false

def selected? (instruction : Instruction) (thread : Thread) : Option Nat :=
  match thread.stack.slots.back?.bind (·.asInteger?), instruction.operand with
  | some number, .table distances =>
    if 0 ≤ number.toInt then distances[number.toInt.toNat]?.map instruction.target else none
  | _, _ => none

def branch? (instruction : Instruction) (thread : Thread) : Option Nat :=
  let onlyIf (taken : Bool) := if taken then some instruction.jumpTarget else none
  match instruction.opcode with
  | .jmp => some instruction.jumpTarget
  | .jt => onlyIf (thread.condition? == some true)
  | .jf => onlyIf (thread.condition? == some false)
  | .jce => onlyIf (thread.compares .eq)
  | .jcne => onlyIf (thread.compares .ne)
  | .jcl => onlyIf (thread.compares .lt)
  | .jcle => onlyIf (thread.compares .le)
  | .jcg => onlyIf (thread.compares .gt)
  | .jcge => onlyIf (thread.compares .ge)
  | .caseOf => thread.selected? instruction
  | _ => none

def branched (thread : Thread) : Option Nat → Thread
  | some target => thread.branchTo target
  | none => thread

/-- What an instruction makes of the registers of the thread that executes it. -/
def Moves (setup : Setup) (instruction : Instruction) (thread : Thread) (registers : Registers)
    (signal : Signal) : Prop :=
  match instruction.opcode with
  | .jmp | .jt | .jf | .jce | .jcne | .jcl | .jcle | .jcg | .jcge | .caseOf =>
    registers = (thread.branched (thread.branch? instruction)).registers
  | .ret => thread.Returns .void registers signal
  | .retVal => ∃ value, thread.Returns (.value value) registers signal
  | .retCtor => thread.Returns .constructor registers signal
  | .loadClass => registers = thread.registers ∨ thread.Enters setup instruction.offset registers
  | .call | .invoke => registers = thread.registers ∨ thread.Enters setup thread.ip registers
  | .enterTry =>
    registers =
      { thread.registers with handlers := thread.entered instruction :: thread.handlers }
  | .leaveTry | .leaveCatch => ∃ record, thread.currentTry? = some record ∧ record.intercepts ∧
    registers = (thread.enterFinally .fallThrough).registers
  | .leaveFinally => ∃ record exit, thread.currentTry? = some record ∧
    record.phase = .inFinally exit ∧
    CarriesOut { thread with handlers := thread.handlers.tail } exit registers signal
  | .raise => ∃ exception, thread.Raises exception registers
  | .reraise => ∃ record exception, thread.currentTry? = some record ∧
    record.phase = .inCatch exception ∧
    registers = ((thread.rewind record).enterFinally (.rethrow exception)).registers
  | _ => registers = thread.registers

/-- The ways in which instructions move the registers, whatever their opcodes are. -/
inductive Shifts (setup : Setup) (instruction : Instruction) (thread : Thread) (signal : Signal) :
    Registers → Prop
  | stays : Shifts setup instruction thread signal thread.registers
  | branches {target : Nat} : thread.branch? instruction = some target →
      Shifts setup instruction thread signal (thread.branchTo target).registers
  | returns {form : ReturnForm} {after : Registers} : thread.Returns form after signal →
      Shifts setup instruction thread signal after
  /-- An initializer returns to the instruction itself, which is executed again then. -/
  | enters {returnIp : Nat} {after : Registers} :
      returnIp = thread.ip ∨ returnIp = instruction.offset → thread.Enters setup returnIp after →
      Shifts setup instruction thread signal after
  | tries : instruction.opcode = .enterTry →
      Shifts setup instruction thread signal
        { thread.registers with handlers := thread.entered instruction :: thread.handlers }
  | turns {record : TryRecord} : thread.currentTry? = some record →
      Shifts setup instruction thread signal (thread.enterFinally .fallThrough).registers
  | ends {record : TryRecord} {exit : ExitAction} {after : Registers} :
      instruction.opcode = .leaveFinally → thread.currentTry? = some record →
      record.phase = .inFinally exit →
      CarriesOut { thread with handlers := thread.handlers.tail } exit after signal →
      Shifts setup instruction thread signal after
  | raises {exception : Value} {after : Registers} : thread.Raises exception after →
      Shifts setup instruction thread signal after

theorem Moves.shifts {setup : Setup} {instruction : Instruction} {thread : Thread}
    {after : Registers} {signal : Signal} (hm : thread.Moves setup instruction after signal) :
    thread.Shifts setup instruction signal after := by
  unfold Moves at hm
  cases hop : instruction.opcode with
  | jmp | jt | jf | jce | jcne | jcl | jcle | jcg | jcge | caseOf =>
      rw [hop] at hm
      subst hm
      cases taken : thread.branch? instruction with
      | none => exact .stays
      | some target => exact .branches taken
  | ret | retCtor =>
      rw [hop] at hm
      exact .returns hm
  | retVal =>
      rw [hop] at hm
      obtain ⟨_, returns⟩ := hm
      exact .returns returns
  | loadClass =>
      rw [hop] at hm
      rcases hm with rfl | enters
      · exact .stays
      · exact .enters (.inr rfl) enters
  | call | invoke =>
      rw [hop] at hm
      rcases hm with rfl | enters
      · exact .stays
      · exact .enters (.inl rfl) enters
  | enterTry =>
      rw [hop] at hm
      subst hm
      exact .tries hop
  | leaveTry | leaveCatch =>
      rw [hop] at hm
      obtain ⟨_, current, _, rfl⟩ := hm
      exact .turns current
  | leaveFinally =>
      rw [hop] at hm
      obtain ⟨_, _, current, phase, out⟩ := hm
      exact .ends hop current phase out
  | raise =>
      rw [hop] at hm
      obtain ⟨_, raises⟩ := hm
      exact .raises raises
  | reraise =>
      rw [hop] at hm
      obtain ⟨_, _, current, phase, rfl⟩ := hm
      exact .raises (raises_of_reraise current phase)
  | _ =>
      rw [hop] at hm
      subst hm
      exact .stays

end Thread

end ObjectMachine
