import ObjectMachine.Proofs.Machine.Throws

/-!
# The calling convention

A method finds its receiver in the first slot of its frame, with the arguments and the locals above
it. When it returns the receiver and what lies above it make way for its result, and its caller goes
on as if the call had been one instruction: with its own frame, its own try constructs and all
values under the receiver.

Nothing keeps the method from writing to those values, though. A method that it calls with a value
of the caller as the receiver has that value in its own frame. It is enough that the method throws
for the stack to be as high afterwards as it has been before.
-/

namespace ObjectMachine

def Frame.kind : Frame → FrameKind
  | .method _ _ kind => kind
  | .entry => .normal

/-- What a return puts in the place of the receiver and the arguments, given what is in the first
slot of the frame. -/
def ReturnForm.leaves (form : ReturnForm) (kind : FrameKind) (first : Option Value) : List Value :=
  match kind, form with
  | .initializer, _ => []
  | .constructor, _ | _, .constructor => first.toList
  | _, .value result => [result]
  | .invoke, .void => [.null]
  | .normal, .void => []

namespace Thread

/-- The form of the return that an instruction carries out, and the thread that returns: that before
the instruction without the operand of the return, or without the construct whose finally body ends
with the return. -/
def returned? (instruction : Instruction) (thread : Thread) : Option (Thread × ReturnForm) :=
  match instruction.opcode, thread.currentTry?.map (·.phase) with
  | .ret, _ => some (thread, .void)
  | .retVal, _ => thread.stack.slots.back?.map fun value =>
    ({ thread with stack := { thread.stack with slots := thread.stack.slots.pop } }, .value value)
  | .retCtor, _ => some (thread, .constructor)
  | .leaveFinally, some (TryPhase.inFinally exit) =>
    exit.returnForm?.map fun form => ({ thread with handlers := thread.handlers.tail }, form)
  | _, _ => none

variable {thread returner : Thread} {instruction : Instruction} {form : ReturnForm}

theorem returned?_eq_some (h : thread.returned? instruction = some (returner, form)) :
    (instruction.opcode = .ret ∧ returner = thread ∧ form = .void) ∨
      (∃ value, instruction.opcode = .retVal ∧ thread.stack.slots.back? = some value ∧
        returner =
          { thread with stack := { thread.stack with slots := thread.stack.slots.pop } } ∧
        form = .value value) ∨
      (instruction.opcode = .retCtor ∧ returner = thread ∧ form = .constructor) ∨
      ∃ record exit, instruction.opcode = .leaveFinally ∧ thread.currentTry? = some record ∧
        record.phase = .inFinally exit ∧ exit.returnForm? = some form ∧
        returner = { thread with handlers := thread.handlers.tail } := by
  unfold returned? at h
  split at h
  · next opcode =>
      cases h
      exact .inl ⟨opcode, rfl, rfl⟩
  · next opcode =>
      obtain ⟨value, top, same⟩ := Option.map_eq_some_iff.mp h
      cases same
      exact .inr (.inl ⟨value, opcode, top, rfl, rfl⟩)
  · next opcode =>
      cases h
      exact .inr (.inr (.inl ⟨opcode, rfl, rfl⟩))
  · next exit opcode phase =>
      obtain ⟨record, current, phase⟩ := Option.map_eq_some_iff.mp phase
      obtain ⟨form, again, same⟩ := Option.map_eq_some_iff.mp h
      cases same
      exact .inr (.inr (.inr ⟨record, exit, opcode, current, phase, again, rfl⟩))
  · cases h

/-- A return begins in the frame of its instruction. It only takes its value off the stack, or
leaves the construct whose finally body ends. -/
theorem returned?_frame (h : thread.returned? instruction = some (returner, form)) :
    returner.registers = { thread.registers with handlers := returner.handlers } ∧
      returner.handlers <:+ thread.handlers ∧
      returner.registers.outerTries thread.calls.size =
        thread.registers.outerTries thread.calls.size := by
  rcases returned?_eq_some h with ⟨-, rfl, rfl⟩ | ⟨value, -, -, rfl, rfl⟩ | ⟨-, rfl, rfl⟩ |
    ⟨record, exit, -, current, -, -, rfl⟩
  · exact ⟨rfl, List.suffix_rfl, rfl⟩
  · exact ⟨rfl, List.suffix_rfl, rfl⟩
  · exact ⟨rfl, List.suffix_rfl, rfl⟩
  · obtain ⟨outer, found, own⟩ := currentTry?_eq_some.mp current
    have all : thread.registers.outerTries thread.calls.size =
        outer.filter (·.callDepth < thread.calls.size) :=
      Registers.outerTries_of_append [record] found (by simp [own])
    refine ⟨rfl, List.tail_suffix _, ?_⟩
    rw [all]
    exact congrArg _ (congrArg List.tail found)

theorem returned?_stack (h : thread.returned? instruction = some (returner, form)) :
    thread.stack.depth ≤ returner.stack.depth + 1 ∧
      ∀ place, place + 1 < thread.stack.depth →
        returner.stack.get? place = thread.stack.get? place := by
  have same (other : returner.stack = thread.stack) :
      thread.stack.depth ≤ returner.stack.depth + 1 ∧
        ∀ place, place + 1 < thread.stack.depth →
          returner.stack.get? place = thread.stack.get? place := by
    rw [other]
    exact ⟨Nat.le_succ _, fun _ _ => rfl⟩
  rcases returned?_eq_some h with ⟨-, rfl, -⟩ | ⟨value, -, -, rfl, -⟩ | ⟨-, rfl, -⟩ |
    ⟨record, exit, -, -, -, -, rfl⟩
  · exact same rfl
  · have depth : Stack.depth { thread.stack with slots := thread.stack.slots.pop } =
        thread.stack.depth - 1 := Array.size_pop
    refine ⟨by rw [depth]; omega, fun place inside => ?_⟩
    exact Array.getElem?_pop.trans (if_pos (by change _ < thread.stack.depth - 1; omega))
  · exact same rfl
  · exact same rfl

/-- A return that pops a call leaves the constructs of the frames around. -/
theorem popCall_handlers (h : thread.registers.Nested) (inside : 0 < thread.calls.size) :
    thread.popCall.handlers = thread.registers.outerTries thread.calls.size := by
  obtain ⟨split, below⟩ := popCall_drops h inside
  rw [Registers.outerTries_of_append thread.ownTries split fun record member => ?_]
  · exact (List.filter_eq_self.mpr fun record member => by simpa using below record member).symm
  · have own := (List.mem_filter.mp member).2
    exact Nat.le_of_eq (of_decide_eq_true own).symm

end Thread

namespace Step

variable {setup : Setup} {scene next : Scene} {form : ReturnForm}

theorem truncate_eq_ok_iff {depth : Nat} {answer : Unit} :
    truncate depth setup scene = .ok answer next ↔
      next = { scene with thread := { scene.thread with
        stack := scene.thread.stack.truncate depth } } := by
  refine ⟨fun h => ?_, ?_⟩
  · cases h
    rfl
  · rintro rfl
    rfl

/-- A return cuts the stack down to the receiver, or to what lies under it, and puts its result
there. -/
theorem leaveFrame_eq_ok {kind : FrameKind} {dp : Nat} {answer : Unit}
    (h : leaveFrame kind form dp setup scene = .ok answer next) :
    ∃ stack, next = { scene with thread := { scene.thread with stack } } ∧
      stack.slots.toList = scene.thread.stack.slots.toList.take dp ++
        form.leaves kind (scene.thread.stack.get? dp) := by
  have bare (h : truncate dp setup scene = .ok answer next) :
      ∃ stack, next = { scene with thread := { scene.thread with stack } } ∧
        stack.slots.toList = scene.thread.stack.slots.toList.take dp ++ [] := by
    refine ⟨_, truncate_eq_ok_iff.mp h, ?_⟩
    rw [List.append_nil]
    exact Array.toList_shrink
  have keeping (h : truncate (dp + 1) setup scene = .ok answer next) :
      ∃ stack, next = { scene with thread := { scene.thread with stack } } ∧
        stack.slots.toList = scene.thread.stack.slots.toList.take dp ++
          (scene.thread.stack.get? dp).toList := by
    refine ⟨_, truncate_eq_ok_iff.mp h, ?_⟩
    change (scene.thread.stack.slots.shrink (dp + 1)).toList = _
    rw [Array.toList_shrink, List.take_add_one, Array.getElem?_toList]
    rfl
  have putting {result : Value}
      (h : (do truncate dp; push result : Step Unit) setup scene = .ok answer next) :
      ∃ stack, next = { scene with thread := { scene.thread with stack } } ∧
        stack.slots.toList = scene.thread.stack.slots.toList.take dp ++ [result] := by
    obtain ⟨_, _, ht, h⟩ := bind_eq_ok_iff.mp h
    obtain rfl := truncate_eq_ok_iff.mp ht
    obtain ⟨-, rfl⟩ := push_eq_ok h
    refine ⟨_, rfl, ?_⟩
    change ((scene.thread.stack.slots.shrink dp).push result).toList = _
    rw [Array.toList_push, Array.toList_shrink]
  unfold leaveFrame at h
  cases kind with
  | initializer => exact bare h
  | constructor => exact keeping h
  | invoke =>
      cases form with
      | void => exact putting h
      | value => exact putting h
      | constructor => exact keeping h
  | normal =>
      cases form with
      | void => exact bare h
      | value => exact putting h
      | constructor => exact keeping h

theorem returnFrom_popped {signal : Signal} (h : returnFrom form setup scene = .ok signal next)
    (pops : next.thread.calls.size < scene.thread.calls.size) :
    signal = .proceed ∧ ∃ call stack, scene.thread.calls.back? = some call ∧
      next.thread = { scene.thread.popCall.restore call with stack } ∧
      stack.slots.toList = scene.thread.stack.slots.toList.take scene.thread.dp ++
        form.leaves scene.thread.frame.kind (scene.thread.stack.get? scene.thread.dp) := by
  obtain ⟨_, _, hi, h⟩ := bind_eq_ok_iff.mp h
  obtain ⟨rfl, rfl⟩ := ofThread_eq_ok_iff.mp hi
  split at h
  · -- A return that is put off stays in its frame.
    obtain ⟨_, _, ht, h⟩ := bind_eq_ok_iff.mp h
    obtain rfl := onThread_eq_ok_iff.mp ht
    obtain ⟨rfl, rfl⟩ := pure_eq_ok_iff.mp h
    have same : (scene.thread.enterFinally form.exit).calls = scene.thread.calls := by
      unfold Thread.enterFinally
      split <;> rfl
    exact absurd (same ▸ pops) (Nat.lt_irrefl _)
  · obtain ⟨_, _, hc, h⟩ := bind_eq_ok_iff.mp h
    obtain ⟨rfl, rfl⟩ := ofThread_eq_ok_iff.mp hc
    cases top : scene.thread.calls.back? with
    | none =>
        rw [top] at h
        obtain ⟨rfl, rfl⟩ := pure_eq_ok_iff.mp h
        exact absurd pops (Nat.lt_irrefl _)
    | some call =>
        rw [top] at h
        obtain ⟨_, _, hf, h⟩ := bind_eq_ok_iff.mp h
        obtain ⟨rfl, rfl⟩ := ofThread_eq_ok_iff.mp hf
        obtain ⟨_, _, hd, h⟩ := bind_eq_ok_iff.mp h
        obtain ⟨rfl, rfl⟩ := ofThread_eq_ok_iff.mp hd
        obtain ⟨_, _, hp, h⟩ := bind_eq_ok_iff.mp h
        obtain rfl := onThread_eq_ok_iff.mp hp
        obtain ⟨_, _, hl, h⟩ := bind_eq_ok_iff.mp h
        obtain ⟨stack, rfl, left⟩ := leaveFrame_eq_ok hl
        obtain ⟨_, _, hr, h⟩ := bind_eq_ok_iff.mp h
        obtain rfl := onThread_eq_ok_iff.mp hr
        obtain ⟨rfl, rfl⟩ := pure_eq_ok_iff.mp h
        refine ⟨rfl, call, stack, rfl, rfl, left.trans ?_⟩
        cases scene.thread.frame <;> rfl

theorem pop_of_back? {value : Value} (top : scene.thread.stack.slots.back? = some value) :
    pop setup scene = .ok value { scene with thread := { scene.thread with
      stack := { scene.thread.stack with slots := scene.thread.stack.slots.pop } } } := by
  refine onStack_eq_ok_iff.mpr ⟨_, ?_, rfl⟩
  unfold Stack.pop
  rw [top]

theorem execute_of_returned {instruction : Instruction} {returner : Thread}
    (returns : scene.thread.returned? instruction = some (returner, form)) :
    execute instruction setup scene = returnFrom form setup { scene with thread := returner } := by
  unfold execute
  dsimp only
  rcases Thread.returned?_eq_some returns with ⟨opcode, rfl, rfl⟩ |
    ⟨value, opcode, top, rfl, rfl⟩ | ⟨opcode, rfl, rfl⟩ |
    ⟨record, exit, opcode, current, phase, again, rfl⟩
  · rw [opcode]
  · rw [opcode]
    exact bind_of_ok (pop_of_back? top)
  · rw [opcode]
  · rw [opcode]
    change (currentPhase >>= _) setup scene = _
    rw [currentPhase, ofThread_bind, current, Option.map_some, phase]
    cases exit with
    | ret | retValue | retConstructor =>
        obtain rfl := Option.some.inj again
        rfl
    | fallThrough | branch | rethrow => cases again

end Step

namespace Act

def Stores (act : Act) (place : Nat) : Prop :=
  act.instruction.opcode = .storeLocal ∧
    act.before.dp + act.instruction.index.toNat = place

/-- Whether an instruction keeps the stack above a place, and takes no operands that it replaces
from under that place. -/
structure Above (floor : Nat) (act : Act) : Prop where
  depth : floor < act.after.stack.depth
  operands : floor + act.instruction.opcode.replaces ≤ act.before.stack.depth

/-- Whether a method of bytecode is entered by a call, and is left by the last of some instructions.
It may be that of a class that is initialized. -/
structure Encloses (call : Act) (between : List Act) (back : Act) : Prop where
  calls : call.instruction.opcode = .call ∨ call.instruction.opcode = .invoke ∨
    call.instruction.opcode = .loadClass
  enters : call.after.calls.size = call.before.calls.size + 1
  stays : ∀ act ∈ between, call.before.calls.size < act.after.calls.size
  leaves : back.after.calls.size = call.before.calls.size

instance (floor : Nat) (act : Act) : Decidable (act.Above floor) :=
  decidable_of_iff (floor < act.after.stack.depth ∧
      floor + act.instruction.opcode.replaces ≤ act.before.stack.depth)
    ⟨fun ⟨depth, operands⟩ => ⟨depth, operands⟩, fun ⟨depth, operands⟩ => ⟨depth, operands⟩⟩

instance (call : Act) (between : List Act) (back : Act) : Decidable (call.Encloses between back) :=
  decidable_of_iff ((call.instruction.opcode = .call ∨ call.instruction.opcode = .invoke ∨
        call.instruction.opcode = .loadClass) ∧
      call.after.calls.size = call.before.calls.size + 1 ∧
      (∀ act ∈ between, call.before.calls.size < act.after.calls.size) ∧
      back.after.calls.size = call.before.calls.size)
    ⟨fun ⟨calls, enters, stays, leaves⟩ => ⟨calls, enters, stays, leaves⟩,
      fun ⟨calls, enters, stays, leaves⟩ => ⟨calls, enters, stays, leaves⟩⟩

end Act

namespace Machine

variable {setup : Setup}

theorem Proceeds.get?_eq {machine : Machine} {thread next : Thread} {act : Act}
    (h : machine.Proceeds setup thread (some act) next) {floor place : Nat}
    (high : floor < thread.stack.depth) (above : act.Above floor) (inside : place < floor)
    (spares : ¬ act.Stores place) : next.stack.get? place = thread.stack.get? place := by
  obtain ⟨rfl, -, -, world, signal, result, execute, answered⟩ := h.executes
  have start : act.before.stack = thread.stack := h.stack_before
  rw [← start] at high ⊢
  suffices floor < result.thread.stack.depth ∧
      act.after.stack.get? place = result.thread.stack.get? place by
    rw [this.2]
    exact Step.execute_get? execute h.ip_before high above.operands this.1 inside
      fun stores same => spares ⟨stores, same⟩
  have depth := above.depth
  generalize asked : signal = answer at answered
  generalize act.after = after at answered depth
  cases answered with
  | idles _ _ idles =>
      rw [idles.stack] at depth ⊢
      exact ⟨depth, rfl⟩
  | forks _ _ heaped =>
      obtain ⟨-, rfl⟩ := Step.execute_fork execute (Step.opcode_of_fork execute h.ip_before asked)
      exact ⟨high, heaped.get? (Nat.lt_trans inside high)⟩

/-- The values under a place are left alone by a course that stays above it and does not store
anything there. -/
theorem Course.get?_eq {first machine : Machine} {start thread : Thread} {acts : List Act}
    (h : Course setup first start acts machine thread) {floor : Nat}
    (high : floor < start.stack.depth) (above : ∀ act ∈ acts, act.Above floor) :
    floor < thread.stack.depth ∧ ∀ place < floor, (∀ act ∈ acts, ¬ act.Stores place) →
      thread.stack.get? place = start.stack.get? place := by
  induction h with
  | start => exact ⟨high, fun _ _ _ => rfl⟩
  | @step acts machine next thread after act course _ _ proceeds ih =>
      obtain ⟨there, kept⟩ := ih fun act member => above act (List.mem_append_left _ member)
      cases act with
      | none =>
          cases proceeds with
          | rests rests =>
              obtain ⟨zeros, heaped⟩ := rests.waits.stack
              refine ⟨heaped.depth ▸ Nat.lt_add_right _ there, fun place inside spares => ?_⟩
              rw [heaped.get? (Nat.lt_trans inside there)]
              exact kept place inside fun act member => spares act (List.mem_append_left _ member)
      | some act =>
          have last : act ∈ acts ++ [act] := List.mem_append_right _ (List.mem_singleton.mpr rfl)
          have here := above act last
          refine ⟨?_, fun place inside spares => ?_⟩
          · obtain ⟨rfl, -⟩ := proceeds.executes
            exact here.depth
          · exact (proceeds.get?_eq there here inside (spares act last)).trans
              (kept place inside fun act member => spares act (List.mem_append_left _ member))

theorem Proceeds.called {machine : Machine} {thread next : Thread} {act : Act}
    (h : machine.Proceeds setup thread (some act) next)
    (calls : act.instruction.opcode = .call ∨ act.instruction.opcode = .invoke ∨
      act.instruction.opcode = .loadClass)
    (enters : act.before.calls.size < act.after.calls.size) :
    ∃ base height key kind declaring,
      Step.Convention setup act.instruction act.before base height key kind ∧
      act.after.calls = act.before.calls.push ⟨act.before.dp, act.instruction.returnAddress,
        act.before.moduleId, act.before.frame⟩ ∧
      act.after.handlers = act.before.handlers ∧ act.after.dp = base ∧
      act.after.frame = .method declaring key kind ∧
      ∀ place < base, place < act.after.stack.depth →
        act.after.stack.get? place = act.before.stack.get? place := by
  obtain ⟨rfl, -, -, world, signal, result, execute, answered⟩ := h.executes
  obtain ⟨rfl, called⟩ := Step.execute_called execute h.ip_before calls
  have size := congrArg (·.calls.size) answered.registers
  change act.after.calls.size = result.thread.calls.size at size
  have stack : act.after.stack = result.thread.stack := answered.stack nofun
  obtain ⟨-, same⟩ | ⟨base, height, key, kind, convention, called⟩ := called
  · exact absurd (congrArg Array.size same) (by dsimp only; omega)
  · cases called with
    | native same =>
        have same : result.thread.calls = act.before.calls := congrArg Registers.calls same
        exact absurd (congrArg Array.size same) (by omega)
    | @entered entry _ _ kept registers =>
        have registers := answered.registers.trans registers
        have under : base ≤ height := by
          cases convention <;> omega
        exact ⟨base, height, key, kind, entry.declaring, convention,
          congrArg Registers.calls registers, congrArg Registers.handlers registers,
          congrArg Registers.dp registers, congrArg Registers.frame registers,
          fun place inside there => stack ▸ kept place (by omega) (stack ▸ there)⟩

theorem Proceeds.returned {machine : Machine} {thread next : Thread} {act : Act}
    (h : machine.Proceeds setup thread (some act) next) (nested : thread.registers.Nested)
    {returner : Thread} {form : ReturnForm}
    (returns : act.before.returned? act.instruction = some (returner, form))
    (pops : act.after.calls.size < thread.calls.size) :
    ∃ call, thread.calls.back? = some call ∧
      act.after.registers =
        { calls := thread.calls.pop
          handlers := thread.registers.outerTries thread.calls.size
          dp := call.dp
          ip := call.returnIp
          moduleId := call.moduleId
          frame := call.frame } ∧
      act.after.stack.slots.toList = returner.stack.slots.toList.take thread.dp ++
        form.leaves thread.frame.kind (returner.stack.get? thread.dp) := by
  obtain ⟨rfl, -, idles, world, signal, result, execute, answered⟩ := h.executes
  obtain ⟨same, suffix, outer⟩ := Thread.returned?_frame returns
  have before := idles.registers
  have own : act.before.calls = thread.calls := congrArg Registers.calls before
  have calls : returner.calls = thread.calls := (congrArg Registers.calls same).trans own
  have dp : returner.dp = thread.dp :=
    (congrArg Registers.dp same).trans (congrArg Registers.dp before)
  have frame : returner.frame = thread.frame :=
    (congrArg Registers.frame same).trans (congrArg Registers.frame before)
  have after : act.after.calls = result.thread.calls :=
    congrArg Registers.calls answered.registers
  rw [Step.execute_of_returned returns] at execute
  obtain ⟨rfl, call, stack, top, popped, left⟩ :=
    Step.returnFrom_popped execute (by dsimp only; rw [← after, calls]; exact pops)
  have stays : returner.registers.Nested :=
    (before ▸ nested.withIp _ : act.before.registers.Nested).suffix suffix
      (Nat.le_of_eq (congrArg Array.size (own.trans calls.symm)))
  have handlers : returner.popCall.handlers = thread.registers.outerTries thread.calls.size := by
    rw [Thread.popCall_handlers stays (by rw [calls]; omega), calls, ← own, outer, before]
    rfl
  refine ⟨call, calls ▸ top, answered.registers.trans ?_, ?_⟩
  · rw [popped, ← handlers, ← calls]
    rfl
  · rw [answered.stack nofun, popped, ← dp, ← frame]
    exact left

/-- A method that has returned goes back to what the call has kept. The result stands where the
receiver has been, or at the end of the stack if that is not so high any more. -/
theorem Course.takes_up {first machine : Machine} {start thread : Thread} {call back : Act}
    {between : List Act} (reachable : Reachable setup first)
    (course : Course setup first start (call :: between ++ [back]) machine thread)
    (encloses : call.Encloses between back) {returner : Thread} {form : ReturnForm}
    (returns : back.before.returned? back.instruction = some (returner, form)) :
    ∃ base height key kind declaring,
      Step.Convention setup call.instruction call.before base height key kind ∧
      call.after.dp = base ∧ call.after.frame = .method declaring key kind ∧
      back.after.registers =
        { call.before.registers with ip := call.instruction.returnAddress } ∧
      back.after.stack.slots.toList = returner.stack.slots.toList.take base ++
        form.leaves kind (returner.stack.get? base) := by
  obtain ⟨calls, enters, stays, leaves⟩ := encloses
  obtain ⟨origin, entered, caller, waits, calling, step, course⟩ := course.uncons
  obtain ⟨before, waiting, inner, returning⟩ := course.unsnoc
  have reached : Reachable setup entered := .step (waits.reachable reachable) step fun _ => trivial
  obtain ⟨base, height, key, kind, declaring, convention, pushed, handlers, rfl, frame, -⟩ :=
    calling.called calls (by omega)
  -- The method has stayed, and is current when it returns.
  obtain ⟨there, same⟩ := inner.sameUpTo reached (Nat.le_refl _) fun act member => by
    have := stays act member
    omega
  have nested := ((inner.reachable reached).framed waiting inner.mem).nested
  obtain ⟨record, top, after, left⟩ := returning.returned nested returns (by omega)
  have less : back.after.calls.size = waiting.calls.size - 1 :=
    (congrArg (·.calls.size) after).trans Array.size_pop
  have here : waiting.calls.size = call.after.calls.size := by omega
  have deeper : call.before.calls.size < call.after.calls.size := by omega
  obtain ⟨dp, -, current⟩ := same.current_eq rfl here
  -- It goes back to what the call has kept.
  have outer : waiting.registers.outerTries waiting.calls.size = call.before.handlers := by
    have nested := ((waits.reachable reachable).framed caller waits.mem).nested
    have callers : call.before.registers.Nested := calling.moves.2.1 ▸ nested.withIp _
    rw [here]
    exact same.outerTries_eq callers handlers deeper
  have kept : waiting.calls = call.before.calls.push ⟨call.before.dp,
      call.instruction.returnAddress, call.before.moduleId, call.before.frame⟩ :=
    (same.calls_eq rfl here).trans pushed
  rw [kept, Array.back?_push] at top
  obtain rfl := Option.some.inj top
  rw [outer, kept, Array.pop_push] at after
  have dp : waiting.dp = call.after.dp := dp
  have current : waiting.frame = .method declaring key kind := current.trans frame
  rw [dp, current] at left
  exact ⟨_, height, key, kind, declaring, convention, rfl, frame, after, left⟩

/-- A method that has never taken its receiver off the stack returns with what lies under that,
except for what has been stored there. -/
theorem Course.spares_under {first machine : Machine} {start thread : Thread} {call back : Act}
    {between : List Act}
    (course : Course setup first start (call :: between ++ [back]) machine thread)
    (encloses : call.Encloses between back) {returner : Thread} {form : ReturnForm}
    (returns : back.before.returned? back.instruction = some (returner, form))
    (high : call.after.dp < call.after.stack.depth)
    (above : ∀ act ∈ between, act.Above call.after.dp) :
    call.after.dp ≤ returner.stack.depth ∧
      ∀ place < call.after.dp, (∀ act ∈ between, ¬ act.Stores place) →
        returner.stack.get? place = call.before.stack.get? place := by
  obtain ⟨origin, entered, caller, -, calling, -, course⟩ := course.uncons
  obtain ⟨before, waiting, inner, returning⟩ := course.unsnoc
  have enters := encloses.enters
  obtain ⟨base, -, -, -, -, -, -, -, rfl, -, given⟩ :=
    calling.called encloses.calls (by omega)
  obtain ⟨deep, untouched⟩ := inner.get?_eq high above
  obtain ⟨enough, keeps⟩ := Thread.returned?_stack returns
  rw [returning.stack_before] at enough keeps
  refine ⟨by omega, fun place inside spares => ?_⟩
  calc returner.stack.get? place
      = waiting.stack.get? place := keeps place (by omega)
    _ = call.after.stack.get? place := untouched place inside spares
    _ = call.before.stack.get? place := given place inside (by omega)

/-- A method that has returned has had no effect on the thread that its caller can see but for the
result and for what has been stored in the caller's part of the stack. The call may have been an
instruction `call` or `invoke` or the initialization of a class by `loadclass`, which is executed
again then. The method may have called others, caught what they have thrown, put its return off
until the end of a finally body, or made copies of the thread, which return for themselves. -/
theorem call_returns {first machine : Machine} {start thread : Thread} {call back : Act}
    {between : List Act} (reachable : Reachable setup first)
    (course : Course setup first start (call :: between ++ [back]) machine thread)
    (encloses : call.Encloses between back) {returner : Thread} {form : ReturnForm}
    (returns : back.before.returned? back.instruction = some (returner, form))
    (high : call.after.dp < call.after.stack.depth)
    (above : ∀ act ∈ between, act.Above call.after.dp) :
    ∃ base height key kind declaring kept,
      Step.Convention setup call.instruction call.before base height key kind ∧
      call.after.dp = base ∧ call.after.frame = .method declaring key kind ∧
      back.after.registers =
        { call.before.registers with ip := call.instruction.returnAddress } ∧
      back.after.stack.slots.toList = kept ++ form.leaves kind (returner.stack.get? base) ∧
      kept.length = base ∧
      ∀ place < base, (∀ act ∈ between, ¬ act.Stores place) →
        kept[place]? = call.before.stack.get? place := by
  obtain ⟨_, height, key, kind, declaring, convention, rfl, frame, registers, stack⟩ :=
    course.takes_up reachable encloses returns
  obtain ⟨enough, keeps⟩ := course.spares_under encloses returns high above
  refine ⟨_, height, key, kind, declaring, _, convention, rfl, frame, registers, stack,
    List.length_take_of_le enough, fun place inside spares => ?_⟩
  rw [List.getElem?_take_of_lt inside, Array.getElem?_toList]
  exact keeps place inside spares

/-- Whether a call has changed a value under its frame, although the method that it has entered has
kept to its own part of the stack. -/
def overwrites (call : Act) (between : List Act) (back : Act) : Bool :=
  call.Encloses between back ∧
    (back.before.returned? back.instruction).any (·.2 = .void) ∧
    call.after.dp < call.after.stack.depth ∧ (∀ act ∈ between, act.Above call.after.dp) ∧
    ∃ place < call.after.dp, back.after.stack.get? place ≠ call.before.stack.get? place

def overwritesWithin : List Act → Bool
  | call :: rest => rest.getLast?.any fun back => overwrites call rest.dropLast back
  | [] => false

theorem of_overwritesWithin {acts : List Act} (h : overwritesWithin acts = true) :
    ∃ call between back returner, acts = call :: between ++ [back] ∧
      call.Encloses between back ∧
      back.before.returned? back.instruction = some (returner, .void) ∧
      call.after.dp < call.after.stack.depth ∧ (∀ act ∈ between, act.Above call.after.dp) ∧
      ∃ place < call.after.dp, back.after.stack.get? place ≠ call.before.stack.get? place := by
  cases acts with
  | nil => cases h
  | cons call rest =>
      obtain ⟨back, ends, happens⟩ := (Option.any_eq_true _ _).mp h
      obtain ⟨encloses, returns, high, above, changes⟩ := of_decide_eq_true happens
      obtain ⟨⟨returner, form⟩, returns, void⟩ := (Option.any_eq_true _ _).mp returns
      obtain rfl : form = .void := of_decide_eq_true void
      refine ⟨call, rest.dropLast, back, returner, ?_, encloses, returns, high, above, changes⟩
      rw [List.cons_append, List.dropLast_append_getLast? back ends]

/-- The method that catches the throw has kept to its own part of the stack, but the one that it has
called has not. -/
theorem catchesThrow_overwrites :
    ∃ first last call between back returner, Reachable catchesThrow first ∧
      Course catchesThrow first first.roster.running (call :: between ++ [back]) last
        last.roster.running ∧
      call.Encloses between back ∧
      back.before.returned? back.instruction = some (returner, .void) ∧
      call.after.dp < call.after.stack.depth ∧ (∀ act ∈ between, act.Above call.after.dp) ∧
      ∃ place < call.after.dp, back.after.stack.get? place ≠ call.before.stack.get? place := by
  have happens : reachesSatisfying catchesThrow 4 (fun first =>
      (first.course? catchesThrow 11).any fun course => overwritesWithin course.1) = true := by
    decide +kernel
  obtain ⟨first, reachable, found⟩ := exists_of_reachesSatisfying happens
  obtain ⟨⟨acts, last⟩, course, happens⟩ := (Option.any_eq_true _ _).mp found
  obtain ⟨call, between, back, returner, rfl, overwritten⟩ := of_overwritesWithin happens
  exact ⟨first, last, call, between, back, returner, reachable, Course.of_course? course,
    overwritten⟩

/-- A call can change what lies under its receiver although the stack has never been lower. -/
theorem call_overwrites_stack :
    ¬ ∀ (setup : Setup) (first machine : Machine) (start thread : Thread) (call back : Act)
      (between : List Act), Reachable setup first →
      Course setup first start (call :: between ++ [back]) machine thread →
      call.Encloses between back → (back.before.returned? back.instruction).isSome →
      call.after.dp < call.after.stack.depth → (∀ act ∈ between, act.Above call.after.dp) →
      ∀ place < call.after.dp, back.after.stack.get? place = call.before.stack.get? place := by
  intro keeps
  obtain ⟨first, last, call, between, back, returner, reachable, course, encloses, returns, high,
    above, place, inside, changes⟩ := catchesThrow_overwrites
  exact changes (keeps _ first last _ _ call back between reachable course encloses
    (by rw [returns]; rfl) high above place inside)

/-- The method that has caught the throw returns to its caller, leaving nothing of the call. -/
theorem call_returns_catchesThrow :
    ∃ first last call between back returner, Reachable catchesThrow first ∧
      Course catchesThrow first first.roster.running (call :: between ++ [back]) last
        last.roster.running ∧
      call.Encloses between back ∧
      back.before.returned? back.instruction = some (returner, .void) ∧
      call.after.dp < call.after.stack.depth ∧ (∀ act ∈ between, act.Above call.after.dp) ∧
      back.after.registers =
        { call.before.registers with ip := call.instruction.returnAddress } := by
  obtain ⟨first, last, call, between, back, returner, reachable, course, encloses, returns, high,
    above, -⟩ := catchesThrow_overwrites
  obtain ⟨base, height, key, kind, declaring, kept, -, -, -, registers, -⟩ :=
    call_returns reachable course encloses returns high above
  exact ⟨first, last, call, between, back, returner, reachable, course, encloses, returns, high,
    above, registers⟩

end Machine

end ObjectMachine
