import ObjectMachine.Proofs.Code.Shrink
import ObjectMachine.Proofs.Machine.Registers

/-!
# Instructions in lockstep

Two threads are tied if they differ in the code addresses that they keep at most, and these
correspond. A correspondence that keeps the order of addresses lets tied threads stay tied:
whether a branch leaves a try construct depends on nothing but that order.
-/

namespace ObjectMachine

/-! ## What threads keep -/

section

variable (Address : Nat → Nat → Prop)

structure CallRecord.Tied (call call' : CallRecord) : Prop where
  dp : call.dp = call'.dp
  returnIp : Address call.returnIp call'.returnIp
  moduleId : call.moduleId = call'.moduleId
  frame : call.frame = call'.frame

def ExitAction.Tied : ExitAction → ExitAction → Prop
  | branch target, branch target' => Address target target'
  | exit, exit' => exit = exit'

def TryPhase.Tied : TryPhase → TryPhase → Prop
  | inFinally exit, inFinally exit' => exit.Tied Address exit'
  | phase, phase' => phase = phase'

structure TryRecord.Tied (record record' : TryRecord) : Prop where
  start : Address record.start record'.start
  onCatch : Option.Rel Address record.onCatch record'.onCatch
  onFinally : Address record.onFinally record'.onFinally
  phase : record.phase.Tied Address record'.phase
  moduleId : record.moduleId = record'.moduleId
  callDepth : record.callDepth = record'.callDepth
  dp : record.dp = record'.dp
  stackDepth : record.stackDepth = record'.stackDepth

structure Registers.Tied (registers registers' : Registers) : Prop where
  calls : List.Forall₂ (CallRecord.Tied Address) registers.calls.toList registers'.calls.toList
  handlers : List.Forall₂ (TryRecord.Tied Address) registers.handlers registers'.handlers
  dp : registers.dp = registers'.dp
  ip : Address registers.ip registers'.ip
  moduleId : registers.moduleId = registers'.moduleId
  frame : registers.frame = registers'.frame

structure Thread.Tied (thread thread' : Thread) : Prop where
  id : thread.id = thread'.id
  state : thread.state = thread'.state
  stack : thread.stack = thread'.stack
  registers : thread.registers.Tied Address thread'.registers

end

section

variable {Address : Nat → Nat → Prop}

theorem ExitAction.Tied.branch_or_eq {exit exit' : ExitAction} (h : exit.Tied Address exit') :
    (∃ target target', exit = .branch target ∧ exit' = .branch target' ∧ Address target target') ∨
      (∀ target, exit ≠ .branch target) ∧ exit = exit' := by
  cases exit with
  | branch target =>
      cases exit' with
      | branch target' => exact .inl ⟨target, target', rfl, rfl, h⟩
      | _ => cases h
  | _ =>
      cases exit' with
      | branch target' => cases h
      | _ => exact .inr ⟨nofun, h⟩

theorem ReturnForm.exit_tied (form : ReturnForm) (Address : Nat → Nat → Prop) :
    form.exit.Tied Address form.exit := by
  cases form <;> rfl

namespace TryPhase.Tied

theorem isInFinally {phase phase' : TryPhase} (h : phase.Tied Address phase') :
    phase.isInFinally = phase'.isInFinally := by
  cases phase <;> cases phase' <;> first | rfl | cases h

variable {phase : TryPhase}

theorem of_inTry (h : TryPhase.Tied Address .inTry phase) : phase = .inTry := by
  cases phase <;> first | rfl | cases h

theorem of_inCatch {exception : Value} (h : TryPhase.Tied Address (.inCatch exception) phase) :
    phase = .inCatch exception := by
  cases phase with
  | inCatch caught =>
      cases h
      rfl
  | _ => cases h

theorem of_inFinally {exit : ExitAction} (h : TryPhase.Tied Address (.inFinally exit) phase) :
    ∃ exit', phase = .inFinally exit' ∧ exit.Tied Address exit' := by
  cases phase with
  | inFinally exit' => exact ⟨exit', rfl, h⟩
  | _ => cases h

end TryPhase.Tied

namespace TryRecord.Tied

variable {record record' : TryRecord} (h : record.Tied Address record')

include h

theorem intercepts : record.intercepts = record'.intercepts := by
  have phase := h.phase
  unfold TryRecord.intercepts
  cases hp : record.phase <;> cases hp' : record'.phase <;> rw [hp, hp'] at phase <;>
    first | rfl | cases phase

theorem withPhase {phase phase' : TryPhase} (hp : phase.Tied Address phase') :
    TryRecord.Tied Address { record with phase } { record' with phase := phase' } :=
  { h with phase := hp }

/-- Whether an address lies in the try or catch body is a matter of order. -/
theorem covers {target target' : Nat}
    (order : ∀ {a a' b b'}, Address a a' → Address b b' → (a < b ↔ a' < b'))
    (ht : Address target target') : record.covers target = record'.covers target' := by
  have start := order ht h.start
  have finish := order ht h.onFinally
  unfold TryRecord.covers
  have start : record.start ≤ target ↔ record'.start ≤ target' := by omega
  rw [decide_eq_decide.mpr start, decide_eq_decide.mpr finish]

end TryRecord.Tied

namespace Thread.Tied

variable {thread thread' : Thread} (h : thread.Tied Address thread')

include h

theorem size : thread.calls.size = thread'.calls.size :=
  h.registers.calls.length_eq

theorem trace : thread.trace = thread'.trace := by
  have frames : thread'.calls.toList.map (·.frame) = thread.calls.toList.map (·.frame) :=
    map_eq_of_forall₂ (h.registers.calls.imp fun _ _ call => call.frame.symm)
  have frame : thread.frame = thread'.frame := h.registers.frame
  rw [Thread.trace, Thread.trace, frame, List.map_reverse, List.map_reverse, frames]

theorem withIp {ip ip' : Nat} (hip : Address ip ip') :
    Thread.Tied Address { thread with ip } { thread' with ip := ip' } :=
  { h with registers := { h.registers with ip := hip } }

theorem withHandlers {handlers handlers' : List TryRecord}
    (hh : List.Forall₂ (TryRecord.Tied Address) handlers handlers') :
    Thread.Tied Address { thread with handlers } { thread' with handlers := handlers' } :=
  { h with registers := { h.registers with handlers := hh } }

/-- The innermost construct is left. -/
theorem leave :
    Thread.Tied Address { thread with handlers := thread.handlers.tail }
      { thread' with handlers := thread'.handlers.tail } := by
  have handlers : List.Forall₂ _ thread.handlers thread'.handlers := h.registers.handlers
  refine h.withHandlers ?_
  rw [← List.drop_one, ← List.drop_one]
  exact List.forall₂_drop 1 handlers

theorem withStack (change : Stack → Stack) :
    Thread.Tied Address { thread with stack := change thread.stack }
      { thread' with stack := change thread'.stack } :=
  { h with stack := congrArg change h.stack, registers := { h.registers with } }

theorem withState (state : ThreadState) :
    Thread.Tied Address { thread with state } { thread' with state } :=
  { h with state := rfl, registers := { h.registers with } }

theorem currentTry? :
    Option.Rel (TryRecord.Tied Address) thread.currentTry? thread'.currentTry? := by
  have handlers : List.Forall₂ _ thread.handlers thread'.handlers := h.registers.handlers
  unfold Thread.currentTry?
  rw [h.size]
  generalize thread.handlers = handlers at *
  generalize thread'.handlers = handlers' at *
  cases handlers with
  | nil => exact .none
  | cons first _ =>
      dsimp only
      rw [first.callDepth]
      split
      · exact .some first
      · exact .none

theorem interceptor? :
    Option.Rel (TryRecord.Tied Address) thread.interceptor? thread'.interceptor? := by
  have current := h.currentTry?
  unfold Thread.interceptor?
  generalize thread.currentTry? = found at *
  generalize thread'.currentTry? = found' at *
  cases current with
  | none => exact .none
  | @some record record' tied =>
      rw [Option.filter_some, Option.filter_some, tied.intercepts]
      split
      · exact .some tied
      · exact .none

theorem enterFinally {exit exit' : ExitAction} (he : exit.Tied Address exit') :
    (thread.enterFinally exit).Tied Address (thread'.enterFinally exit') := by
  have handlers : List.Forall₂ _ thread.handlers thread'.handlers := h.registers.handlers
  unfold Thread.enterFinally
  cases hh : thread.handlers with
  | nil =>
      rw [hh] at handlers
      rw [List.forall₂_nil_left_iff.mp handlers]
      exact h
  | cons record outer =>
      rw [hh] at handlers
      obtain ⟨record', outer', first, others, same⟩ := List.forall₂_cons_left_iff.mp handlers
      have finishes : (TryPhase.inFinally exit).Tied Address (.inFinally exit') := he
      rw [same]
      exact {
        id := h.id
        state := h.state
        stack := by
          change thread.stack.truncate record.stackDepth =
            thread'.stack.truncate record'.stackDepth
          rw [h.stack, first.stackDepth]
        registers := { h.registers with
          handlers := .cons (first.withPhase finishes) others
          ip := first.onFinally } }

theorem branchTo {target target' : Nat}
    (order : ∀ {a a' b b'}, Address a a' → Address b b' → (a < b ↔ a' < b'))
    (ht : Address target target') :
    (thread.branchTo target).Tied Address (thread'.branchTo target') := by
  have within := h.interceptor?
  unfold Thread.branchTo
  cases hw : thread.interceptor? <;> cases hw' : thread'.interceptor? <;> rw [hw, hw'] at within
  · exact h.withIp ht
  · cases within
  · cases within
  · cases within with
    | some tied =>
        dsimp only
        rw [tied.covers order ht]
        split
        · exact h.withIp ht
        · exact h.enterFinally ht

theorem rewind {record record' : TryRecord} (hr : record.Tied Address record') :
    (thread.rewind record).Tied Address (thread'.rewind record') where
  id := h.id
  state := h.state
  stack := by
    change thread.stack.truncate record.stackDepth = thread'.stack.truncate record'.stackDepth
    rw [h.stack, hr.stackDepth]
  registers := {
    calls := by
      change List.Forall₂ _ (thread.calls.shrink record.callDepth).toList
        (thread'.calls.shrink record'.callDepth).toList
      rw [Array.toList_shrink, Array.toList_shrink, hr.callDepth]
      exact List.forall₂_take _ h.registers.calls
    handlers := h.registers.handlers
    dp := hr.dp
    ip := h.registers.ip
    moduleId := hr.moduleId
    frame := by
      have own : thread.frame = thread'.frame := h.registers.frame
      have call := forall₂_getElem? h.registers.calls record.callDepth
      simp only [Thread.registers, Thread.rewind, ← Array.getElem?_toList, ← hr.callDepth, own]
        at call ⊢
      generalize thread.calls.toList[record.callDepth]? = found at call ⊢
      generalize thread'.calls.toList[record.callDepth]? = found' at call ⊢
      cases call with
      | none => rfl
      | some tied => exact tied.frame }

theorem popCall : thread.popCall.Tied Address thread'.popCall := by
  have calls : List.Forall₂ _ thread.calls.toList thread'.calls.toList := h.registers.calls
  refine ⟨h.id, h.state, h.stack, { h.registers with calls := ?_, handlers := ?_ }⟩
  · change List.Forall₂ _ thread.calls.pop.toList thread'.calls.pop.toList
    rw [Array.toList_pop, Array.toList_pop, List.dropLast_eq_take, List.dropLast_eq_take,
      calls.length_eq]
    exact List.forall₂_take _ calls
  · refine forall₂_dropWhile h.registers.handlers fun record record' tied => ?_
    rw [Array.size_pop, Array.size_pop, h.size, tied.callDepth]

theorem lastCall : Option.Rel (CallRecord.Tied Address) thread.calls.back? thread'.calls.back? := by
  have calls : List.Forall₂ _ thread.calls.toList thread'.calls.toList := h.registers.calls
  rw [Array.back?_eq_getElem?, Array.back?_eq_getElem?, h.size, ← Array.getElem?_toList,
    ← Array.getElem?_toList]
  exact forall₂_getElem? calls _

theorem restore {call call' : CallRecord} (hc : call.Tied Address call') :
    (thread.restore call).Tied Address (thread'.restore call') where
  id := h.id
  state := h.state
  stack := h.stack
  registers := {
    calls := h.registers.calls
    handlers := h.registers.handlers
    dp := hc.dp
    ip := hc.returnIp
    moduleId := hc.moduleId
    frame := hc.frame }

end Thread.Tied

end

/-! ## Instructions -/

structure Instruction.Tied (Address : Nat → Nat → Prop) (instruction instruction' : Instruction) :
    Prop where
  opcode : instruction.opcode = instruction'.opcode
  offset : Address instruction.offset instruction'.offset
  operand : instruction.operand.Matches (fun distance distance' =>
    Address (instruction.target distance) (instruction'.target distance')) instruction'.operand
  same : instruction.opcode.shape.isBranch = false → instruction.operand = instruction'.operand

theorem Instruction.Tied.jumpTarget {Address : Nat → Nat → Prop}
    {instruction instruction' : Instruction}
    (h : instruction.Tied Address instruction') :
    Address instruction.jumpTarget instruction'.jumpTarget := by
  have operand := h.operand
  have own : Address (instruction.target 0) (instruction'.target 0) := by
    rw [target_zero, target_zero]
    exact h.offset
  unfold Instruction.jumpTarget
  generalize instruction.operand = saved, instruction'.operand = saved' at operand
  cases saved with
  | offset distance =>
      cases saved' with
      | offset distance' => exact operand
      | _ => cases operand
  | _ =>
      cases saved' with
      | offset distance' => cases operand
      | _ => exact own

theorem Thread.Tied.entered {Address : Nat → Nat → Prop} {thread thread' : Thread}
    (ht : thread.Tied Address thread') {instruction instruction' : Instruction}
    (h : instruction.Tied Address instruction') :
    (thread.entered instruction).Tied Address (thread'.entered instruction') := by
  have operand := h.operand
  have own : Address (instruction.target 0) (instruction'.target 0) := by
    rw [Instruction.target_zero, Instruction.target_zero]
    exact h.offset
  have tries : Option.Rel Address (thread.entered instruction).onCatch
        (thread'.entered instruction').onCatch ∧
      Address (thread.entered instruction).onFinally (thread'.entered instruction').onFinally := by
    unfold Thread.entered
    generalize instruction.operand = saved, instruction'.operand = saved' at operand
    cases saved with
    | tryPair onCatch onFinally =>
        cases saved' with
        | tryPair onCatch' onFinally' =>
            obtain ⟨missing, caught, finished⟩ := operand
            refine ⟨?_, finished⟩
            dsimp only
            by_cases none : onCatch = 0
            · rw [if_pos none, if_pos (missing.mp none)]
              exact .none
            · rw [if_neg none, if_neg (mt missing.mpr none)]
              exact .some (caught none)
        | _ => cases operand
    | _ =>
        cases saved' with
        | tryPair onCatch' onFinally' => cases operand
        | _ => exact ⟨.none, own⟩
  exact {
    start := h.offset
    onCatch := tries.1
    onFinally := tries.2
    phase := rfl
    moduleId := ht.registers.moduleId
    callDepth := ht.size
    dp := ht.registers.dp
    stackDepth := congrArg Stack.depth ht.stack }

/-- The coupling of two programs that tied threads execute. -/
def Coupling.lockstep {Address : Nat → Nat → Prop} {left right : Setup}
    (similar : left.Similar Address right) : Coupling where
  left := left
  right := right
  Address := Address
  similar := similar
  Kept scene scene' := scene.thread.Tied Address scene'.thread ∧ scene.world = scene'.world
  alike := fun ⟨thread, world⟩ =>
    ⟨thread.id, thread.state, thread.stack, thread.registers.dp, thread.registers.moduleId,
      congrArg Frame.declaring? thread.registers.frame, world⟩
  rebuild := by
    rintro scene scene' next next' ⟨thread, -⟩ rests rests' alike
    refine ⟨⟨alike.id, alike.state, alike.stack, ?_⟩, alike.world⟩
    rw [rests.registers, rests'.registers]
    exact thread.registers

namespace Coupling.Agree

open Step

variable {Address : Nat → Nat → Prop} {left right : Setup} {similar : left.Similar Address right}

theorem of_tied {change change' : Thread → Thread}
    (h : ∀ {thread thread'}, thread.Tied Address thread' →
      (change thread).Tied Address (change' thread')) :
    (lockstep similar).Agree Eq (onThread change) (onThread change') :=
  of_onThread fun hs => ⟨h hs.1, hs.2⟩

theorem of_part {part : Thread → α} {part' : Thread → β} {tie : α → β → Prop}
    (h : ∀ {thread thread'}, thread.Tied Address thread' → tie (part thread) (part' thread')) :
    (lockstep similar).Agree tie (ofThread part) (ofThread part') :=
  of_ofThread fun hs => h hs.1

/-! ### Branches -/

section

variable (order : ∀ {a a' b b'}, Address a a' → Address b b' → (a < b ↔ a' < b'))

include order

theorem of_jump {target target' : Nat} (ht : Address target target') :
    (lockstep similar).Agree Eq (jump target) (jump target') :=
  of_tied fun h => h.branchTo order ht

theorem of_jumpByCase {instruction instruction' : Instruction}
    (h : instruction.Tied Address instruction') :
    (lockstep similar).Agree Eq (jumpByCase instruction) (jumpByCase instruction') := by
  refine of_pop.bind fun value => ?_
  cases value.asInteger? with
  | none => exact of_throw _
  | some number =>
      have operand := h.operand
      dsimp only
      generalize instruction.operand = saved, instruction'.operand = saved' at operand
      cases saved with
      | table distances =>
          cases saved' with
          | table distances' =>
              have selected := forall₂_getElem? operand number.toInt.toNat
              dsimp only
              generalize distances[number.toInt.toNat]? = found at selected ⊢
              generalize distances'[number.toInt.toNat]? = found' at selected ⊢
              split
              · cases selected with
                | none => exact of_pure rfl
                | some tied => exact of_jump order tied
              · exact of_pure rfl
          | _ => cases operand
      | _ =>
          cases saved' with
          | table distances' => cases operand
          | _ => exact of_pure rfl

end

/-! ### Returns and throws -/

theorem of_returnFrom (form : ReturnForm) :
    (lockstep similar).Agree Eq (returnFrom form) (returnFrom form) := by
  refine (of_part fun h => h.interceptor?).bindWith fun record record' hr => ?_
  have intercepted : record.isSome = record'.isSome := by
    cases hr <;> rfl
  rw [intercepted]
  split
  · exact (of_tied fun h => h.enterFinally (form.exit_tied _)).bind fun _ => of_pure rfl
  · refine (of_part fun h => h.lastCall).bindWith fun call call' hc => ?_
    cases hc with
    | none => exact of_pure rfl
    | some tied =>
        refine (of_part fun h => h.registers.frame).bind fun frame =>
          (of_part fun h => h.registers.dp).bind fun dp =>
            (of_tied fun h => h.popCall).bind fun _ =>
            (of_leaveFrame _ _ _).bind fun _ => (of_tied fun h => h.restore tied).bind fun _ =>
              of_pure rfl

theorem of_raise (exception : Value) :
    (lockstep similar).Agree Eq (raise exception) (raise exception) := by
  have finished : ∀ record record' : TryRecord, record.Tied Address record' →
      record.phase.isInFinally = record'.phase.isInFinally :=
    fun _ _ tied => tied.phase.isInFinally
  refine (of_tied fun h => h.withHandlers
    (forall₂_dropWhile h.registers.handlers finished)).bind fun _ =>
      (of_part fun h => h.registers.handlers).bindWith fun handlers handlers' hh => ?_
  cases hh with
  | nil => exact (of_describe _).bind fun _ => of_throw _
  | @cons record record' outer outer' first others =>
      refine (of_tied fun h => h.rewind first).bind fun _ => ?_
      have passes : (lockstep similar).Agree Eq
          (onThread (·.enterFinally (.rethrow exception)))
          (onThread (·.enterFinally (.rethrow exception))) :=
        of_tied fun h => h.enterFinally rfl
      obtain ⟨start, onCatch, onFinally, phase, moduleId, callDepth, dp, stackDepth⟩ := record
      obtain ⟨start', onCatch', onFinally', phase', moduleId', callDepth', dp', stackDepth'⟩ :=
        record'
      have phases : phase.Tied Address phase' := first.phase
      have handler : Option.Rel Address onCatch onCatch' := first.onCatch
      have caught : TryPhase.Tied Address (.inCatch exception) (.inCatch exception) := rfl
      cases phase with
      | inTry =>
          obtain rfl := phases.of_inTry
          cases handler with
          | none => exact passes
          | some tied =>
              exact (of_tied fun h => h.withHandlers (.cons (first.withPhase caught) others)).bind
                fun _ => (of_push exception).bind fun _ => of_tied fun h => h.withIp tied
      | inCatch before =>
          obtain rfl := phases.of_inCatch
          exact passes
      | inFinally exit =>
          obtain ⟨exit', rfl, -⟩ := phases.of_inFinally
          exact passes

theorem of_enterTry {instruction instruction' : Instruction}
    (h : instruction.Tied Address instruction') :
    (lockstep similar).Agree Eq (enterTry instruction) (enterTry instruction') := by
  rw [Thread.enterTry_eq_entered, Thread.enterTry_eq_entered]
  exact of_tied fun ht => ht.withHandlers (.cons (ht.entered h) ht.registers.handlers)

theorem of_currentPhase :
    (lockstep similar).Agree (Option.Rel (TryPhase.Tied Address)) currentPhase currentPhase := by
  refine of_part fun {thread thread'} h => ?_
  have current := h.currentTry?
  generalize thread.currentTry? = found at current ⊢
  generalize thread'.currentTry? = found' at current ⊢
  cases current with
  | none => exact .none
  | some tied => exact .some tied.phase

theorem of_leaveTry : (lockstep similar).Agree Eq leaveTry leaveTry := by
  refine of_currentPhase.bindWith fun phase phase' hp => ?_
  cases hp with
  | none => exact of_throw _
  | @some phase phase' tied =>
      cases phase with
      | inTry =>
          rw [tied.of_inTry]
          exact of_tied fun h => h.enterFinally rfl
      | inCatch caught =>
          rw [tied.of_inCatch]
          exact of_throw _
      | inFinally exit =>
          obtain ⟨exit', rfl, -⟩ := tied.of_inFinally
          exact of_throw _

theorem of_leaveCatch : (lockstep similar).Agree Eq leaveCatch leaveCatch := by
  refine of_currentPhase.bindWith fun phase phase' hp => ?_
  cases hp with
  | none => exact of_throw _
  | @some phase phase' tied =>
      cases phase with
      | inTry =>
          rw [tied.of_inTry]
          exact of_throw _
      | inCatch caught =>
          rw [tied.of_inCatch]
          exact of_tied fun h => h.enterFinally rfl
      | inFinally exit =>
          obtain ⟨exit', rfl, -⟩ := tied.of_inFinally
          exact of_throw _

theorem of_reraise : (lockstep similar).Agree Eq reraise reraise := by
  refine (of_part fun h => h.currentTry?).bindWith fun record record' hr => ?_
  cases hr with
  | none => exact of_throw _
  | @some record record' tied =>
      have phase := tied.phase
      dsimp only
      cases hp : record.phase with
      | inTry =>
          rw [hp] at phase
          rw [phase.of_inTry]
          exact of_throw _
      | inCatch caught =>
          rw [hp] at phase
          rw [phase.of_inCatch]
          exact of_tied fun h => (h.rewind tied).enterFinally rfl
      | inFinally exit =>
          rw [hp] at phase
          obtain ⟨exit', hp', -⟩ := phase.of_inFinally
          rw [hp']
          exact of_throw _

section

variable (order : ∀ {a a' b b'}, Address a a' → Address b b' → (a < b ↔ a' < b'))

include order

theorem of_carryOut {exit exit' : ExitAction} (h : exit.Tied Address exit') :
    (lockstep similar).Agree Eq (carryOut exit) (carryOut exit') := by
  rcases h.branch_or_eq with ⟨target, target', rfl, rfl, ht⟩ | ⟨direct, rfl⟩
  · exact (of_jump order ht).bind fun _ => of_pure rfl
  · cases exit with
    | branch target => exact absurd rfl (direct target)
    | fallThrough => exact of_pure rfl
    | ret => exact of_returnFrom _
    | retValue value => exact of_returnFrom _
    | retConstructor => exact of_returnFrom _
    | rethrow exception => exact (of_raise exception).bind fun _ => of_pure rfl

theorem of_leaveFinally : (lockstep similar).Agree Eq leaveFinally leaveFinally := by
  refine of_currentPhase.bindWith fun phase phase' hp => ?_
  cases hp with
  | none => exact of_throw _
  | @some phase phase' tied =>
      cases phase with
      | inTry =>
          rw [tied.of_inTry]
          exact of_throw _
      | inCatch caught =>
          rw [tied.of_inCatch]
          exact of_throw _
      | inFinally exit =>
          obtain ⟨exit', rfl, exits⟩ := tied.of_inFinally
          exact (of_tied fun h => h.leave).bind fun _ => of_carryOut order exits

end

/-! ### Calls -/

theorem of_enterFrame {key : MethodKey} {entry entry' : MethodEntry} {address address' : Nat}
    {localCount : UInt16} {kind : FrameKind} {returnIp returnIp' : Nat}
    (he : entry.Similar Address entry') (ha : Address address address')
    (hr : Address returnIp returnIp') :
    (lockstep similar).Agree Eq (enterFrame key entry address localCount kind returnIp)
      (enterFrame key entry' address' localCount kind returnIp') := by
  refine of_read.bindWith fun setup setup' hs => (of_part fun h => h.size).bind fun size => ?_
  rw [hs.limits]
  split
  · exact of_throw_bind _
  · refine (of_part fun h => congrArg Stack.depth h.stack).bind fun depth => ?_
    dsimp only
    split
    · exact of_throw_bind _
    · refine (of_tied fun {thread thread'} h => ?_).bind fun _ => (of_onStack _).bind fun _ =>
        of_tied fun {thread thread'} h => ?_
      · refine ⟨h.id, h.state, h.stack, { h.registers with calls := ?_ }⟩
        have call : CallRecord.Tied Address
            ⟨thread.dp, returnIp, thread.moduleId, thread.frame⟩
            ⟨thread'.dp, returnIp', thread'.moduleId, thread'.frame⟩ :=
          ⟨h.registers.dp, hr, h.registers.moduleId, h.registers.frame⟩
        simp only [Thread.registers, Array.toList_push]
        exact List.rel_append h.registers.calls (.cons call .nil)
      · exact ⟨h.id, h.state, h.stack, {
          calls := h.registers.calls
          handlers := h.registers.handlers
          dp := rfl
          ip := ha
          moduleId := he.moduleId
          frame := by
            change Frame.method _ _ _ = Frame.method _ _ _
            rw [he.declaring] }⟩

theorem of_enterMethod (key : MethodKey) (kind : FrameKind) {info info' : ClassDef}
    (hi : info.Similar Address info') (receiver : Value) {entry entry' : MethodEntry}
    (he : entry.Similar Address entry') :
    (lockstep similar).Agree Eq (enterMethod key kind info receiver entry)
      (enterMethod key kind info' receiver entry') := by
  have bodies := he.body
  unfold enterMethod
  generalize entry.body = code, entry'.body = code' at bodies
  cases code with
  | native =>
      cases code' with
      | native => exact of_callNative hi receiver key
      | bytecode address' localCount' => cases bodies
  | bytecode address localCount =>
      cases code' with
      | native => cases bodies
      | bytecode address' localCount' =>
          obtain ⟨ha, rfl⟩ := bodies
          exact (of_part fun h => h.registers.ip).bindWith fun ip ip' hip =>
            of_enterFrame he ha hip

theorem of_callMethod (key : MethodKey) (kind : FrameKind) :
    (lockstep similar).Agree Eq (callMethod key kind) (callMethod key kind) := by
  refine of_program.bindWith fun program program' hp => (of_onStack _).bind fun receiver => ?_
  rw [hp.symbols]
  refine (of_memberClass _ receiver).bind fun id => ?_
  have info := hp.catalog.get id
  have method := info.method? key
  dsimp only
  rw [info.qualified]
  generalize (program.catalog.get id).method? key = found at method ⊢
  generalize (program'.catalog.get id).method? key = found' at method ⊢
  cases method with
  | none => exact of_throw _
  | @some entry entry' same =>
      have entered : (lockstep similar).Agree Eq _ _ :=
        of_enterMethod key (callKind program'.symbols key kind) info receiver same
      dsimp only
      rw [same.isStatic]
      cases receiver with
      | classRef receiver =>
          cases entry'.isStatic with
          | false => exact of_throw _
          | true => exact entered
      | _ => exact entered

theorem of_call (index : UInt32) : (lockstep similar).Agree Eq (call index) (call index) :=
  of_moduleRecord.bind fun record => (of_require (record.methodCall index)).bind fun key =>
    of_callMethod key .normal

theorem of_invoke : (lockstep similar).Agree Eq invoke invoke := by
  refine of_pop.bind fun args => of_pop.bind fun name => of_pop.bind fun target => ?_
  cases args with
  | array id =>
      refine of_heap.bind fun heap => of_program.bindWith fun program program' hp =>
        (of_memberClass _ target).bind fun id => (of_memberName _ name).bind fun method => ?_
      have info := hp.catalog.get id
      dsimp only
      rw [info.qualified, hp.symbols]
      split
      · exact of_throw_bind _
      · split
        · exact of_throw _
        · exact (of_push _).bind fun _ => (of_forM_array (fun _ => of_push _) _).bind fun _ =>
            of_callMethod _ _
  | _ => exact of_throw _

/-- Whether two initializers differ in their addresses at most, and these correspond. -/
structure InitializersTied (Address : Nat → Nat → Prop)
    (initializer initializer' : MethodKey × MethodEntry × Nat × UInt16) : Prop where
  key : initializer.1 = initializer'.1
  entry : initializer.2.1.Similar Address initializer'.2.1
  address : Address initializer.2.2.1 initializer'.2.2.1
  localCount : initializer.2.2.2 = initializer'.2.2.2

theorem initializerOf_tied {program program' : Program} (h : program.Similar Address program')
    (id : ClassId) : Option.Rel (InitializersTied Address) (initializerOf program id)
      (initializerOf program' id) := by
  unfold initializerOf
  rw [h.symbols]
  cases program'.symbols.find? initializerName with
  | none => exact .none
  | some name =>
      have method := (h.catalog.get id).method? ⟨name, 0⟩
      simp only [Option.bind_eq_bind, Option.bind_some]
      generalize (program.catalog.get id).method? ⟨name, 0⟩ = found at method ⊢
      generalize (program'.catalog.get id).method? ⟨name, 0⟩ = found' at method ⊢
      cases method with
      | none => exact .none
      | @some entry entry' same =>
          have bodies := same.body
          simp only [Option.bind_some, same.declaring]
          generalize entry.body = code, entry'.body = code' at bodies
          cases code with
          | native =>
              cases code' with
              | native => exact .none
              | bytecode address' localCount' => cases bodies
          | bytecode address localCount =>
              cases code' with
              | native => cases bodies
              | bytecode address' localCount' =>
                  dsimp only
                  split
                  · exact .some ⟨rfl, same, bodies.1, bodies.2⟩
                  · exact .none

theorem of_initializeClass (id : ClassId) {resumeIp resumeIp' : Nat}
    (hr : Address resumeIp resumeIp') :
    (lockstep similar).Agree Eq (initializeClass id resumeIp) (initializeClass id resumeIp') := by
  refine of_get.bindWith fun scene scene' hs => ?_
  rw [hs.2]
  split
  · exact of_pure rfl
  · refine of_program.bindWith fun program program' hp => (of_onStore _).bind fun _ => ?_
    have info := hp.catalog.get id
    refine (of_storeConstants id info).bind fun _ => ?_
    have initializer := initializerOf_tied hp id
    generalize initializerOf program id = found at initializer ⊢
    generalize initializerOf program' id = found' at initializer ⊢
    cases initializer with
    | none => exact of_pure rfl
    | some tied =>
        obtain ⟨keys, same, ha, locals⟩ := tied
        dsimp only
        rw [keys, locals]
        exact (of_push _).bind fun _ => (of_enterFrame same ha hr).bind fun _ => of_pure rfl

theorem of_loadClass (index : UInt32) {offset offset' : Nat} (ho : Address offset offset') :
    (lockstep similar).Agree Eq (loadClass index offset) (loadClass index offset') := by
  refine of_moduleRecord.bind fun record => (of_require (record.classRef index)).bind fun id =>
    (of_initializeClass id ho).bind fun entered => ?_
  cases entered with
  | true => exact of_pure rfl
  | false => exact of_push _

/-! ### All instructions -/

/-- Tied instructions do the same to tied threads. -/
theorem of_executeTied (order : ∀ {a a' b b'}, Address a a' → Address b b' → (a < b ↔ a' < b'))
    {instruction instruction' : Instruction} (h : instruction.Tied Address instruction') :
    (lockstep similar).Agree Eq (execute instruction) (execute instruction') := by
  by_cases moves : instruction.opcode.movesRegisters = true
  · have target := h.jumpTarget
    have index (still : instruction.opcode.shape.isBranch = false) :
        instruction.index = instruction'.index := by
      rw [Instruction.index, Instruction.index, h.same still]
    unfold Instruction.jumpTarget at target
    unfold execute
    rw [← h.opcode]
    dsimp only
    cases hop : instruction.opcode with
    | jmp => exact proceed (of_jump order target)
    | jt => exact proceed (of_jumpIf _ _ (of_jump order target))
    | jf => exact proceed (of_jumpIf _ _ (of_jump order target))
    | jce => exact proceed (of_jumpIfCompare _ (of_jump order target))
    | jcne => exact proceed (of_jumpIfCompare _ (of_jump order target))
    | jcl => exact proceed (of_jumpIfCompare _ (of_jump order target))
    | jcle => exact proceed (of_jumpIfCompare _ (of_jump order target))
    | jcg => exact proceed (of_jumpIfCompare _ (of_jump order target))
    | jcge => exact proceed (of_jumpIfCompare _ (of_jump order target))
    | caseOf => exact proceed (of_jumpByCase order h)
    | ret => exact of_returnFrom _
    | retVal => exact of_pop.bind fun _ => of_returnFrom _
    | retCtor => exact of_returnFrom _
    | loadClass =>
        rw [index (by rw [hop]; rfl)]
        exact proceed (of_loadClass _ h.offset)
    | call =>
        rw [index (by rw [hop]; rfl)]
        exact proceed (of_call _)
    | invoke => exact proceed of_invoke
    | enterTry => exact proceed (of_enterTry h)
    | leaveTry => exact proceed of_leaveTry
    | leaveCatch => exact proceed of_leaveCatch
    | leaveFinally => exact of_leaveFinally order
    | raise => exact of_pop.bind fun _ => proceed (of_raise _)
    | reraise => exact proceed of_reraise
    | _ =>
        rw [hop] at moves
        cases moves
  · have still : instruction.opcode.movesRegisters = false := by simpa using moves
    have fixed : instruction.opcode.shape.isBranch = false := by
      cases hop : instruction.opcode <;> rw [hop] at still <;> first | rfl | cases still
    exact of_execute h.opcode (h.same fixed) still

end Coupling.Agree

end ObjectMachine
