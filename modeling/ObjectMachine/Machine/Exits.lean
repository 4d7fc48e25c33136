import ObjectMachine.Machine.Operands

/-!
# Branches, returns and exceptions

Whatever leaves the try or catch body of the innermost construct of a frame is put off until the
finally body has run: the construct keeps it as the exit of its finally body, and the end of that
body takes it up again.
-/

namespace ObjectMachine

inductive ReturnForm
  | void
  | value (value : Value)
  /-- Returns the receiver. -/
  | constructor
deriving DecidableEq, Repr

/-- The return as the exit of a finally body. -/
def ReturnForm.exit : ReturnForm → ExitAction
  | void => .ret
  | value result => .retValue result
  | constructor => .retConstructor

namespace TryPhase

def isInFinally : TryPhase → Bool
  | inFinally _ => true
  | _ => false

end TryPhase

namespace Thread

/-- The innermost try construct, if it is one of the current frame. -/
def currentTry? (thread : Thread) : Option TryRecord :=
  match thread.handlers with
  | record :: _ => if record.callDepth = thread.calls.size then some record else none
  | [] => none

/-- The innermost try construct, if the current frame is in its try or catch body. -/
def interceptor? (thread : Thread) : Option TryRecord :=
  thread.currentTry?.filter (·.intercepts)

/-- Turns to the finally body of the innermost try construct. -/
def enterFinally (exit : ExitAction) (thread : Thread) : Thread :=
  match thread.handlers with
  | record :: outer =>
    { thread with
      handlers := { record with phase := .inFinally exit } :: outer
      stack := thread.stack.truncate record.stackDepth
      ip := record.onFinally }
  | [] => thread

/-- Goes to an address, by way of the finally body if that leaves a try construct. -/
def branchTo (target : Nat) (thread : Thread) : Thread :=
  match thread.interceptor? with
  | some record =>
    if record.covers target then { thread with ip := target }
    else thread.enterFinally (.branch target)
  | none => { thread with ip := target }

/-- Goes back to the frame in which a try construct was entered. -/
def rewind (record : TryRecord) (thread : Thread) : Thread :=
  let frame := match thread.calls[record.callDepth]? with
    | some call => call.frame
    | none => thread.frame
  { thread with
    frame
    calls := thread.calls.shrink record.callDepth
    dp := record.dp
    moduleId := record.moduleId
    stack := thread.stack.truncate record.stackDepth }

/-- Drops the innermost call record, leaving behind the try constructs of the frame. -/
def popCall (thread : Thread) : Thread :=
  let calls := thread.calls.pop
  { thread with
    calls
    handlers := thread.handlers.dropWhile fun record => calls.size < record.callDepth }

/-- Takes up the registers that a call has kept. -/
def restore (call : CallRecord) (thread : Thread) : Thread :=
  { thread with
    dp := call.dp
    ip := call.returnIp
    moduleId := call.moduleId
    frame := call.frame }

end Thread

namespace Step

def jump (target : Nat) : Step Unit :=
  onThread (·.branchTo target)

/-- Jumps if the topmost value is a given truth value. -/
def jumpIf (opcode : Opcode) (wanted : Bool) (target : Nat) : Step Unit := do
  let value ← pop
  match value.asBool? with
  | some condition => if condition == wanted then jump target
  | none => throw (.typeError s!"{opcode.name} needs a bool, got {value.typeName}")

def jumpIfCompare (op : ComparisonOp) (target : Nat) : Step Unit := do
  let b ← pop
  let a ← pop
  if ← require (Value.comparison op a b) then jump target

/-- Jumps to one of several targets, or goes on if the topmost value selects none. -/
def jumpByCase (instruction : Instruction) : Step Unit := do
  let value ← pop
  match value.asInteger? with
  | none => throw (.typeError s!"case needs an integer, got {value.typeName}")
  | some number =>
    match instruction.operand with
    | .table distances =>
      if 0 ≤ number.toInt then
        match distances[number.toInt.toNat]? with
        | some distance => jump (instruction.target distance)
        | none => pure ()
    | _ => pure ()

/-- What a return leaves of its frame. -/
def leaveFrame (kind : FrameKind) (form : ReturnForm) (dp : Nat) : Step Unit := do
  match kind, form with
  | .initializer, _ => truncate dp
  | .constructor, _ | _, .constructor => truncate (dp + 1)
  | _, .value value =>
    truncate dp
    push value
  | .invoke, .void =>
    truncate dp
    push .null
  | .normal, .void => truncate dp

/-- Returns from the current frame. Outside of any method that ends the thread. -/
def returnFrom (form : ReturnForm) : Step Signal := do
  if (← ofThread (·.interceptor?)).isSome then
    onThread (·.enterFinally form.exit)
    pure .proceed
  else
    match ← ofThread (·.calls.back?) with
    | none => pure .leave
    | some call =>
      let kind := match ← ofThread (·.frame) with
        | .method _ _ kind => kind
        | .entry => .normal
      let dp ← ofThread (·.dp)
      onThread (·.popCall)
      leaveFrame kind form dp
      onThread (·.restore call)
      pure .proceed

def enterTry (instruction : Instruction) : Step Unit := do
  let (onCatch, onFinally) := match instruction.operand with
    | .tryPair onCatch onFinally => (onCatch, onFinally)
    | _ => (0, 0)
  onThread fun thread =>
    let record : TryRecord := {
      start := instruction.offset
      onCatch := if onCatch = 0 then none else some (instruction.target onCatch)
      onFinally := instruction.target onFinally
      phase := .inTry
      moduleId := thread.moduleId
      callDepth := thread.calls.size
      dp := thread.dp
      stackDepth := thread.stack.depth }
    { thread with handlers := record :: thread.handlers }

/-- Hands a thrown value to the innermost try construct that is not in its finally body. -/
def raise (exception : Value) : Step Unit := do
  onThread fun thread =>
    { thread with handlers := thread.handlers.dropWhile (·.phase.isInFinally) }
  match ← ofThread (·.handlers) with
  | [] => throw (.uncaughtException (← describe exception))
  | record :: outer =>
    onThread (·.rewind record)
    match record.phase, record.onCatch with
    | .inTry, some onCatch =>
      let caught := { record with phase := .inCatch exception }
      onThread fun thread => { thread with handlers := caught :: outer }
      push exception
      onThread fun thread => { thread with ip := onCatch }
    | _, _ => onThread (·.enterFinally (.rethrow exception))

def currentPhase : Step (Option TryPhase) :=
  ofThread fun thread => thread.currentTry?.map (·.phase)

def leaveTry : Step Unit := do
  match ← currentPhase with
  | some .inTry => onThread (·.enterFinally .fallThrough)
  | _ => throw (.illegalExceptionState "leavetry")

def leaveCatch : Step Unit := do
  match ← currentPhase with
  | some (.inCatch _) => onThread (·.enterFinally .fallThrough)
  | _ => throw (.illegalExceptionState "leavecatch")

/-- Throws on the value that the catch body was given. -/
def reraise : Step Unit := do
  match ← ofThread (·.currentTry?) with
  | some record =>
    match record.phase with
    | .inCatch exception =>
      onThread fun thread => (thread.rewind record).enterFinally (.rethrow exception)
    | _ => throw (.illegalExceptionState "rethrow")
  | none => throw (.illegalExceptionState "rethrow")

/-- Carries out what was put off until the end of a finally body. -/
def carryOut (exit : ExitAction) : Step Signal := do
  match exit with
  | .fallThrough => pure .proceed
  | .ret => returnFrom .void
  | .retValue value => returnFrom (.value value)
  | .retConstructor => returnFrom .constructor
  | .branch target =>
    jump target
    pure .proceed
  | .rethrow exception =>
    raise exception
    pure .proceed

def leaveFinally : Step Signal := do
  match ← currentPhase with
  | some (.inFinally exit) =>
    onThread fun thread => { thread with handlers := thread.handlers.tail }
    carryOut exit
  | _ => throw (.illegalExceptionState "leavefinally")

end Step

end ObjectMachine
