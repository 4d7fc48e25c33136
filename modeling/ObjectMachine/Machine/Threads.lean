import ObjectMachine.Machine.Step

/-!
# Threads and monitors

An instruction that blocks only notes what its thread waits for. The scheduler decides when it
goes on.
-/

namespace ObjectMachine

namespace Step

def setState (state : ThreadState) : Step Unit :=
  onThread fun thread => { thread with state }

/-- The thread that a number stands for. -/
def threadOf (value : Value) : Option ThreadId :=
  match value.asInteger? with
  | some number =>
    if 0 ≤ number.toInt ∧ number.toInt < UInt32.size then some ⟨UInt32.ofNat number.toInt.toNat⟩
    else none
  | none => none

/-- Waits for the end of another thread. -/
def join : Step Signal := do
  let value ← pop
  match threadOf value with
  | none => throw (.illegalTarget "join" (← describe value))
  | some id =>
    if id = (← ofThread (·.id)) then throw (.illegalTarget "join" (toString id.number.toNat))
    pure (.join id)

/-- Gives up the rest of the turn. -/
def nice : Step Signal := do
  setState .suspending
  pure .yield

def sleep : Step Signal := do
  let value ← pop
  match value.asInteger? with
  | none => throw (.typeError s!"sleep needs an integer, got {value.typeName}")
  | some millis =>
    let clock := (← get).world.clock
    setState (.sleeping (clock.now + clock.ticksForMillis millis))
    pure .yield

/-- The monitor of a value. -/
def monitorKey (operation : String) (target : Value) : Step MonitorKey := do
  match target with
  | .object _ id => pure (.object id)
  | .array id => pure (.array id)
  | .classRef id => pure (.classRef id)
  | other => throw (.illegalTarget operation (← describe other))

/-- The monitors that are held. -/
def onHeld (change : List MonitorKey → List MonitorKey) : Step Unit :=
  modify fun scene =>
    { scene with world := { scene.world with held := change scene.world.held } }

/-- Takes a monitor, or waits until it is free. -/
def wait : Step Signal := do
  let target ← pop
  let key ← monitorKey "wait" target
  if (← get).world.held.contains key then
    setState (.waiting key)
    pure .yield
  else
    onHeld (key :: ·)
    pure .proceed

/-- Frees a monitor. -/
def signal : Step Unit := do
  let target ← pop
  let key ← monitorKey "signal" target
  if (← get).world.held.contains key then onHeld (·.erase key)
  else throw (.monitorNotHeld (← describe target))

/-- The number of a thread as a value. -/
def numberOf (id : ThreadId) : Value :=
  .int id.number.toInt32

def pushThreadId : Step Unit := do
  push (numberOf (← ofThread (·.id)))

end Step

end ObjectMachine
