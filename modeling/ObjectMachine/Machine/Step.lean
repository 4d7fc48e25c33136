import ObjectMachine.Machine.Scheduler
import ObjectMachine.Machine.Store
import ObjectMachine.Program.Program

/-!
# Steps

An instruction works on the thread that executes it and on what all threads share. It cannot
reach any other thread: what concerns them it asks of the scheduler when it is done. A fault
leaves the state as it was when the fault came up.
-/

namespace ObjectMachine

structure Limits where
  /-- Height of each thread's value stack. -/
  stack : Nat := Stack.defaultLimit
  /-- Calls that may be open in each thread. -/
  callDepth : Nat := 4096
  /-- Live threads. -/
  threads : Nat := 1024
  /-- Items of an array. -/
  arrayLength : Nat := 16777216
deriving DecidableEq, Repr

structure Setup where
  program : Program
  limits : Limits

/-- What all threads share. -/
structure World where
  store : Store
  held : List MonitorKey
  clock : Clock
deriving DecidableEq, Repr

/-- What an instruction works on. -/
structure Scene where
  thread : Thread
  world : World
deriving DecidableEq, Repr

/-- What an instruction asks of the scheduler. -/
inductive Signal
  | proceed
  /-- Let another thread run. -/
  | yield
  | fork
  /-- Let other threads run until one is gone. -/
  | join (id : ThreadId)
  /-- End this thread. -/
  | leave
deriving DecidableEq, Repr

/-- A part of an instruction. -/
abbrev Step := ReaderT Setup (EStateM Fault Scene)

namespace Step

@[inline] def onThread (change : Thread → Thread) : Step Unit :=
  modify fun scene => { scene with thread := change scene.thread }

/-- Changes the store. -/
@[inline] def onStore (change : Store → Store) : Step Unit :=
  modify fun scene =>
    { scene with world := { scene.world with store := change scene.world.store } }

/-- An operation on the thread's stack. -/
def onStack (operation : Stack.Operation α) : Step α := fun _ scene =>
  let stack := scene.thread.stack
  let rest := { scene with thread := { scene.thread with stack := .empty 0 } }
  match operation stack with
  | .ok result stack => .ok result { rest with thread := { rest.thread with stack } }
  | .error fault stack => .error fault { rest with thread := { rest.thread with stack } }

def push (value : Value) : Step Unit :=
  onStack (Stack.push value)

def pop : Step Value :=
  onStack Stack.pop

/-- Drops the values from a height on. -/
def truncate (depth : Nat) : Step Unit :=
  onStack (modify (·.truncate depth))

/-- A result that may be missing for a reason. -/
def require : Except Fault α → Step α
  | .ok result => pure result
  | .error fault => throw fault

/-- A part of the thread. -/
@[inline] def ofThread (part : Thread → α) : Step α := do
  pure (part (← get).thread)

@[inline] def heap : Step Heap := do
  pure (← get).world.store.heap

def program : Step Program := do
  pure (← read).program

/-- The tables of the module whose code is being executed. -/
def moduleRecord : Step ModuleRecord := do
  pure ((← program).moduleOf (← ofThread (·.moduleId)))

/-- The text of a value in messages and in joined texts. -/
def describe (value : Value) : Step String := do
  pure ((← program).describe (← heap) value)

def pushArray (items : Array Value) : Step Unit := do
  let id ← modifyGet fun scene =>
    let (id, heap) := scene.world.store.heap.newArray items
    (id, { scene with world := { scene.world with store := { scene.world.store with heap } } })
  push (.array id)

def pushTexts (items : List String) : Step Unit :=
  pushArray (items.map Value.text).toArray

end Step

end ObjectMachine
