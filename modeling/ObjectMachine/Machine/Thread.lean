import ObjectMachine.Class.Catalog
import ObjectMachine.Machine.Stack

/-!
# Threads

A thread has its own stacks and registers. The frame of a method lies on the value stack from
the data pointer on: the receiver, the arguments, the locals, and then whatever the code pushes.
-/

namespace ObjectMachine

/-- A thread by the order of creation; the first one is thread 1. -/
structure ThreadId where
  number : UInt32
deriving DecidableEq, Repr

def ThreadId.main : ThreadId := ⟨1⟩

/-- What can be held by one thread at a time. -/
inductive MonitorKey
  | object (id : ObjectId)
  | array (id : ArrayId)
  | classRef (id : ClassId)
deriving DecidableEq, Repr

inductive ThreadState
  | running
  /-- The rest of the turn is given up. -/
  | suspending
  /-- Blocked until a monitor is free. -/
  | waiting (key : MonitorKey)
  /-- Blocked until a tick of the clock. -/
  | sleeping (wake : UInt64)
  /-- Blocked until a thread is gone. -/
  | joining (id : ThreadId)
  /-- Done, and to be removed when the next thread is chosen. -/
  | exiting
deriving DecidableEq, Repr

/-- The tick at which a thread wakes up. -/
def ThreadState.wake? : ThreadState → Option UInt64
  | sleeping wake => some wake
  | _ => none

def ThreadState.name : ThreadState → String
  | running => "running"
  | suspending => "suspending"
  | waiting _ => "waiting"
  | sleeping _ => "sleeping"
  | joining _ => "joining"
  | exiting => "exiting"

/-- How a method was entered, which decides what its return leaves. -/
inductive FrameKind
  | normal
  /-- Returns its receiver, whatever the return says. -/
  | constructor
  /-- Returns nothing: the instruction that entered it runs once more. -/
  | initializer
  /-- Returns null if it returns nothing. -/
  | invoke
deriving DecidableEq, Repr

/-- What is being executed. -/
inductive Frame
  /-- The instructions that call the main method. -/
  | entry
  | method (declaring : ClassId) (key : MethodKey) (kind : FrameKind)
deriving DecidableEq, Repr

/-- What stands for the entry sequence where a method is expected. -/
def entryFrameName : String := "<entry>"

namespace Frame

def describe (catalog : Catalog) (symbols : SymbolTable) : Frame → String
  | entry => entryFrameName
  | method declaring key _ => s!"{catalog.name declaring}.{symbols.signature key}"

/-- The class whose code is being executed. -/
def declaring? : Frame → Option ClassId
  | entry => none
  | method declaring _ _ => some declaring

end Frame

/-- What a call keeps of its caller. -/
structure CallRecord where
  dp : Nat
  returnIp : Nat
  moduleId : ModuleId
  frame : Frame
deriving DecidableEq, Repr

/-- What is done at the end of a finally body. -/
inductive ExitAction
  | fallThrough
  | ret
  | retValue (value : Value)
  | retConstructor
  | branch (target : Nat)
  | rethrow (exception : Value)
deriving DecidableEq, Repr

/-- The body of a try construct that is being executed. -/
inductive TryPhase
  | inTry
  | inCatch (exception : Value)
  | inFinally (exit : ExitAction)
deriving DecidableEq, Repr

/-- A try construct that has been entered, with the registers at that time. -/
structure TryRecord where
  start : Nat
  onCatch : Option Nat
  onFinally : Nat
  phase : TryPhase
  moduleId : ModuleId
  callDepth : Nat
  dp : Nat
  stackDepth : Nat
deriving DecidableEq, Repr

namespace TryRecord

/-- Whether an address lies in the try or catch body. -/
def covers (record : TryRecord) (address : Nat) : Bool :=
  record.start ≤ address && address < record.onFinally

/-- Whether leaving has to go through the finally body. -/
def intercepts (record : TryRecord) : Bool :=
  match record.phase with
  | .inTry | .inCatch _ => true
  | .inFinally _ => false

end TryRecord

structure Thread where
  id : ThreadId
  state : ThreadState
  stack : Stack
  calls : Array CallRecord
  /-- The try constructs, the innermost one first. -/
  handlers : List TryRecord
  dp : Nat
  ip : Nat
  moduleId : ModuleId
  frame : Frame
deriving DecidableEq, Repr

namespace Thread

/-- A thread that is about to execute code outside of any method. -/
def start (id : ThreadId) (ip : Nat) (moduleId : ModuleId) (stackLimit : Nat) : Thread where
  id := id
  state := .running
  stack := .empty stackLimit
  calls := #[]
  handlers := []
  dp := 0
  ip := ip
  moduleId := moduleId
  frame := .entry

def callDepth (thread : Thread) : Nat :=
  thread.calls.size

/-- A copy under another number. -/
def copy (thread : Thread) (id : ThreadId) : Thread :=
  { thread with id, state := .running }

/-- The frames from the innermost one outward. -/
def trace (thread : Thread) : List Frame :=
  thread.frame :: thread.calls.toList.reverse.map (·.frame)

end Thread

end ObjectMachine
