import ObjectMachine.Machine.Arrays
import ObjectMachine.Machine.Calls
import ObjectMachine.Machine.Exits
import ObjectMachine.Machine.Threads

/-!
# The engine

A machine executes one instruction after the other, all of them of the running thread until the
clock ticks or the thread gives way. The run ends with the last thread or with the first fault.
-/

namespace ObjectMachine

inductive Ending
  /-- The last thread has exited. The value is what the first one left on its stack. -/
  | finished (result : Value)
  /-- A fault, with the frames of the thread that stands in the running one's place. -/
  | faulted (fault : Fault) (trace : List Frame)
  /-- A fault at a time when no thread stands in the running one's place. -/
  | crashed
deriving DecidableEq, Repr

/-- The end of a run, with what outlives it. -/
structure Outcome where
  ending : Ending
  store : Store
deriving DecidableEq, Repr

structure Machine where
  roster : Roster
  world : World
  result : Value
deriving DecidableEq, Repr

/-- Where a part of a run leads to. -/
inductive Progress
  | running (machine : Machine)
  | ended (outcome : Outcome)
deriving DecidableEq, Repr

inductive Turn
  /-- The running thread executes an instruction, whose end its position has reached. -/
  | execute (machine : Machine) (instruction : Instruction)
  | ended (outcome : Outcome)
deriving DecidableEq, Repr

namespace Step

def execute (instruction : Instruction) : Step Signal := do
  let index := instruction.index
  let target := match instruction.operand with
    | .offset distance => instruction.target distance
    | _ => instruction.target 0
  match instruction.opcode with
  | .nop => pure ()
  | .pop => let _ ← pop
  | .dup => dup
  | .swap => swap
  | .pushNull => push .null
  | .pushTrue => push (.bool true)
  | .pushFalse => push (.bool false)
  | .pushByte | .pushChar | .pushShort | .pushInt | .pushLong | .pushDouble =>
    push instruction.constant
  | .pushString => pushString index
  | .loadLocal => loadLocal index
  | .storeLocal => storeLocal index
  | .add => arithmetic .add
  | .sub => arithmetic .sub
  | .mul => arithmetic .mul
  | .div => arithmetic .div
  | .mod => arithmetic .mod
  | .neg => negate
  | .not => complement
  | .convert =>
    convert (match instruction.operand with
      | .byte code => code
      | _ => 0)
  | .ce => compare .eq
  | .cne => compare .ne
  | .cl => compare .lt
  | .cle => compare .le
  | .cg => compare .gt
  | .cge => compare .ge
  | .jmp => jump target
  | .jt => jumpIf .jt true target
  | .jf => jumpIf .jf false target
  | .jce => jumpIfCompare .eq target
  | .jcne => jumpIfCompare .ne target
  | .jcl => jumpIfCompare .lt target
  | .jcle => jumpIfCompare .le target
  | .jcg => jumpIfCompare .gt target
  | .jcge => jumpIfCompare .ge target
  | .caseOf => jumpByCase instruction
  | .ret => return ← returnFrom .void
  | .retVal =>
    let value ← pop
    return ← returnFrom (.value value)
  | .retCtor => return ← returnFrom .constructor
  | .loadClass => loadClass index instruction.offset
  | .new => new index
  | .call => call index
  | .super => asParent
  | .loadField => loadField index
  | .storeField => storeField index
  | .instanceOf => instanceOf index
  | .enterTry => enterTry instruction
  | .leaveTry => leaveTry
  | .leaveCatch => leaveCatch
  | .leaveFinally => return ← leaveFinally
  | .raise => raise (← pop)
  | .reraise => reraise
  | .newArray => newArray
  | .arrayLoad => arrayLoad
  | .arrayStore => arrayStore
  | .arrayLength => arrayLength
  | .makeArray =>
    makeArray (match instruction.operand with
      | .count elements => elements.toNat
      | _ => 0)
  | .fork => return .fork
  | .join => return ← join
  | .exit => return .leave
  | .nice => return ← nice
  | .sleep => return ← sleep
  | .wait => return ← wait
  | .signal => signal
  | .threadId => pushThreadId
  | .hierarchy => hierarchy
  | .fields => fields
  | .methods => methods
  | .getField => getField
  | .setField => setField
  | .invoke => invoke
  pure .proceed

end Step

namespace Machine

/-- The end of a run by a fault of the running thread. -/
def fail (machine : Machine) (fault : Fault) : Outcome :=
  ⟨.faulted fault machine.roster.running.trace, machine.world.store⟩

/-- A machine about to execute the entry sequence, with the arguments in an array. -/
def start (setup : Setup) (store : Store) (source : TickSource) (args : List String) :
    Progress :=
  let (id, heap) := store.heap.newArray (args.map Value.text).toArray
  let store := { store with heap }
  let thread := Thread.start .main setup.program.entry setup.program.entryModule
    setup.limits.stack
  match Stack.push (.array id) thread.stack with
  | .ok _ stack =>
    let world : World := { store, held := [], clock := Clock.start source }
    .running { roster := Roster.start { thread with stack }, world, result := .null }
  | .error fault _ => .ended ⟨.faulted fault [], store⟩

/-- Lets the scheduler choose a thread, at the time of now. -/
def reschedule (machine : Machine) : Progress :=
  let store := machine.world.store
  match machine.roster.schedule machine.world.held machine.world.clock.look with
  | .run roster held clock =>
    .running { machine with roster, world := { machine.world with held, clock } }
  | .finished => .ended ⟨.finished machine.result, store⟩
  | .deadlock threads place =>
    match threads[place]? with
    | some thread => .ended ⟨.faulted (.deadlock threads.length) thread.trace, store⟩
    | none => .ended ⟨.crashed, store⟩

/-- Lets the scheduler choose a thread if the clock calls for it, and takes note of that. -/
def switch (machine : Machine) : Progress :=
  let clock := machine.world.clock.look
  if clock.due then
    reschedule { machine with world := { machine.world with clock := { clock with due := false } } }
  else .running { machine with world := { machine.world with clock } }

/-- The instruction at the running thread's position, and the machine with that behind it. -/
def fetch (setup : Setup) (machine : Machine) : Turn :=
  let ip := machine.roster.running.ip
  match setup.program.code.fetch ip with
  | .error cause => .ended (machine.fail (.invalidInstruction ip cause))
  | .ok instruction =>
    let running := { machine.roster.running with ip := instruction.offset + instruction.size }
    let world := { machine.world with clock := machine.world.clock.step.look }
    .execute { machine with roster := { machine.roster with running }, world } instruction

def ready (setup : Setup) (machine : Machine) : Turn :=
  match machine.switch with
  | .running machine => machine.fetch setup
  | .ended outcome => .ended outcome

def setState (machine : Machine) (state : ThreadState) : Machine :=
  { machine with
    roster := { machine.roster with running := { machine.roster.running with state } } }

/-- A thread with one more value on its stack. -/
def given (value : Value) (thread : Thread) : Except Fault Thread :=
  match Stack.push value thread.stack with
  | .ok _ stack => .ok { thread with stack }
  | .error fault _ => .error fault

/-- The threads with a copy of the running one. The thread that has the copy's number finds zero on
its stack, the running one that number. -/
def forked (setup : Setup) (roster : Roster) : Except Fault Roster := do
  let (id, roster) ← roster.fork setup.limits.threads (given (.int 0))
  let running ← given (Step.numberOf id) roster.running
  pure { roster with running }

/-- Goes on with other threads, or fails. -/
def goOn (machine : Machine) : Except Fault Roster → Progress
  | .ok roster => .running { machine with roster }
  | .error fault => .ended (machine.fail fault)

def fork (setup : Setup) (machine : Machine) : Progress :=
  machine.goOn (forked setup machine.roster)

/-- Ends the running thread. The first thread's result is the top of its stack, unless that is
the arguments' array or nothing. -/
def leave (machine : Machine) : Progress :=
  let thread := machine.roster.running
  let result :=
    if thread.id = .main then
      if thread.stack.depth ≤ 1 then .null else thread.stack.slots.back?.getD .null
    else machine.result
  if machine.roster.count = 1 then .ended ⟨.finished result, machine.world.store⟩
  else reschedule ({ machine with result }.setState .exiting)

/-- Does what an instruction asks of the scheduler. -/
def answer (setup : Setup) (machine : Machine) : Signal → Progress
  | .proceed => .running machine
  | .yield => machine.reschedule
  | .fork => machine.fork setup
  | .join id =>
    if machine.roster.contains id then reschedule (machine.setState (.joining id))
    else .running machine
  | .leave => machine.leave

def perform (setup : Setup) (machine : Machine) (instruction : Instruction) : Progress :=
  let ⟨⟨earlier, running, later, nextId⟩, world, result⟩ := machine
  match Step.execute instruction setup ⟨running, world⟩ with
  | .ok signal ⟨thread, world⟩ =>
    answer setup ⟨⟨earlier, thread, later, nextId⟩, world, result⟩ signal
  | .error fault ⟨thread, world⟩ => .ended ⟨.faulted fault thread.trace, world.store⟩

/-- One instruction of a run. -/
def step (setup : Setup) (machine : Machine) : Progress :=
  match machine.ready setup with
  | .execute machine instruction => machine.perform setup instruction
  | .ended outcome => .ended outcome

/-- The outcome of a run, if it ends after at most so many instructions. -/
def run (setup : Setup) : Nat → Progress → Option Outcome
  | _, .ended outcome => some outcome
  | 0, .running _ => none
  | fuel + 1, .running machine => run setup fuel (machine.step setup)

end Machine

namespace Progress

/-- A run after at most so many instructions. -/
def advance (setup : Setup) : Nat → Progress → Progress
  | 0, progress => progress
  | _, ended outcome => ended outcome
  | count + 1, running machine => advance setup count (machine.step setup)

/-- What has been printed, and the run with that taken away. -/
def takePrinted : Progress → String × Progress
  | running machine =>
    let store := machine.world.store
    (store.printed, running { machine with
      world := { machine.world with store := { store with printed := "" } } })
  | ended outcome =>
    (outcome.store.printed, ended { outcome with store := { outcome.store with printed := "" } })

end Progress

end ObjectMachine
