import ObjectMachine.Machine.Clock
import ObjectMachine.Machine.Thread

/-!
# Scheduling

Live threads stand in a circle in the order of their creation, and one of them runs. Choosing
the next one starts behind it and takes the first thread that can go on. If none can but some
sleep, the time passes until the first of them wakes up.
-/

namespace ObjectMachine

/-- The live threads, around the running one. -/
structure Roster where
  earlier : List Thread
  running : Thread
  later : List Thread
  nextId : ThreadId
deriving DecidableEq, Repr

/-- How the choice of a thread ends. -/
inductive Decision
  | run (roster : Roster) (held : List MonitorKey) (clock : Clock)
  /-- The last thread has exited. -/
  | finished
  /-- No thread is left that can ever go on. The thread at `place`, if there is one, stands where
  the running thread did. -/
  | deadlock (threads : List Thread) (place : Nat)
deriving DecidableEq, Repr

/-- Changes the first of some threads that has a number, if there is one. -/
def changeFirst (id : ThreadId) (step : Thread → Except Fault Thread) :
    List Thread → Except Fault (List Thread)
  | [] => pure []
  | thread :: threads => do
    if thread.id = id then pure ((← step thread) :: threads)
    else pure (thread :: (← changeFirst id step threads))

namespace Roster

def start (thread : Thread) : Roster where
  earlier := []
  running := thread
  later := []
  nextId := ⟨thread.id.number + 1⟩

def threads (roster : Roster) : List Thread :=
  roster.earlier ++ roster.running :: roster.later

def count (roster : Roster) : Nat :=
  roster.earlier.length + 1 + roster.later.length

def contains (roster : Roster) (id : ThreadId) : Bool :=
  roster.threads.any (·.id == id)

/-- Changes the first live thread that has a number, if there is one. -/
def change (roster : Roster) (id : ThreadId) (step : Thread → Except Fault Thread) :
    Except Fault Roster := do
  if roster.earlier.any (·.id == id) then
    pure { roster with earlier := ← changeFirst id step roster.earlier }
  else if roster.running.id = id then
    pure { roster with running := ← step roster.running }
  else
    pure { roster with later := ← changeFirst id step roster.later }

/-- Adds a copy of the running thread behind all others, and changes the thread that has the copy's
number then. That is the copy, unless the numbers have gone round and come to that of a thread that
still lives. -/
def fork (roster : Roster) (limit : Nat) (step : Thread → Except Fault Thread) :
    Except Fault (ThreadId × Roster) := do
  if limit ≤ roster.count then throw (.tooManyThreads limit)
  let id := roster.nextId
  let later := roster.later ++ [roster.running.copy id]
  pure (id, ← change { roster with later, nextId := ⟨id.number + 1⟩ } id step)

end Roster

namespace Schedule

def resumable (threads : List Thread) (held : List MonitorKey) (now : UInt64) (thread : Thread) :
    Bool :=
  match thread.state with
  | .running | .suspending => true
  | .sleeping wake => wake ≤ now
  | .joining id => !threads.any (·.id == id)
  | .waiting key => !held.contains key
  | .exiting => false

/-- The place of the first thread that can go on, from `start` on and around. -/
def pick (threads : List Thread) (held : List MonitorKey) (now : UInt64) (start : Nat) :
    Option Nat :=
  let circle := threads.drop start ++ threads.take start
  (circle.findIdx? (resumable threads held now)).map fun distance =>
    (start + distance) % threads.length

def earliestWake (threads : List Thread) : Option UInt64 :=
  (threads.filterMap (·.state.wake?)).min?

/-- The monitors that are held once a thread goes on. -/
def heldBy (thread : Thread) (held : List MonitorKey) : List MonitorKey :=
  match thread.state with
  | .waiting key => key :: held
  | _ => held

def resume (threads : List Thread) (nextId : ThreadId) (held : List MonitorKey) (clock : Clock)
    (place : Nat) : Option Decision :=
  match threads.drop place with
  | thread :: later =>
    some (.run ⟨threads.take place, { thread with state := .running }, later, nextId⟩
      (heldBy thread held) clock)
  | [] => none

/-- Lets the first thread that can go on run. -/
def resumeFirst (threads : List Thread) (nextId : ThreadId) (held : List MonitorKey)
    (clock : Clock) (start : Nat) : Option Decision := do
  let place ← pick threads held clock.now start
  resume threads nextId held clock place

end Schedule

open Schedule in
/-- Chooses the thread that runs next. An exiting thread is removed first, and the choice then
starts where it stood. -/
def Roster.schedule (roster : Roster) (held : List MonitorKey) (clock : Clock) : Decision :=
  let place := roster.earlier.length
  let (threads, start) :=
    if roster.running.state = .exiting then (roster.earlier ++ roster.later, place)
    else (roster.threads, place + 1)
  let deadlock := Decision.deadlock threads place
  if threads.isEmpty then .finished
  else
    match resumeFirst threads roster.nextId held clock start with
    | some decision => decision
    | none =>
      match earliestWake threads with
      | some wake =>
        (resumeFirst threads roster.nextId held (clock.idleUntil wake) start).getD deadlock
      | none => deadlock

end ObjectMachine
