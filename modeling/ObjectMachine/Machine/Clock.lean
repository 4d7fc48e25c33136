/-!
# The clock

Threads are switched when the clock ticks. A clock that counts instructions ticks after a fixed
number of them. One that follows the time of day is advanced by a thread of the system, which
counts a tick and calls for a choice after each interval, whatever the machine is doing. What that
thread does between two looks at the clock is a parameter: each way of filling it in is one
interleaving, and what holds for all of them holds however the time passes.
-/

namespace ObjectMachine

/-- What the time of day has done between two looks at the clock. A tick is counted before the call
for a choice is made, so that a look may come between the two and see one without the other. -/
structure Passing where
  ticks : UInt64
  called : Bool
deriving DecidableEq, Repr

/-- What makes a clock tick. -/
inductive TickSource
  /-- A number of instructions, at least one. -/
  | steps (every : UInt64)
  /-- The time of day, with a number of milliseconds to a tick, and what it does before each of the
  looks to come. Nothing more happens once the list has come to its end. -/
  | wall (interval : UInt64) (ahead : List Passing)
deriving DecidableEq, Repr

structure Clock where
  source : TickSource
  /-- The ticks so far. -/
  now : UInt64
  /-- Instructions since the last tick of a clock that counts them. -/
  steps : UInt64
  /-- Whether the clock has called for a choice and nobody has taken note. -/
  due : Bool
deriving DecidableEq, Repr

namespace Clock

def start (source : TickSource) : Clock := ⟨source, 0, 0, false⟩

/-- Counts one instruction. The time of day does not care. -/
def step (clock : Clock) : Clock :=
  match clock.source with
  | .steps every =>
    if max every 1 ≤ clock.steps + 1 then
      { clock with now := clock.now + 1, steps := 0, due := true }
    else { clock with steps := clock.steps + 1 }
  | .wall _ _ => clock

/-- Counts so many instructions. -/
def stepMany : Nat → Clock → Clock
  | 0, clock => clock
  | count + 1, clock => stepMany count clock.step

/-- Takes in what the time of day has done since the last look. -/
def look (clock : Clock) : Clock :=
  match clock.source with
  | .wall interval (passing :: ahead) =>
    { clock with
      source := .wall interval ahead
      now := clock.now + passing.ticks
      due := clock.due || passing.called }
  | _ => clock

/-- Ticks that a pause lasts, at least one. A counting clock has one tick to the millisecond. -/
def ticksForMillis (clock : Clock) (millis : Int64) : UInt64 :=
  let millis : UInt64 := (max millis 0).toUInt64
  match clock.source with
  | .steps _ => max millis 1
  | .wall interval _ =>
    let perTick := max interval 1
    max ((millis + perTick - 1) / perTick) 1

/-- Lets the time pass until a tick, when no thread can run before it. A count of instructions is
merely set. The time of day has to be waited for, and may have gone on past that tick when the wait
is over. -/
def idleUntil (clock : Clock) (tick : UInt64) : Clock :=
  match clock.source with
  | .steps _ => { clock with now := max clock.now tick, steps := 0 }
  | .wall _ _ => { clock.look with now := max clock.look.now tick }

end Clock

end ObjectMachine
