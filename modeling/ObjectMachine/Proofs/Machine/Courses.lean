import Mathlib.Data.List.Nodup
import ObjectMachine.Proofs.Machine.Activations
import ObjectMachine.Proofs.Machine.Calls
import ObjectMachine.Proofs.Machine.Records

/-!
# The course of a thread

A run interleaves its threads. The course of one of them is the list of the instructions that it
has executed between two machines of a run, each with the thread before and after it. A thread
begins as a copy of another one, so that a course leads from the original to the copy, too.
-/

namespace ObjectMachine

/-- The execution of an instruction by a thread. -/
structure Act where
  instruction : Instruction
  /-- The thread before, its position being behind the instruction already. -/
  before : Thread
  after : Thread

/-- Whether a thread finds its stack, each time that it executes an instruction and at last, as it
has left it. A fork can hand zero to a waiting thread when numbers have gone round. -/
def Stack.Undisturbed (stack : Stack) : List Act → Stack → Prop
  | [], last => last = stack
  | act :: acts, last => act.before.stack = stack ∧ act.after.stack.Undisturbed acts last

theorem Stack.undisturbed_concat {stack last : Stack} {acts : List Act} {act : Act} :
    stack.Undisturbed (acts ++ [act]) last ↔
      stack.Undisturbed acts act.before.stack ∧ last = act.after.stack := by
  induction acts generalizing stack with
  | nil => rfl
  | cons first acts ih => exact (and_congr_right fun _ => ih).trans and_assoc.symm

theorem Stack.Heaped.fits {values : List Value} {before after : Stack}
    (h : Heaped values before after) : before.Fits after := by
  by_cases none : values = []
  · subst none
    exact h.eq ▸ .refl before
  · exact ⟨h.limit, fun _ => h.limit ▸ h.room none⟩

theorem Thread.Waits.fits {thread next : Thread} (h : next.Waits thread) :
    thread.stack.Fits next.stack := by
  obtain ⟨zeros, heaped⟩ := h.stack
  exact heaped.fits

theorem Thread.Answered.fits {thread next : Thread} {signal : Signal}
    (h : thread.Answered signal next) : thread.stack.Fits next.stack := by
  cases h with
  | idles _ _ idles => exact idles.stack ▸ .refl _
  | forks _ _ heaped => exact heaped.fits

namespace Machine

variable {setup : Setup}

/-- How a thread goes on in a step: it waits, or it executes the instruction at its position. -/
inductive Proceeds (setup : Setup) (machine : Machine) (thread : Thread) :
    Option Act → Thread → Prop
  | rests {next : Thread} : next.Rests machine.roster.nextId thread →
      Proceeds setup machine thread none next
  | acts {instruction : Instruction} {scene result : Scene} {signal : Signal} {next : Thread} :
      machine.Executes setup instruction scene signal result →
      setup.program.code.fetch thread.ip = .ok instruction →
      scene.thread.Idles { thread with ip := instruction.offset + instruction.size } →
      result.thread.Answered signal next →
      Proceeds setup machine thread (some ⟨instruction, scene.thread, next⟩) next

/-- Every thread after a step is what one before it has come to. -/
theorem exists_proceeds {machine next : Machine} (h : machine.step setup = .running next)
    {after : Thread} (member : after ∈ next.roster.threads) :
    ∃ thread ∈ machine.roster.threads, ∃ act, machine.Proceeds setup thread act after := by
  obtain ⟨instruction, scene, signal, result, executes, threads⟩ := exists_answered h
  rcases threads after member with answered | ⟨old, found, rests⟩
  · obtain ⟨⟨current, ready, rfl⟩, execute⟩ := executes
    obtain ⟨⟨old, found, fetched, idles⟩, -⟩ := exists_idles_of_ready ready
    exact ⟨old, found, _, .acts ⟨⟨current, ready, rfl⟩, execute⟩ fetched idles answered⟩
  · exact ⟨old, found, none, .rests rests⟩

/-- What holds of the thread that a program starts with, and is kept by whatever a thread does,
holds of all threads of all reachable machines. -/
theorem Reachable.threads {Holds : Thread → Prop}
    (start : ∀ {value : Value} {stack : Stack},
      Stack.push value (.empty setup.limits.stack) = .ok () stack →
      Holds { Thread.start .main setup.program.entry setup.program.entryModule
        setup.limits.stack with stack })
    (proceeds : ∀ {machine : Machine} {thread next : Thread} {act : Option Act},
      Reachable setup machine → thread ∈ machine.roster.threads → Holds thread →
      machine.Proceeds setup thread act next → Holds next)
    {machine : Machine} (reachable : Reachable setup machine) :
    ∀ thread ∈ machine.roster.threads, Holds thread := by
  induction reachable with
  | start h =>
      unfold Machine.start at h
      dsimp only at h
      split at h
      · next stack pushed =>
          cases h
          intro thread member
          obtain rfl : thread = _ := by simpa [Roster.threads, Roster.start] using member
          exact start pushed
      · cases h
  | step before step _ ih =>
      intro after member
      obtain ⟨thread, found, act, goesOn⟩ := exists_proceeds step member
      exact proceeds before found (ih thread found) goesOn

/-- What a thread has done between two machines of a run. -/
inductive Course (setup : Setup) (first : Machine) (start : Thread) :
    List Act → Machine → Thread → Prop
  | start : start ∈ first.roster.threads → Course setup first start [] first start
  | step {acts : List Act} {machine next : Machine} {thread after : Thread} {act : Option Act} :
      Course setup first start acts machine thread → machine.step setup = .running next →
      after ∈ next.roster.threads → machine.Proceeds setup thread act after →
      Course setup first start (acts ++ act.toList) next after

namespace Course

variable {first machine : Machine} {start thread : Thread} {acts later : List Act} {act : Act}

theorem mem (h : Course setup first start acts machine thread) :
    thread ∈ machine.roster.threads := by
  cases h with
  | start member => exact member
  | step _ _ member => exact member

theorem start_mem (h : Course setup first start acts machine thread) :
    start ∈ first.roster.threads := by
  induction h with
  | start member => exact member
  | step _ _ _ _ ih => exact ih

theorem reachable (h : Course setup first start acts machine thread)
    (reachable : Reachable setup first) : Reachable setup machine := by
  induction h with
  | start => exact reachable
  | step _ step _ _ ih => exact .step ih step fun _ => trivial

theorem waits (h : Course setup first start (acts ++ [act]) machine thread) :
    thread.Waits act.after := by
  generalize all : acts ++ [act] = list at h
  induction h with
  | start => exact absurd all (List.append_ne_nil_of_right_ne_nil _ (List.cons_ne_nil _ _))
  | @step earlier machine next thread after other course step member proceeds ih =>
      cases proceeds with
      | rests rests => exact rests.waits.trans (ih (all.trans (List.append_nil earlier)))
      | acts executes fetched idles answered =>
          obtain ⟨-, same⟩ := List.append_inj' all rfl
          obtain rfl := List.singleton_inj.mp same
          exact .refl _

theorem unsnoc (h : Course setup first start (acts ++ [act]) machine thread) :
    ∃ before waiting, Course setup first start acts before waiting ∧
      before.Proceeds setup waiting (some act) act.after := by
  generalize all : acts ++ [act] = list at h
  induction h with
  | start => exact absurd all (List.append_ne_nil_of_right_ne_nil _ (List.cons_ne_nil _ _))
  | @step earlier machine next thread after other course step member proceeds ih =>
      cases other with
      | none => exact ih (all.trans (List.append_nil earlier))
      | some other =>
          obtain ⟨rfl, same⟩ := List.append_inj' all rfl
          obtain rfl : act = other := by simpa using same
          obtain rfl : after = act.after := by
            cases proceeds
            rfl
          exact ⟨machine, thread, course, proceeds⟩

theorem uncons (h : Course setup first start (act :: later) machine thread) :
    ∃ before next waiting, Course setup first start [] before waiting ∧
      before.Proceeds setup waiting (some act) act.after ∧
      before.step setup = .running next ∧
      Course setup next act.after later machine thread := by
  generalize all : act :: later = list at h
  induction h generalizing later with
  | start => cases all
  | @step earlier machine next thread after other course step member proceeds ih =>
      cases earlier with
      | nil =>
          cases other with
          | none => cases all
          | some other =>
              cases all
              obtain rfl : after = act.after := by
                cases proceeds
                rfl
              exact ⟨machine, next, thread, course, proceeds, step, .start member⟩
      | cons first earlier =>
          obtain ⟨rfl, rest⟩ := List.cons.inj all
          obtain ⟨before, after, waiting, waits, proceeds', step', course'⟩ := ih rfl
          rw [rest]
          exact ⟨before, after, waiting, waits, proceeds', step',
            course'.step step member proceeds⟩

end Course

namespace Proceeds

variable {machine : Machine} {thread next : Thread} {act : Act}

theorem executes (h : machine.Proceeds setup thread (some act) next) :
    next = act.after ∧ setup.program.code.fetch thread.ip = .ok act.instruction ∧
      act.before.Idles
        { thread with ip := act.instruction.offset + act.instruction.size } ∧
      ∃ world signal result,
        Step.execute act.instruction setup ⟨act.before, world⟩ = .ok signal result ∧
        result.thread.Answered signal act.after := by
  cases h with
  | @acts _ scene result signal _ executes fetched idles answered =>
      exact ⟨rfl, fetched, idles, scene.world, signal, result, executes.execute, answered⟩

theorem moves (h : machine.Proceeds setup thread (some act) next) :
    next = act.after ∧ act.before.registers =
        { thread.registers with ip := act.instruction.offset + act.instruction.size } ∧
      ∃ signal, act.before.Moves setup act.instruction act.after.registers signal := by
  obtain ⟨rfl, -, idles, world, signal, result, execute, answered⟩ := h.executes
  refine ⟨rfl, idles.registers, signal, ?_⟩
  rw [answered.registers]
  exact (Step.execute_moves execute).2

theorem continues {act : Option Act} (h : machine.Proceeds setup thread act next) :
    machine.Continues setup thread (act.map fun act => (act.instruction, act.before)) next := by
  cases h with
  | rests rests => exact .rests rests.id rests.registers
  | acts executes _ behind answered =>
      have same := (Step.execute_moves executes.execute).1
      exact .acts executes behind.id behind.registers
        (answered.id.imp_left fun id => id.trans (same.trans behind.id)) answered.registers

theorem stack_before (h : machine.Proceeds setup thread (some act) next) :
    act.before.stack = thread.stack :=
  h.executes.2.2.1.stack

theorem ip_before (h : machine.Proceeds setup thread (some act) next) :
    act.before.ip = act.instruction.offset + act.instruction.size := by
  rw [h.executes.2.2.1.eq]

theorem fits {act : Option Act} (h : machine.Proceeds setup thread act next) :
    thread.stack.Fits next.stack := by
  cases act with
  | none =>
      cases h with
      | rests rests => exact rests.waits.fits
  | some act =>
      obtain ⟨rfl, -, -, world, signal, result, execute, answered⟩ := h.executes
      exact h.stack_before ▸ (Step.execute_fits execute h.ip_before).trans answered.fits

theorem sameUpTo {act : Option Act} (h : machine.Proceeds setup thread act next)
    (framed : thread.registers.Framed) {depth : Nat} (inside : depth ≤ thread.calls.size)
    (left : depth ≤ next.calls.size) :
    Registers.SameUpTo depth thread.registers next.registers := by
  cases act with
  | none =>
      cases h with
      | rests rests => exact rests.registers ▸ .refl _
  | some act =>
      obtain ⟨rfl, behind, signal, moves⟩ := h.moves
      have calls : act.before.calls = thread.calls := congrArg Registers.calls behind
      have same := moves.sameUpTo (behind ▸ framed.withIp _) (calls ▸ inside) left
      rw [behind] at same
      exact ⟨same.calls, same.activation, same.outer⟩

end Proceeds

theorem Reachable.room {machine : Machine} (reachable : Reachable setup machine) :
    ∀ thread ∈ machine.roster.threads, thread.stack.limit = setup.limits.stack ∧
      thread.stack.depth ≤ setup.limits.stack := by
  refine reachable.threads (fun pushed => ?_) fun _ _ within proceeds => ?_
  · obtain ⟨room, rfl⟩ := Stack.push_eq_ok pushed
    exact ⟨rfl, room⟩
  · obtain ⟨limit, low⟩ := within
    have fits := proceeds.fits
    exact ⟨fits.limit.trans limit, limit ▸ fits.room (limit ▸ low)⟩

theorem Course.sameUpTo {first machine : Machine} {start thread : Thread} {acts : List Act}
    (h : Course setup first start acts machine thread) (reachable : Reachable setup first)
    {depth : Nat} (inside : depth ≤ start.calls.size)
    (left : ∀ act ∈ acts, depth ≤ act.after.calls.size) :
    depth ≤ thread.calls.size ∧ Registers.SameUpTo depth start.registers thread.registers := by
  induction h with
  | start => exact ⟨inside, .refl _⟩
  | @step acts machine next thread after act course _ _ proceeds ih =>
      obtain ⟨there, same⟩ := ih fun act member => left act (List.mem_append_left _ member)
      have framed := (course.reachable reachable).framed thread course.mem
      have stays : depth ≤ after.calls.size := by
        cases proceeds with
        | rests rests =>
            have calls : after.calls = thread.calls := congrArg Registers.calls rests.registers
            rwa [calls]
        | acts => exact left _ (List.mem_append_right _ (List.mem_singleton.mpr rfl))
      exact ⟨stays, same.trans (proceeds.sameUpTo framed there stays)⟩

/-- What the running thread of a machine does next, and the machine after that, if it still runs
then. Threads are told from each other by their numbers, so that it has to be alone to make a copy
of itself, and it does not come back to the same instruction. -/
def act? (setup : Setup) (machine : Machine) : Option (Act × Machine) :=
  match machine.executes? setup, machine.step setup with
  | some (instruction, scene, signal, _), .running next =>
    let running := machine.roster.running
    if (signal = .fork → machine.roster.count = 1) ∧
        (machine.roster.threads.map (·.id)).Nodup ∧ next.roster.running.id = running.id ∧
        next.roster.running.ip ≠ running.ip then
      some (⟨instruction, scene.thread, next.roster.running⟩, next)
    else none
  | _, _ => none

theorem threads_of_count_eq_one {roster : Roster} (alone : roster.count = 1) :
    roster.threads = [roster.running] := by
  have none : roster.earlier = [] ∧ roster.later = [] := by
    rw [← List.length_eq_zero_iff, ← List.length_eq_zero_iff]
    unfold Roster.count at alone
    omega
  rw [Roster.threads, none.1, none.2]
  rfl

theorem act?_eq_some {machine next : Machine} {act : Act}
    (h : machine.act? setup = some (act, next)) :
    machine.step setup = .running next ∧
      machine.Proceeds setup machine.roster.running (some act) next.roster.running := by
  unfold act? at h
  split at h
  · next instruction scene signal result next executed step =>
      dsimp only at h
      split at h
      · next goesOn =>
          cases h
          obtain ⟨alone, distinct, same, moves⟩ := goesOn
          obtain ⟨thread, member, other, proceeds⟩ :=
            exists_proceeds step (Roster.running_mem _)
          have own (id : next.roster.running.id = thread.id) : thread = machine.roster.running :=
            List.inj_on_of_nodup_map distinct member (Roster.running_mem _) (id.symm.trans same)
          refine ⟨step, ?_⟩
          cases proceeds with
          | rests rests =>
              obtain rfl := own rests.id
              exact absurd (congrArg Registers.ip rests.registers) moves
          | acts executes fetched idles answered =>
              have found := executed.symm.trans (executes?_eq_some_iff.mpr executes)
              obtain ⟨rfl, rfl, rfl, rfl⟩ := by simpa using found
              obtain rfl : thread = machine.roster.running := by
                rcases answered.id with id | forks
                · have settles := (Step.execute_moves executes.execute).1
                  exact own (id.trans (settles.trans idles.id))
                · rw [threads_of_count_eq_one (alone forks)] at member
                  exact List.mem_singleton.mp member
              exact .acts executes fetched idles answered
      · cases h
  · cases h

/-- What the running thread of a machine does in some steps, and the machine after them, if it is
the one that runs in all of them. -/
def course? (setup : Setup) (machine : Machine) : Nat → Option (List Act × Machine)
  | 0 => some ([], machine)
  | count + 1 => do
    let (acts, last) ← course? setup machine count
    let (act, next) ← last.act? setup
    some (acts ++ [act], next)

theorem Course.of_course? {machine last : Machine} {count : Nat} {acts : List Act}
    (h : machine.course? setup count = some (acts, last)) :
    Course setup machine machine.roster.running acts last last.roster.running := by
  induction count generalizing acts last with
  | zero =>
      cases h
      exact .start (Roster.running_mem _)
  | succ count ih =>
      obtain ⟨⟨acts, before⟩, found, h⟩ := Option.bind_eq_some_iff.mp h
      obtain ⟨⟨act, next⟩, acted, h⟩ := Option.bind_eq_some_iff.mp h
      cases h
      obtain ⟨step, proceeds⟩ := act?_eq_some acted
      exact (ih found).step step (Roster.running_mem _) proceeds

/-- A thread that does not wait is not disturbed. -/
theorem undisturbed_of_course? {machine last : Machine} {count : Nat} {acts : List Act}
    (h : machine.course? setup count = some (acts, last)) :
    machine.roster.running.stack.Undisturbed acts last.roster.running.stack := by
  induction count generalizing acts last with
  | zero =>
      cases h
      rfl
  | succ count ih =>
      obtain ⟨⟨acts, before⟩, found, h⟩ := Option.bind_eq_some_iff.mp h
      obtain ⟨⟨act, next⟩, acted, h⟩ := Option.bind_eq_some_iff.mp h
      cases h
      obtain ⟨-, proceeds⟩ := act?_eq_some acted
      refine Stack.undisturbed_concat.mpr ⟨proceeds.stack_before ▸ ih found, ?_⟩
      rw [proceeds.executes.1]

end Machine

end ObjectMachine
