import Mathlib.Data.List.Chain
import ObjectMachine.Proofs.Machine.Disregards
import ObjectMachine.Proofs.Machine.Isolation
import ObjectMachine.Proofs.Machine.Stacks

/-!
# Monitors

A monitor is taken by a `wait` that finds it free, or by a decision that lets a thread run which has
been waiting for it; `signal` frees it. In every run these take turns for each monitor, since both
kinds of taking look whether it is held.
-/

namespace ObjectMachine

/-- The monitor of a value. It does not depend on the class that an object is seen as. -/
def Value.monitor? : Value → Option MonitorKey
  | .object _ id => some (.object id)
  | .array id => some (.array id)
  | .classRef id => some (.classRef id)
  | _ => none

inductive Handover
  | acquired
  | released
deriving DecidableEq, Repr

/-- The monitor that an instruction has taken or freed, given the stack that it found. -/
def Instruction.handover? (instruction : Instruction) (stack : Stack) (signal : Signal) :
    Option (MonitorKey × Handover) :=
  let key? := stack.slots.back?.bind Value.monitor?
  match instruction.opcode with
  | .wait => if signal = .proceed then key?.map (·, .acquired) else none
  | .signal => key?.map (·, .released)
  | _ => none

/-- The monitor that a thread takes when it goes on. -/
def ThreadState.handover? : ThreadState → Option (MonitorKey × Handover)
  | .waiting key => some (key, .acquired)
  | _ => none

def Happening.handover? : Happening → Option (MonitorKey × Handover)
  | resumed _ thread => thread.state.handover?
  | executed machine instruction signal _ =>
    instruction.handover? machine.roster.running.stack signal

def handovers (log : List Happening) (key : MonitorKey) : List Handover :=
  (log.filterMap Happening.handover?).filterMap fun (taken, handover) =>
    if taken = key then some handover else none

theorem handovers_append (log entries : List Happening) (key : MonitorKey) :
    handovers (log ++ entries) key = handovers log key ++ handovers entries key := by
  simp [handovers, List.filterMap_append]

/-- What becomes of the held monitors when at most one changes hands. -/
inductive Hands : Option (MonitorKey × Handover) → List MonitorKey → List MonitorKey → Prop
  | keep {held : List MonitorKey} : Hands none held held
  | acquire {key : MonitorKey} {held : List MonitorKey} :
      key ∉ held → Hands (some (key, .acquired)) held (key :: held)
  | release {key : MonitorKey} {held : List MonitorKey} :
      key ∈ held → Hands (some (key, .released)) held (held.erase key)

namespace Step

variable {setup : Setup} {scene next : Scene}

theorem pop_eq {value : Value} (h : pop setup scene = .ok value next) :
    scene.thread.stack.slots.back? = some value ∧ next.world = scene.world := by
  obtain ⟨stack, popped, rfl⟩ := onStack_eq_ok_iff.mp h
  exact ⟨(Stack.pop_eq_ok popped).2.1, rfl⟩

theorem monitorKey_eq_ok {operation : String} {target : Value} {key : MonitorKey}
    (h : monitorKey operation target setup scene = .ok key next) :
    target.monitor? = some key ∧ next = scene := by
  unfold monitorKey at h
  split at h
  · obtain ⟨rfl, rfl⟩ := pure_eq_ok_iff.mp h
    exact ⟨rfl, rfl⟩
  · obtain ⟨rfl, rfl⟩ := pure_eq_ok_iff.mp h
    exact ⟨rfl, rfl⟩
  · obtain ⟨rfl, rfl⟩ := pure_eq_ok_iff.mp h
    exact ⟨rfl, rfl⟩
  · obtain ⟨text, middle, -, h⟩ := bind_eq_ok_iff.mp h
    exact absurd h throw_ne_ok

theorem wait_eq_ok {signal : Signal} (h : wait setup scene = .ok signal next) :
    ∃ key, scene.thread.stack.slots.back?.bind Value.monitor? = some key ∧
      if key ∈ scene.world.held then
        signal = .yield ∧ next.world = scene.world ∧ next.thread.state = .waiting key
      else signal = .proceed ∧ next.world.held = key :: scene.world.held := by
  obtain ⟨target, popped, hp, named⟩ := bind_eq_ok_iff.mp h
  obtain ⟨key, found, hk, looks⟩ := bind_eq_ok_iff.mp named
  obtain ⟨seen, same, hg, takes⟩ := bind_eq_ok_iff.mp looks
  obtain ⟨back, world⟩ := pop_eq hp
  obtain ⟨monitor, rfl⟩ := monitorKey_eq_ok hk
  obtain ⟨rfl, rfl⟩ := get_eq_ok_iff.mp hg
  rw [world] at takes
  refine ⟨key, by rw [back]; exact monitor, ?_⟩
  by_cases taken : key ∈ scene.world.held
  · rw [if_pos taken]
    rw [if_pos (List.contains_iff_mem.mpr taken)] at takes
    obtain ⟨_, waiting, hs, yields⟩ := bind_eq_ok_iff.mp takes
    obtain ⟨rfl, rfl⟩ := pure_eq_ok_iff.mp yields
    rw [← onThread_eq_ok_iff.mp hs]
    exact ⟨rfl, world, rfl⟩
  · rw [if_neg taken]
    rw [if_neg (by simpa using taken)] at takes
    cases takes
    exact ⟨rfl, by rw [← world]⟩

theorem signal_eq_ok {answer : Unit} (h : signal setup scene = .ok answer next) :
    ∃ key ∈ scene.world.held, scene.thread.stack.slots.back?.bind Value.monitor? = some key ∧
      next.world.held = scene.world.held.erase key := by
  obtain ⟨target, popped, hp, named⟩ := bind_eq_ok_iff.mp h
  obtain ⟨key, found, hk, looks⟩ := bind_eq_ok_iff.mp named
  obtain ⟨seen, same, hg, frees⟩ := bind_eq_ok_iff.mp looks
  obtain ⟨back, world⟩ := pop_eq hp
  obtain ⟨monitor, rfl⟩ := monitorKey_eq_ok hk
  obtain ⟨rfl, rfl⟩ := get_eq_ok_iff.mp hg
  rw [world] at frees
  by_cases taken : key ∈ scene.world.held
  · rw [if_pos (List.contains_iff_mem.mpr taken)] at frees
    cases frees
    exact ⟨key, taken, by rw [back]; exact monitor, by rw [← world]⟩
  · rw [if_neg (by simpa using taken)] at frees
    obtain ⟨_, _, -, fails⟩ := bind_eq_ok_iff.mp frees
    exact absurd fails throw_ne_ok

theorem sleep_world {signal : Signal} (h : sleep setup scene = .ok signal next) :
    next.world = scene.world := by
  obtain ⟨value, popped, hp, rest⟩ := bind_eq_ok_iff.mp h
  obtain ⟨-, world⟩ := pop_eq hp
  cases number : value.asInteger? with
  | none =>
      rw [number] at rest
      exact absurd rest throw_ne_ok
  | some millis =>
      rw [number] at rest
      obtain ⟨seen, same, hg, sleeps⟩ := bind_eq_ok_iff.mp rest
      obtain ⟨rfl, rfl⟩ := get_eq_ok_iff.mp hg
      obtain ⟨_, sleeping, hs, yields⟩ := bind_eq_ok_iff.mp sleeps
      obtain ⟨-, rfl⟩ := pure_eq_ok_iff.mp yields
      rw [← onThread_eq_ok_iff.mp hs]
      exact world

/-- An object seen as one of its class's parent has the same monitor. -/
theorem asParent_monitor {answer : Unit} {view : ClassId} {id : ObjectId}
    (top : scene.thread.stack.slots.back? = some (.object view id))
    (h : asParent setup scene = .ok answer next) :
    next.thread.stack.slots.back?.bind Value.monitor? = some (.object id) := by
  obtain ⟨value, popped, hp, rest⟩ := bind_eq_ok_iff.mp h
  obtain rfl : value = .object view id := Option.some.inj ((pop_eq hp).1.symm.trans top)
  obtain ⟨program, found, hc, rest⟩ := bind_eq_ok_iff.mp rest
  obtain ⟨frame, seen, hf, rest⟩ := bind_eq_ok_iff.mp rest
  cases declaring : frame.declaring? with
  | none =>
      rw [declaring] at rest
      exact absurd rest throw_ne_ok
  | some declaring' =>
      rw [declaring] at rest
      dsimp only at rest
      cases above : (program.catalog.get declaring').parent with
      | none =>
          rw [above] at rest
          exact absurd rest throw_ne_ok
      | some parent =>
          rw [above] at rest
          obtain ⟨stack, pushed, rfl⟩ := onStack_eq_ok_iff.mp rest
          obtain ⟨-, rfl⟩ := Stack.push_eq_ok pushed
          simp [Value.monitor?]

/-- Only `wait` and `signal` change what is held. -/
theorem execute_hands {instruction : Instruction} {signal : Signal}
    (h : execute instruction setup scene = .ok signal next) :
    Hands (instruction.handover? scene.thread.stack signal) scene.world.held next.world.held := by
  unfold Instruction.handover?
  dsimp only
  by_cases waits : instruction.opcode = .wait
  · have h : wait setup scene = .ok signal next := by
      unfold execute at h
      rw [waits] at h
      exact h
    obtain ⟨key, monitor, rest⟩ := wait_eq_ok h
    rw [waits, monitor]
    by_cases taken : key ∈ scene.world.held
    · rw [if_pos taken] at rest
      obtain ⟨rfl, same, -⟩ := rest
      rw [same]
      exact .keep
    · rw [if_neg taken] at rest
      obtain ⟨rfl, held⟩ := rest
      rw [held]
      exact .acquire taken
  · by_cases signals : instruction.opcode = .signal
    · have h : (do Step.signal; pure Signal.proceed : Step Signal) setup scene =
          .ok signal next := by
        unfold execute at h
        rw [signals] at h
        exact h
      obtain ⟨answer, freed⟩ := proceed_eq_ok h
      obtain ⟨key, taken, monitor, held⟩ := signal_eq_ok freed
      rw [signals, monitor, held]
      exact .release taken
    · have same : next.world.held = scene.world.held := by
        by_cases sleeps : instruction.opcode = .sleep
        · have h : sleep setup scene = .ok signal next := by
            unfold execute at h
            rw [sleeps] at h
            exact h
          rw [sleep_world h]
        · exact (Disregards.surroundings (fun _ _ =>
            .of_execute sleeps (.inr ⟨waits, signals⟩)) h).1
      rw [same]
      cases other : instruction.opcode with
      | wait => exact absurd other waits
      | signal => exact absurd other signals
      | _ => exact .keep

end Step

/-! ## Turns -/

/-- Whether takings and releases take turns, a taking being the first. -/
structure Alternates (turns : List Handover) : Prop where
  chain : turns.IsChain (· ≠ ·)
  first : turns.head? ≠ some .released

namespace Alternates

variable {turns : List Handover}

theorem acquire (h : Alternates turns) (free : turns.getLast? ≠ some .acquired) :
    Alternates (turns ++ [.acquired]) := by
  constructor
  · refine List.isChain_append.mpr ⟨h.chain, .singleton _, ?_⟩
    rintro last member _ ⟨⟩ rfl
    exact free member
  · cases turns with
    | nil => nofun
    | cons turn rest => exact h.first

theorem release (h : Alternates turns) (taken : turns.getLast? = some .acquired) :
    Alternates (turns ++ [.released]) := by
  constructor
  · refine List.isChain_append.mpr ⟨h.chain, .singleton _, ?_⟩
    rintro last member _ ⟨⟩ rfl
    cases taken.symm.trans member
  · cases turns with
    | nil => cases taken
    | cons turn rest => exact h.first

end Alternates

structure Accounts (log : List Happening) (held : List MonitorKey) : Prop where
  nodup : held.Nodup
  alternates : ∀ key, Alternates (handovers log key)
  last : ∀ key, key ∈ held ↔ (handovers log key).getLast? = some .acquired

theorem accounts_nil : Accounts [] [] where
  nodup := .nil
  alternates _ := ⟨.nil, nofun⟩
  last _ := by simp [handovers]

theorem Accounts.snoc {log entries : List Happening} {held held' : List MonitorKey}
    (h : Accounts log held) {handover? : Option (MonitorKey × Handover)}
    (recorded : entries.filterMap Happening.handover? = handover?.toList)
    (hands : Hands handover? held held') : Accounts (log ++ entries) held' := by
  have turns (key : MonitorKey) : handovers (log ++ entries) key =
      handovers log key ++ handover?.toList.filterMap fun (taken, handover) =>
        if taken = key then some handover else none := by
    rw [handovers_append, ← recorded]
    rfl
  cases hands with
  | keep =>
      have same (key : MonitorKey) : handovers (log ++ entries) key = handovers log key := by
        simpa using turns key
      exact ⟨h.nodup, fun key => same key ▸ h.alternates key, fun key => same key ▸ h.last key⟩
  | @acquire taken held free =>
      refine ⟨List.nodup_cons.mpr ⟨free, h.nodup⟩, fun key => ?_, fun key => ?_⟩
      · rw [turns]
        by_cases own : taken = key
        · subst own
          simpa using (h.alternates taken).acquire fun last => free ((h.last taken).mpr last)
        · simpa [own] using h.alternates key
      · rw [turns, List.mem_cons]
        by_cases own : taken = key
        · simp [own]
        · simpa [own, Ne.symm own] using h.last key
  | @release freed held taken =>
      refine ⟨h.nodup.erase freed, fun key => ?_, fun key => ?_⟩
      · rw [turns]
        by_cases own : freed = key
        · subst own
          simpa using (h.alternates freed).release ((h.last freed).mp taken)
        · simpa [own] using h.alternates key
      · rw [turns, h.nodup.mem_erase_iff]
        by_cases own : freed = key
        · simp [own]
        · simpa [own, Ne.symm own] using h.last key

/-! ## Runs -/

/-- A decision takes the monitor that the thread which goes on has been waiting for. It takes none
for a thread that does not go on. -/
theorem Machine.held_of_reschedule {machine next : Machine} {thread : Thread}
    (decides : machine.reschedule = .running next)
    (resumes : machine.roster.Resumes thread next.roster) :
    (∃ key, thread.state = .waiting key ∧ key ∉ machine.world.held ∧
      next.world.held = key :: machine.world.held) ∨
    (∀ key, thread.state ≠ .waiting key) ∧ next.world.held = machine.world.held := by
  obtain ⟨found, resumes', resumable, held⟩ := exists_resumes_of_reschedule decides
  obtain rfl := resumes'.unique resumes
  unfold Schedule.resumable at resumable
  unfold Schedule.heldBy at held
  cases state : thread.state with
  | waiting key =>
      rw [state] at resumable held
      exact .inl ⟨key, rfl, by simpa using resumable, held⟩
  | _ =>
      rw [state] at held
      exact .inr ⟨nofun, held⟩

namespace Moment

variable {setup : Setup} {moment next : Moment} {log entries : List Happening}

theorem filterMap_handover?_single (happening : Happening) :
    [happening].filterMap Happening.handover? = happening.handover?.toList := by
  cases found : happening.handover? <;> simp [found]

/-- In a move at most one monitor changes hands. -/
theorem Moves.hands (h : Moves setup moment entries next) :
    ∃ handover?, entries.filterMap Happening.handover? = handover?.toList ∧
      Hands handover? moment.machine.world.held next.machine.world.held := by
  cases h with
  | time clock => exact ⟨none, rfl, .keep⟩
  | @decide machine next pending thread decides resumes =>
      refine ⟨thread.state.handover?, filterMap_handover?_single _, ?_⟩
      rcases Machine.held_of_reschedule decides resumes with
        ⟨key, waits, free, held⟩ | ⟨others, held⟩
      · rw [waits, held]
        exact .acquire free
      · have none : thread.state.handover? = none := by
          cases state : thread.state with
          | waiting key => exact absurd state (others key)
          | _ => rfl
        rw [none, held]
        exact .keep
  | @act machine current granted instruction signal after pending fetched execute grants =>
      have hands : Hands (instruction.handover? current.roster.running.stack signal)
          current.world.held after.world.held := Step.execute_hands execute
      have stack : current.roster.running.stack = machine.roster.running.stack := by
        rw [(Machine.fetch_eq_execute fetched).1]
      have held : current.world.held = machine.world.held := by rw [Machine.fetch_world fetched]
      have world : granted.world = after.world := (Machine.grants_of_grant grants).world
      rw [stack, held, ← world] at hands
      exact ⟨_, filterMap_handover?_single _, hands⟩

theorem Occurs.accounts (h : Occurs setup log moment) :
    Accounts log moment.machine.world.held := by
  refine h.induct (fun log moment => Accounts log moment.machine.world.held)
    (fun begins => ?_) fun _ accounts move => ?_
  · rw [begins.start_eq.2]
    exact accounts_nil
  · obtain ⟨handover?, recorded, hands⟩ := move.hands
    exact accounts.snoc recorded hands

/-- A thread that waits for a monitor goes on only in a decision, which takes the monitor for it. -/
theorem Moves.handed_of_waiting (move : Moves setup moment entries next) (orderly : Orderly moment)
    {thread : Thread} {key : MonitorKey} (member : thread ∈ moment.machine.roster.threads)
    (waits : thread.state = .waiting key) :
    (∃ kept ∈ next.machine.roster.threads,
      thread.Handed moment.machine.roster.nextId kept ∧ (forks entries = 0 → kept = thread)) ∨
      entries = [.resumed moment.machine thread] ∧ key ∉ moment.machine.world.held ∧
        next.machine.world.held = key :: moment.machine.world.held := by
  cases move with
  | time clock => exact .inl ⟨thread, member, .kept, fun _ => rfl⟩
  | @decide machine next pending chosen decides resumes =>
      have candidate := Roster.mem_candidates member (by rw [waits]; nofun)
      rcases resumes.mem_candidates_iff.mp candidate with rfl | other
      · rcases Machine.held_of_reschedule decides resumes with
          ⟨taken, waits', free, held⟩ | ⟨others, -⟩
        · cases waits.symm.trans waits'
          exact .inr ⟨rfl, free, held⟩
        · exact absurd waits (others key)
      · exact .inl ⟨thread, Roster.mem_threads.mpr (.inr other), .kept, fun _ => rfl⟩
  | act fetched execute grants =>
      rcases Roster.mem_threads.mp member with rfl | other
      · cases waits.symm.trans (orderly.running rfl)
      · exact .inl (Machine.exists_handed_of_grant grants other)

/-- Monitors exclude each other's holders: in every run the takings and the releases of a monitor
take turns, a taking being the first, and the monitor is held between a taking and the release that
follows it. A thread that waits for a monitor stays as it is, but for a zero on its stack once a
fork has given its number again, until a decision lets it run, which takes the free monitor for it.
A decision takes no other monitor, and neither does a probe of a thread that cannot go on. All of
this goes by the object, whichever class it is seen as. -/
theorem monitors_exclude (occurs : Occurs setup log moment) :
    (∀ key, (handovers log key).IsChain (· ≠ ·) ∧ (handovers log key).head? ≠ some .released ∧
      (key ∈ moment.machine.world.held ↔ (handovers log key).getLast? = some .acquired)) ∧
    (∀ entries next, Moves setup moment entries next →
      (∀ thread ∈ moment.machine.roster.threads, ∀ key, thread.state = .waiting key →
        (∃ kept ∈ next.machine.roster.threads,
          thread.Handed moment.machine.roster.nextId kept ∧
            (forks entries = 0 ∨ forks log < UInt32.size - 1 → kept = thread)) ∨
          entries = [.resumed moment.machine thread] ∧ key ∉ moment.machine.world.held ∧
            next.machine.world.held = key :: moment.machine.world.held) ∧
      (∀ machine thread, entries = [.resumed machine thread] →
        (∀ key, thread.state ≠ .waiting key) →
          next.machine.world.held = moment.machine.world.held) ∧
      ∀ machine instruction signal after view id,
        entries = [.executed machine instruction signal after] → instruction.opcode = .super →
        machine.roster.running.stack.slots.back? = some (.object view id) →
          after.thread.stack.slots.back?.bind Value.monitor? = some (.object id)) ∧
    ∀ threads now held thread, (Schedule.probe threads now held thread).1 = false →
      (Schedule.probe threads now held thread).2 = held := by
  have accounts := occurs.accounts
  refine ⟨fun key => ⟨(accounts.alternates key).chain, (accounts.alternates key).first,
    accounts.last key⟩, fun entries next move => ⟨?_, ?_, ?_⟩, ?_⟩
  · intro thread member key waits
    refine (move.handed_of_waiting occurs.orderly member waits).imp_left ?_
    rintro ⟨kept, found, handed, same⟩
    exact ⟨kept, found, handed,
      fun none => none.elim same fun few => occurs.eq_of_handed few member handed⟩
  · rintro machine thread rfl free
    cases move with
    | decide decides resumes =>
        rcases Machine.held_of_reschedule decides resumes with ⟨key, waits, -⟩ | ⟨-, held⟩
        · exact absurd waits (free key)
        · exact held
  · rintro machine instruction signal after view id rfl seen top
    cases move with
    | @act _ current granted _ _ _ pending fetched execute grants =>
        have stack : current.roster.running.stack = machine.roster.running.stack := by
          rw [(Machine.fetch_eq_execute fetched).1]
        unfold Step.execute at execute
        rw [seen] at execute
        obtain ⟨answer, done⟩ := Step.proceed_eq_ok execute
        exact Step.asParent_monitor (by rw [stack]; exact top) done
  · intro threads now held thread fails
    rw [Schedule.probe_eq] at fails ⊢
    split at fails
    · cases fails
    · next stuck => rw [if_neg stuck]

end Moment

namespace Machine

/-- A thread that takes a monitor and makes a copy of itself, which waits until it is free again. -/
def handsOver : Setup :=
  (Setup.ofMain? [
    0x13, 0,  -- loadlocal, the main class
    0x95,     -- wait
    0x90,     -- fork
    0x07, 0,  -- pushbyte
    0x59, 8,  -- jce, to where the copy goes on
    0x93,     -- nice
    0x13, 0,  -- loadlocal
    0x96,     -- signal
    0x93,     -- nice
    0x31,     -- ret
    0x13, 0,  -- loadlocal
    0x95,     -- wait
    0x92]     -- exit
    0).get (by decide +kernel)

/-- The copy gets the monitor in the decision that lets it go on. -/
theorem monitors_exclude_handsOver :
    ∃ log moment, Moment.Occurs handsOver log moment ∧
      handovers log (.classRef ⟨0⟩) = [.acquired, .released, .acquired] ∧
      (handovers log (.classRef ⟨0⟩)).IsChain (· ≠ ·) ∧
      .classRef ⟨0⟩ ∈ moment.machine.world.held := by
  have runs : occursSatisfying handsOver 15 (fun log _ =>
      handovers log (.classRef ⟨0⟩) = [.acquired, .released, .acquired]) = true := by
    decide +kernel
  obtain ⟨log, machine, occurs, found⟩ := exists_of_occursSatisfying runs
  have turns := of_decide_eq_true found
  obtain ⟨chain, -, held⟩ := (Moment.monitors_exclude occurs).1 (.classRef ⟨0⟩)
  exact ⟨log, _, occurs, turns, chain, held.mpr (by rw [turns]; rfl)⟩

end Machine

end ObjectMachine
