import Mathlib.Algebra.Group.Nat.Defs
import ObjectMachine.Proofs.Machine.Turns

/-!
# Sleeping threads

A sleeping thread stands in the circle of threads until a decision finds its tick passed. The ticks
that pass are those that instructions complete and those that decisions skip while all threads
sleep, and the clock shows their number as a word. The main statement is that a thread executes
nothing for as many ticks as it was to sleep, if the tick at which it wakes up fits in a word.
Otherwise it has slept out at once.
-/

namespace ObjectMachine

namespace Clock

/-- Under a clock that counts instructions, a pause has a tick to the millisecond. -/
theorem toNat_ticksForMillis {clock : Clock} {every : UInt64} (counts : clock.source = .steps every)
    (millis : Int64) : ((clock.ticksForMillis millis).toNat : Int) = max 1 millis.toInt := by
  have unsigned {number : Int64} (positive : 0 ≤ number.toInt) :
      (number.toUInt64.toNat : Int) = number.toInt := by
    have cond := BitVec.toInt_eq_toNat_cond number.toBitVec
    change (number.toBitVec.toNat : Int) = number.toBitVec.toInt
    change 0 ≤ number.toBitVec.toInt at positive
    split at cond <;> omega
  have clamped : (max millis 0).toInt = max millis.toInt 0 := by
    have cases : max millis 0 = if millis ≤ 0 then 0 else millis := rfl
    have compare : millis ≤ 0 ↔ millis.toInt ≤ 0 := Int64.le_iff_toInt_le
    have zero : (0 : Int64).toInt = 0 := rfl
    rw [cases]
    by_cases low : millis.toInt ≤ 0
    · rw [if_pos (compare.mpr low)]
      omega
    · rw [if_neg (mt compare.mp low)]
      omega
  have positive : 0 ≤ (max millis 0).toInt := by omega
  have ticks : clock.ticksForMillis millis = max (max millis 0).toUInt64 1 := by
    unfold ticksForMillis
    rw [counts]
  have nat : (clock.ticksForMillis millis).toNat = max (max millis 0).toUInt64.toNat 1 := by
    rw [ticks]
    exact UInt64.toNat_max _ _
  have whole := unsigned positive
  omega

end Clock

theorem Step.sleep_eq_ok {setup : Setup} {scene next : Scene} {signal : Signal}
    (h : sleep setup scene = .ok signal next) :
    ∃ millis, scene.thread.stack.slots.back?.bind Value.asInteger? = some millis ∧
      signal = .yield ∧ next.world = scene.world ∧ next.thread.state =
        .sleeping (scene.world.clock.now + scene.world.clock.ticksForMillis millis) := by
  obtain ⟨value, popped, hp, rest⟩ := bind_eq_ok_iff.mp h
  obtain ⟨back, world⟩ := pop_eq hp
  cases number : value.asInteger? with
  | none =>
      rw [number] at rest
      exact absurd rest throw_ne_ok
  | some millis =>
      rw [number] at rest
      obtain ⟨seen, same, hg, sleeps⟩ := bind_eq_ok_iff.mp rest
      obtain ⟨rfl, rfl⟩ := get_eq_ok_iff.mp hg
      obtain ⟨_, sleeping, hs, yields⟩ := bind_eq_ok_iff.mp sleeps
      obtain ⟨rfl, rfl⟩ := pure_eq_ok_iff.mp yields
      rw [← onThread_eq_ok_iff.mp hs, back]
      exact ⟨millis, number, rfl, world, by rw [world]⟩

/-! ## Places -/

namespace Roster

variable {roster chosen : Roster} {thread other : Thread} {place : Nat}

theorem getElem?_running (roster : Roster) :
    roster.threads[roster.earlier.length]? = some roster.running := by
  rw [threads, List.getElem?_append_right (Nat.le_refl _), Nat.sub_self]
  rfl

/-- What stands beside an item is still there when that is replaced or removed. -/
theorem getElem?_beside {before behind : List Thread} {own : Thread}
    (there : (before ++ own :: behind)[place]? = some other) :
    place = before.length ∧ other = own ∨
      (∀ own' more, (before ++ own' :: (behind ++ more))[place]? = some other) ∧
        (before ++ behind)[if before.length < place then place - 1 else place]? = some other := by
  rcases Nat.lt_trichotomy place before.length with inside | rfl | beyond
  · rw [List.getElem?_append_left inside] at there
    refine .inr ⟨fun own' more => ?_, ?_⟩
    · rwa [List.getElem?_append_left inside]
    · rwa [if_neg (by omega), List.getElem?_append_left inside]
  · rw [List.getElem?_append_right (Nat.le_refl _), Nat.sub_self] at there
    exact .inl ⟨rfl, (Option.some.inj there).symm⟩
  · obtain ⟨distance, rfl⟩ : ∃ distance, place = before.length + distance + 1 :=
      ⟨place - before.length - 1, by omega⟩
    have found : behind[distance]? = some other := by
      rwa [List.getElem?_append_right (by omega), Nat.add_assoc, Nat.add_sub_cancel_left,
        List.getElem?_cons_succ] at there
    refine .inr ⟨fun own' more => ?_, ?_⟩
    · rw [List.getElem?_append_right (by omega), Nat.add_assoc, Nat.add_sub_cancel_left,
        List.getElem?_cons_succ, List.getElem?_append_left (List.getElem?_eq_some_iff.mp found).1]
      exact found
    · rwa [if_pos beyond, Nat.add_sub_cancel, List.getElem?_append_right (Nat.le_add_right _ _),
        Nat.add_sub_cancel_left]

def placeAfter (roster : Roster) (place : Nat) : Nat :=
  if roster.running.state = .exiting ∧ roster.earlier.length < place then place - 1 else place

theorem candidates_getElem? (there : roster.threads[place]? = some thread)
    (stays : thread.state ≠ .exiting) :
    roster.candidates[roster.placeAfter place]? = some thread := by
  unfold candidates placeAfter
  by_cases exiting : roster.running.state = .exiting
  · simp only [exiting, if_true, true_and]
    rcases getElem?_beside there with ⟨-, rfl⟩ | ⟨-, found⟩
    · exact absurd exiting stays
    · exact found
  · rw [if_neg exiting, if_neg fun both => exiting both.1]
    exact there

theorem Resumes.getElem? (h : roster.Resumes thread chosen)
    (there : roster.candidates[place]? = some other) :
    place = chosen.earlier.length ∧ other = thread ∨ chosen.threads[place]? = some other := by
  rw [h.candidates] at there
  refine (getElem?_beside there).imp_right fun ⟨found, _⟩ => ?_
  have found := found chosen.running []
  rwa [List.append_nil] at found

theorem Spares.getElem? {children : List Thread} (h : roster.Spares children chosen)
    (there : roster.threads[place]? = some other) (apart : roster.earlier.length ≠ place) :
    ∃ kept, chosen.threads[place]? = some kept ∧ other.Handed roster.nextId kept := by
  rcases getElem?_beside there with ⟨rfl, -⟩ | ⟨found, -⟩
  · exact absurd rfl apart
  · obtain ⟨later, all, same⟩ := h.later
    have pairs : List.Forall₂ (Thread.Handed roster.nextId)
        (roster.earlier ++ chosen.running :: roster.later)
        (chosen.earlier ++ chosen.running :: later) :=
      List.rel_append h.earlier (.cons .kept same)
    have found := found chosen.running []
    rw [List.append_nil] at found
    obtain ⟨inside, rfl⟩ := List.getElem?_eq_some_iff.mp found
    have within := pairs.length_eq ▸ inside
    refine ⟨_, ?_, pairs.get inside within⟩
    rw [threads, all, ← List.cons_append, ← List.append_assoc, List.getElem?_append_left within]
    exact List.getElem?_eq_getElem within

end Roster

/-! ## Ticks -/

namespace Happening

/-- The ticks that pass with a move: one that an instruction completes, or those that a decision
skips. -/
def passed : Happening → Nat
  | resumed machine _ =>
    match machine.reschedule with
    | .running next => next.world.clock.now.toNat - machine.world.clock.now.toNat
    | .ended _ => 0
  | executed machine _ _ _ => machine.world.clock.completes.toNat

def elapsed (log : List Happening) : Nat :=
  log.foldr (fun entry ticks => entry.passed + ticks) 0

@[simp] theorem elapsed_cons (entry : Happening) (log : List Happening) :
    elapsed (entry :: log) = entry.passed + elapsed log :=
  rfl

/-- What happens until the thread at a place executes an instruction, and that instruction. -/
def nextTurn (place : Nat) : List Happening → Option (List Happening × Happening)
  | [] => none
  | resumed machine thread :: log =>
    (nextTurn (machine.roster.placeAfter place) log).map fun (between, next) =>
      (resumed machine thread :: between, next)
  | executed machine instruction signal after :: log =>
    if machine.roster.earlier.length = place then
      some ([], executed machine instruction signal after)
    else
      (nextTurn place log).map fun (between, next) =>
        (executed machine instruction signal after :: between, next)

end Happening

open Happening

/-- How a decision moves the clock. -/
theorem Machine.passed_of_reschedule {machine next : Machine} {every : UInt64}
    (counts : machine.Counts every) (h : machine.reschedule = .running next) (thread : Thread) :
    next.world.clock.now.toNat =
      machine.world.clock.now.toNat + passed (.resumed machine thread) := by
  obtain ⟨_, _, chooses⟩ := goesOnAt_of_reschedule counts h
  have forward := UInt64.le_iff_toNat_le.mp chooses.timely.bounds.1
  have skipped : passed (.resumed machine thread) =
      next.world.clock.now.toNat - machine.world.clock.now.toNat := by
    simp only [passed, h]
  omega

namespace Follows

variable {setup : Setup} {every : UInt64} {owed place : Nat} {machine : Machine}
  {log between : List Happening} {next : Happening}

theorem now_eq (h : Follows setup every owed machine log)
    (turn : nextTurn place log = some (between, next)) :
    next.machine.world.clock.now.toNat =
      (machine.world.clock.now.toNat + elapsed between) % UInt64.size := by
  induction h generalizing place between with
  | pause => cases turn
  | @decide owed machine chosen thread log counts decides resumes follows ih =>
      obtain ⟨⟨between, next'⟩, turn, same⟩ := Option.map_eq_some_iff.mp turn
      cases same
      have skips := Machine.passed_of_reschedule counts decides thread
      have shows := ih turn
      change _ = (chosen.world.clock.now.toNat + _) % _ at shows
      change _ = (machine.world.clock.now.toNat + _) % _
      rw [shows, skips, elapsed_cons, Nat.add_assoc]
  | @act machine current granted instruction signal after pending log counts awake fetched execute
      grants follows ih =>
      unfold nextTurn at turn
      split at turn
      · cases turn
        exact (Nat.mod_eq_of_lt (UInt64.toNat_lt _)).symm
      · obtain ⟨⟨between, next'⟩, turn, same⟩ := Option.map_eq_some_iff.mp turn
        cases same
        have shows := ih turn
        change _ = (granted.world.clock.now.toNat + _) % _ at shows
        rw [Machine.clock_of_grant counts fetched execute grants, Clock.toNat_step_now counts]
          at shows
        change _ = (machine.world.clock.now.toNat + _) % _
        rw [shows, elapsed_cons, ← Nat.add_assoc]
        exact Nat.mod_add_mod _ _ _
  | last =>
      unfold nextTurn at turn
      split at turn
      · cases turn
        exact (Nat.mod_eq_of_lt (UInt64.toNat_lt _)).symm
      · cases turn

theorem not_sleeping_of_awake {thread : Thread} (awake : machine.Awake)
    (own : machine.roster.threads[machine.roster.earlier.length]? = some thread) (wake : UInt64) :
    thread.state ≠ .sleeping wake := by
  obtain rfl := Option.some.inj (machine.roster.getElem?_running.symm.trans own)
  rw [awake.running]
  nofun

theorem le_elapsed {thread : Thread} {wake : UInt64} {base gone ticks : Nat}
    (h : Follows setup every owed machine log)
    (there : machine.roster.threads[place]? = some thread) (sleeps : thread.state = .sleeping wake)
    (shows : machine.world.clock.now.toNat = (base + gone) % UInt64.size)
    (wakes : wake.toNat = base + ticks) (turn : nextTurn place log = some (between, next)) :
    ticks ≤ gone + elapsed between := by
  induction h generalizing place gone between thread with
  | pause => cases turn
  | @decide owed machine chosen thread' log counts decides resumes follows ih =>
      obtain ⟨⟨between, next'⟩, turn, same⟩ := Option.map_eq_some_iff.mp turn
      cases same
      have small := wake.toNat_lt
      have skips := Machine.passed_of_reschedule counts decides thread'
      have later := chosen.world.clock.now.toNat_lt
      change machine.world.clock.now.toNat = _ at shows
      have shows' : chosen.world.clock.now.toNat =
          (base + (gone + passed (.resumed machine thread'))) % UInt64.size := by
        unfold UInt64.size at shows ⊢
        omega
      rw [elapsed_cons, ← Nat.add_assoc]
      have found := Roster.candidates_getElem? there (by rw [sleeps]; nofun)
      rcases resumes.getElem? found with ⟨-, rfl⟩ | stays
      · -- It has been chosen, so that its tick has passed.
        obtain ⟨other, resumes', resumable, -⟩ := Machine.exists_resumes_of_reschedule decides
        obtain rfl := resumes.unique resumes'
        have passed := UInt64.le_iff_toNat_le.mp (Schedule.le_of_resumable resumable sleeps)
        unfold UInt64.size at shows'
        omega
      · exact ih stays sleeps shows' turn
  | @act machine current granted instruction signal after pending log counts awake fetched execute
      grants follows ih =>
      unfold nextTurn at turn
      split at turn
      · next own => exact absurd sleeps (not_sleeping_of_awake awake (own ▸ there) wake)
      · next apart =>
          obtain ⟨⟨between, next'⟩, turn, same⟩ := Option.map_eq_some_iff.mp turn
          cases same
          obtain ⟨children, spares, -⟩ :=
            Machine.spares_of_grant ⟨current, instruction, fetched, execute⟩ grants
          obtain ⟨kept, stays, handed⟩ := spares.getElem? there apart
          have shows' : granted.world.clock.now.toNat =
              (base + (gone + machine.world.clock.completes.toNat)) % UInt64.size := by
            change machine.world.clock.now.toNat = _ at shows
            rw [Machine.clock_of_grant counts fetched execute grants, Clock.toNat_step_now counts,
              shows, Nat.mod_add_mod, Nat.add_assoc]
          rw [elapsed_cons, ← Nat.add_assoc]
          exact ih stays (handed.state.trans sleeps) shows' turn
  | last _ awake =>
      unfold nextTurn at turn
      split at turn
      · next own => exact absurd sleeps (not_sleeping_of_awake awake (own ▸ there) wake)
      · cases turn

/-- What is known of an instruction and of how the run goes on after it. -/
theorem of_executed {actor : Machine} {instruction : Instruction} {signal : Signal} {after : Scene}
    (h : Follows setup every owed machine (.executed actor instruction signal after :: log)) :
    actor.Counts every ∧ (∃ current, actor.fetch setup = .execute current instruction ∧
      Step.execute instruction setup ⟨current.roster.running, current.world⟩ = .ok signal after) ∧
    ∀ granted pending, (actor.performed after).grant setup signal = .ok (granted, pending) →
      Follows setup every (pending.toNat + actor.world.clock.completes.toNat) granted.noted
        log := by
  cases h with
  | act counts awake fetched execute grants follows =>
      refine ⟨counts, ⟨_, fetched, execute⟩, fun granted pending same => ?_⟩
      cases grants.symm.trans same
      exact follows
  | last counts awake fetched execute fails =>
      exact ⟨counts, ⟨_, fetched, execute⟩, fun granted pending _ => .pause⟩

end Follows

/-- What executing `sleep` consists of. -/
theorem Machine.sleeps_of_execute {setup : Setup} {machine current : Machine} {every : UInt64}
    {instruction : Instruction} {signal : Signal} {after : Scene} (counts : machine.Counts every)
    (sleeps : instruction.opcode = .sleep)
    (fetched : machine.fetch setup = .execute current instruction)
    (execute : Step.execute instruction setup ⟨current.roster.running, current.world⟩ =
      .ok signal after) :
    signal = .yield ∧
    ∃ millis, machine.roster.running.stack.slots.back?.bind Value.asInteger? = some millis ∧
    ∃ ticks : Nat, (ticks : Int) = max 1 millis.toInt ∧
      after.thread.state = .sleeping (UInt64.ofNat (after.world.clock.now.toNat + ticks)) := by
  have slept : Step.sleep setup ⟨current.roster.running, current.world⟩ = .ok signal after := by
    unfold Step.execute at execute
    rw [sleeps] at execute
    exact execute
  obtain ⟨millis, found, yields, world, state⟩ := Step.sleep_eq_ok slept
  rw [(fetch_eq_execute fetched).1] at found
  have counts' : after.world.clock.source = .steps every := by
    rw [world, fetch_world fetched]
    exact (congrArg Clock.source (Clock.look_of_counts (Clock.step_source counts))).trans
      (Clock.step_source counts)
  refine ⟨yields, millis, found, _, Clock.toNat_ticksForMillis counts' millis, ?_⟩
  rw [state, ← world, UInt64.ofNat_add, UInt64.ofNat_toNat, UInt64.ofNat_toNat]

namespace Progress

/-- A thread that is to sleep for some milliseconds, and for one at least, is to wake up that many
ticks later. If that tick fits in a word, it executes nothing before as many have really passed; so
it does in the first `2 ^ 63` ticks. If it does not fit, the thread can go on at once. -/
theorem sleep_lasts (setup : Setup) (store : Store) (every : UInt64) (args : List String)
    (count : Nat) {before log : List Happening} {machine : Machine} {instruction : Instruction}
    {signal : Signal} {after : Scene}
    (runs : history setup count (Machine.start setup store (.steps every) args) =
      before ++ .executed machine instruction signal after :: log)
    (sleeps : instruction.opcode = .sleep) :
    ∃ millis, machine.roster.running.stack.slots.back?.bind Value.asInteger? = some millis ∧
    ∃ now ticks : Nat, now = after.world.clock.now.toNat ∧ (ticks : Int) = max 1 millis.toInt ∧
      after.thread.state = .sleeping (UInt64.ofNat (now + ticks)) ∧
      (∀ between next, nextTurn machine.roster.earlier.length log = some (between, next) →
        next.machine.world.clock.now = UInt64.ofNat (now + elapsed between) ∧
        (now + ticks < UInt64.size → ticks ≤ elapsed between)) ∧
      (now ≤ 2 ^ 63 → now + ticks < UInt64.size) ∧
      (UInt64.size ≤ now + ticks → ∀ threads held,
        Schedule.resumable threads held after.world.clock.now after.thread = true) := by
  obtain ⟨first, follows⟩ := Follows.of_run setup store every args count
  rw [runs] at follows
  obtain ⟨owed, -, middle, follows⟩ := follows.exists_rest (by omega)
  obtain ⟨counts, ⟨current, fetched, execute⟩, goesOn⟩ := follows.of_executed
  obtain ⟨rfl, millis, found, ticks, length, state⟩ :=
    Machine.sleeps_of_execute counts sleeps fetched execute
  have follows := goesOn (machine.performed after) true rfl
  have there : (machine.performed after).roster.threads[machine.roster.earlier.length]? =
      some after.thread := (machine.performed after).roster.getElem?_running
  have small := after.world.clock.now.toNat_lt
  have short := millis.toInt_lt
  refine ⟨millis, found, _, ticks, rfl, length, state,
    fun between next turn => ⟨?_, fun fits => ?_⟩, fun early => ?_, fun wraps threads held => ?_⟩
  · have shows := follows.now_eq turn
    rw [← UInt64.toNat_inj, shows, UInt64.toNat_ofNat']
    rfl
  · have wakes : (UInt64.ofNat (after.world.clock.now.toNat + ticks)).toNat =
        after.world.clock.now.toNat + ticks := UInt64.toNat_ofNat_of_lt' fits
    have lasts : ticks ≤ 0 + elapsed _ := follows.le_elapsed there state
      (Nat.mod_eq_of_lt (UInt64.toNat_lt _)).symm wakes turn
    omega
  · unfold UInt64.size
    omega
  · unfold Schedule.resumable
    rw [state]
    unfold UInt64.size at wraps
    refine decide_eq_true (UInt64.le_iff_toNat_le.mpr ?_)
    rw [UInt64.toNat_ofNat']
    omega

/-- A thread that sleeps three times for as long as possible. -/
def sleepsLong : Setup :=
  (Setup.ofMain? [
    0x0B, 0xFF, 0xFF, 0xFF, 0xFF, 0xFF, 0xFF, 0xFF, 0x7F,  -- pushlong
    0x94,                                                  -- sleep
    0x0B, 0xFF, 0xFF, 0xFF, 0xFF, 0xFF, 0xFF, 0xFF, 0x7F,
    0x94,
    0x0B, 0xFF, 0xFF, 0xFF, 0xFF, 0xFF, 0xFF, 0xFF, 0x7F,
    0x94,
    0x92]                                                  -- exit
    0).get (by decide +kernel)

def sleepsLongLog : List Happening :=
  history sleepsLong 20
    (Machine.start sleepsLong (.ofCatalog sleepsLong.program.catalog) (.steps 100) [])

/-- For how many milliseconds the thread that executes an instruction of a record is to sleep, at
which tick, and how many ticks pass before it executes another one. -/
def sleepAt? (log : List Happening) (position : Nat) : Option (Int64 × UInt64 × Nat) :=
  match log.drop position with
  | .executed machine instruction _ after :: rest => do
    guard (instruction.opcode = .sleep)
    let millis ← machine.roster.running.stack.slots.back?.bind Value.asInteger?
    let (between, _) ← nextTurn machine.roster.earlier.length rest
    pure (millis, after.world.clock.now, elapsed between)
  | _ => none

theorem exists_of_sleepAt? {log : List Happening} {position ticks : Nat} {millis : Int64}
    {now : UInt64} (h : sleepAt? log position = some (millis, now, ticks)) :
    ∃ before rest machine instruction signal after between next,
      log = before ++ .executed machine instruction signal after :: rest ∧
      instruction.opcode = .sleep ∧
      machine.roster.running.stack.slots.back?.bind Value.asInteger? = some millis ∧
      nextTurn machine.roster.earlier.length rest = some (between, next) ∧
      after.world.clock.now = now ∧ elapsed between = ticks := by
  unfold sleepAt? at h
  split at h
  · next machine instruction signal after rest behind =>
      obtain ⟨_, sleeps, h⟩ := Option.bind_eq_some_iff.mp h
      obtain ⟨found, top, h⟩ := Option.bind_eq_some_iff.mp h
      obtain ⟨⟨between, next⟩, turn, h⟩ := Option.bind_eq_some_iff.mp h
      cases h
      refine ⟨log.take position, rest, machine, instruction, signal, after, between, next, ?_, ?_,
        top, turn, rfl, rfl⟩
      · rw [← behind, List.take_append_drop]
      · by_contra other
        unfold guard at sleeps
        rw [if_neg other] at sleeps
        cases sleeps
  · cases h

/-- There is a run in which a thread goes on before it has slept out. -/
theorem sleep_cut_short :
    ¬ ∀ (setup : Setup) (store : Store) (every : UInt64) (args : List String) (count : Nat)
      (before log : List Happening) (machine : Machine) (instruction : Instruction)
      (signal : Signal) (after : Scene) (millis : Int64) (between : List Happening)
      (next : Happening),
      history setup count (Machine.start setup store (.steps every) args) =
        before ++ .executed machine instruction signal after :: log →
      instruction.opcode = .sleep →
      machine.roster.running.stack.slots.back?.bind Value.asInteger? = some millis →
      nextTurn machine.roster.earlier.length log = some (between, next) →
      max 1 millis.toInt ≤ elapsed between := by
  intro lasts
  have third : sleepAt? sleepsLongLog 9 =
      some (9223372036854775807, 18446744073709551614, 0) := by
    decide +kernel
  obtain ⟨_, _, _, _, _, _, _, _, log, sleeps, top, turn, -, none⟩ := exists_of_sleepAt? third
  have slept := lasts _ _ _ _ _ _ _ _ _ _ _ _ _ _ log sleeps top turn
  rw [none] at slept
  exact absurd slept (by decide)

/-- The first time the thread sleeps as long as it is to. -/
theorem sleep_lasts_sleepsLong :
    ∃ before machine instruction signal after log between next, sleepsLongLog =
        before ++ .executed machine instruction signal after :: log ∧
      instruction.opcode = .sleep ∧
      nextTurn machine.roster.earlier.length log = some (between, next) ∧
      9223372036854775807 ≤ elapsed between := by
  have once : sleepAt? sleepsLongLog 3 =
      some (9223372036854775807, 0, 9223372036854775807) := by
    decide +kernel
  obtain ⟨before, log, machine, instruction, signal, after, between, next, runs, sleeps, top, turn,
    shows, -⟩ := exists_of_sleepAt? once
  obtain ⟨millis, top', now, ticks, rfl, length, -, slept, fits, -⟩ :=
    sleep_lasts sleepsLong _ 100 [] 20 runs sleeps
  obtain rfl := Option.some.inj (top.symm.trans top')
  have exactly : (9223372036854775807 : Int64).toInt = 9223372036854775807 := by decide
  have early : after.world.clock.now.toNat ≤ 2 ^ 63 := by
    rw [shows]
    decide
  have lasted := (slept between next turn).2 (fits early)
  refine ⟨before, machine, instruction, signal, after, log, between, next, runs, sleeps, turn, ?_⟩
  omega

end Progress

end ObjectMachine
