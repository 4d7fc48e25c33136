import ObjectMachine.Proofs.Machine.Decisions
import ObjectMachine.Proofs.Machine.Endings

/-!
# Choices of the scheduler

A decision goes around the circle of threads once and, if none of them can go on but some sleep,
once more with the clock set to the tick at which the first of those wakes up. The main statement
says for which thread it is made and on which clock, and when there is none.
-/

namespace ObjectMachine

namespace Schedule

variable {threads : List Thread} {nextId : ThreadId} {held : List MonitorKey} {clock : Clock}

/-- Whether a thread is the first one around the circle, from `start` on, that can go on. -/
structure First (threads : List Thread) (held : List MonitorKey) (now : UInt64) (start : Nat)
    (thread : Thread) (place : Nat) : Prop where
  there : threads[place]? = some thread
  resumes : resumable threads held now thread = true
  nearest : ∃ distance < threads.length, place = (start + distance) % threads.length ∧
    ∀ nearer < distance, ∀ other, threads[(start + nearer) % threads.length]? = some other →
      resumable threads held now other = false

theorem pick_eq_some_iff {now : UInt64} {start place : Nat} (inside : start ≤ threads.length) :
    pick threads held now start = some place ↔
      ∃ thread, First threads held now start thread place := by
  unfold pick
  dsimp only
  rw [← List.rotate_eq_drop_append_take inside]
  constructor
  · intro h
    obtain ⟨distance, found, rfl⟩ := Option.map_eq_some_iff.mp h
    obtain ⟨within, resumes, before⟩ := List.findIdx?_eq_some_iff_getElem.mp found
    rw [List.length_rotate] at within
    rw [List.getElem_rotate] at resumes
    refine ⟨_, ?_, resumes, distance, within, rfl, fun nearer closer other there => ?_⟩
    · rw [Nat.add_comm start distance]
      exact List.getElem?_eq_getElem _
    · have stuck := before nearer closer
      rw [List.getElem_rotate] at stuck
      rw [Nat.add_comm start nearer] at there
      obtain ⟨-, rfl⟩ := List.getElem?_eq_some_iff.mp there
      exact Bool.eq_false_iff.mpr stuck
  · rintro ⟨thread, there, resumes, distance, within, rfl, before⟩
    refine Option.map_eq_some_iff.mpr ⟨distance, ?_, rfl⟩
    refine List.findIdx?_eq_some_iff_getElem.mpr
      ⟨by rwa [List.length_rotate], ?_, fun nearer closer => ?_⟩
    · rw [List.getElem_rotate]
      rw [Nat.add_comm start distance] at there
      obtain ⟨_, same⟩ := List.getElem?_eq_some_iff.mp there
      rw [same]
      exact resumes
    · rw [List.getElem_rotate]
      refine Bool.eq_false_iff.mp (before nearer closer _ ?_)
      rw [Nat.add_comm start nearer]
      exact List.getElem?_eq_getElem _

theorem resumeFirst_eq_some_iff {start : Nat} {decision : Decision}
    (inside : start ≤ threads.length) :
    resumeFirst threads nextId held clock start = some decision ↔
      ∃ thread place, First threads held clock.now start thread place ∧
        decision = .run ⟨threads.take place, { thread with state := .running },
          threads.drop (place + 1), nextId⟩ (heldBy thread held) clock := by
  have resumed {thread : Thread} {place : Nat} (there : threads[place]? = some thread) :
      resume threads nextId held clock place = some (.run ⟨threads.take place,
        { thread with state := .running }, threads.drop (place + 1), nextId⟩
        (heldBy thread held) clock) := by
    obtain ⟨within, rfl⟩ := List.getElem?_eq_some_iff.mp there
    unfold resume
    rw [List.drop_eq_getElem_cons within]
  constructor
  · intro h
    obtain ⟨place, picked, chosen⟩ := Option.bind_eq_some_iff.mp h
    obtain ⟨thread, first⟩ := (pick_eq_some_iff inside).mp picked
    rw [resumed first.there] at chosen
    exact ⟨thread, place, first, (Option.some.inj chosen).symm⟩
  · rintro ⟨thread, place, first, rfl⟩
    exact Option.bind_eq_some_iff.mpr
      ⟨place, (pick_eq_some_iff inside).mpr ⟨thread, first⟩, resumed first.there⟩

theorem wake?_eq_some_iff {state : ThreadState} {wake : UInt64} :
    state.wake? = some wake ↔ state = .sleeping wake := by
  cases state <;> simp [ThreadState.wake?]

theorem earliestWake_eq_some_iff {wake : UInt64} :
    earliestWake threads = some wake ↔
      (∃ thread ∈ threads, thread.state = .sleeping wake) ∧
        ∀ thread ∈ threads, ∀ later, thread.state = .sleeping later → wake ≤ later := by
  unfold earliestWake
  rw [List.min?_eq_some_iff]
  simp only [List.mem_filterMap, wake?_eq_some_iff]
  exact and_congr_right fun _ =>
    ⟨fun least thread member later sleeps => least later ⟨thread, member, sleeps⟩,
      fun least later ⟨thread, member, sleeps⟩ => least thread member later sleeps⟩

/-- A sleeper that cannot go on has not been slept out yet. -/
theorem lt_of_not_resumable {thread : Thread} {now wake : UInt64}
    (stuck : resumable threads held now thread = false) (sleeps : thread.state = .sleeping wake) :
    now < wake := by
  unfold resumable at stuck
  rw [sleeps] at stuck
  exact UInt64.not_le.mp (of_decide_eq_false stuck)

theorem le_of_resumable {thread : Thread} {now wake : UInt64}
    (resumes : resumable threads held now thread = true) (sleeps : thread.state = .sleeping wake) :
    wake ≤ now := by
  unfold resumable at resumes
  rw [sleeps] at resumes
  exact of_decide_eq_true resumes

/-! ## Rounds -/

/-- Goes around the circle of threads until one of them goes on. After each round without one the
time passes until the first of them wakes up. -/
def rounds (threads : List Thread) (nextId : ThreadId) (start gone : Nat) :
    Nat → List MonitorKey → Clock → Option Decision
  | 0, _, _ => none
  | more + 1, held, clock =>
    match search threads clock.now (threads.rotate start) held with
    | (some distance, held) =>
      let place := (start + distance) % threads.length
      threads[place]?.map fun thread =>
        .run ⟨threads.take place, { thread with state := .running }, threads.drop (place + 1),
          nextId⟩ held clock
    | (none, held) =>
      match earliestWake threads with
      | some wake => rounds threads nextId start gone more held (clock.idleUntil wake)
      | none => some (.deadlock threads gone)

/-- A round without a thread leaves the monitors as they are. -/
theorem rounds_succ (nextId : ThreadId) {start : Nat} (gone more : Nat) (clock : Clock)
    (inside : start ≤ threads.length) :
    rounds threads nextId start gone (more + 1) held clock =
      match resumeFirst threads nextId held clock start with
      | some decision => some decision
      | none =>
        match earliestWake threads with
        | some wake => rounds threads nextId start gone more held (clock.idleUntil wake)
        | none => some (.deadlock threads gone) := by
  rw [resumeFirst_eq_search nextId clock inside, rounds, search_eq]
  cases found : (threads.rotate start).findIdx? (resumable threads held clock.now) with
  | none => rfl
  | some distance =>
      obtain ⟨within, -⟩ := List.findIdx?_eq_some_iff_getElem.mp found
      have place : (start + distance) % threads.length < threads.length :=
        Nat.mod_lt _ (by rw [List.length_rotate] at within; omega)
      dsimp only
      rw [List.getElem?_eq_getElem place]
      rfl

end Schedule

namespace Roster

variable {roster : Roster} {held : List MonitorKey} {clock : Clock}

/-- Two rounds decide, however many are allowed. -/
theorem rounds_eq_schedule (held : List MonitorKey) (clock : Clock) (more : Nat)
    (remain : roster.candidates ≠ []) :
    Schedule.rounds roster.candidates roster.nextId roster.firstPlace roster.earlier.length
      (more + 2) held clock = some (roster.schedule held clock) := by
  have nonempty : roster.candidates.isEmpty = false := by simpa using remain
  rw [schedule_eq, choice, nonempty, if_neg Bool.false_ne_true,
    Schedule.rounds_succ _ _ _ _ roster.firstPlace_le]
  cases Schedule.resumeFirst roster.candidates roster.nextId held clock roster.firstPlace with
  | some decision => rfl
  | none =>
      cases wakes : Schedule.earliestWake roster.candidates with
      | none => rfl
      | some wake =>
          obtain ⟨decision, second⟩ :=
            Schedule.resumeFirst_idleUntil roster.nextId held clock roster.firstPlace wakes
          dsimp only
          rw [Schedule.rounds_succ _ _ _ _ roster.firstPlace_le, second]
          rfl

theorem candidates_ne_nil_of_first {now : UInt64} {start place : Nat} {thread : Thread}
    (first : Schedule.First roster.candidates held now start thread place) :
    roster.candidates ≠ [] :=
  List.ne_nil_of_mem (List.mem_of_getElem? first.there)

/-- The clock on which a thread goes on: the time passes only if no thread can go on before, and
then until the first sleeper wakes up. -/
inductive GoesOnAt (roster : Roster) (held : List MonitorKey) (clock : Clock) : Clock → Prop
  | now : GoesOnAt roster held clock clock
  | idled {wake : UInt64} :
      (∀ thread ∈ roster.candidates,
        Schedule.resumable roster.candidates held clock.now thread = false) →
      (∃ thread ∈ roster.candidates, thread.state = .sleeping wake) →
      (∀ thread ∈ roster.candidates, ∀ later, thread.state = .sleeping later → wake ≤ later) →
      GoesOnAt roster held clock { clock with now := wake, steps := 0 }

/-- Whether a decision lets the first thread run that can go on, with the monitor that it has been
waiting for. -/
structure Chooses (roster : Roster) (held : List MonitorKey) (clock : Clock) (thread : Thread)
    (place : Nat) (chosen : Roster) (held' : List MonitorKey) (clock' : Clock) : Prop where
  timely : roster.GoesOnAt held clock clock'
  first : Schedule.First roster.candidates held clock'.now roster.firstPlace thread place
  roster_eq : chosen = ⟨roster.candidates.take place, { thread with state := .running },
    roster.candidates.drop (place + 1), roster.nextId⟩
  held_eq : held' = Schedule.heldBy thread held

theorem goesOnAt_iff {every : UInt64} {clock' : Clock} (counts : clock.source = .steps every) :
    roster.GoesOnAt held clock clock' ↔ clock' = clock ∨
      Schedule.resumeFirst roster.candidates roster.nextId held clock roster.firstPlace = none ∧
        ∃ wake, Schedule.earliestWake roster.candidates = some wake ∧
          clock' = clock.idleUntil wake := by
  have idles {wake : UInt64} {thread : Thread} (member : thread ∈ roster.candidates)
      (sleeps : thread.state = .sleeping wake)
      (stuck : ∀ thread ∈ roster.candidates,
        Schedule.resumable roster.candidates held clock.now thread = false) :
      clock.idleUntil wake = { clock with now := wake, steps := 0 } :=
    clock.idleUntil_of_lt counts (Schedule.lt_of_not_resumable (stuck thread member) sleeps)
  constructor
  · rintro (_ | ⟨stuck, ⟨thread, member, sleeps⟩, least⟩)
    · exact .inl rfl
    · exact .inr ⟨Schedule.resumeFirst_eq_none_iff.mpr stuck, _,
        Schedule.earliestWake_eq_some_iff.mpr ⟨⟨thread, member, sleeps⟩, least⟩,
        (idles member sleeps stuck).symm⟩
  · rintro (rfl | ⟨none, wake, wakes, rfl⟩)
    · exact .now
    · have stuck := Schedule.resumeFirst_eq_none_iff.mp none
      obtain ⟨⟨thread, member, sleeps⟩, least⟩ := Schedule.earliestWake_eq_some_iff.mp wakes
      rw [idles member sleeps stuck]
      exact .idled stuck ⟨thread, member, sleeps⟩ least

/-- The first round that finds a thread decides. -/
theorem schedule_eq_run_iff {every : UInt64} {chosen : Roster} {held' : List MonitorKey}
    {clock' : Clock} (counts : clock.source = .steps every) :
    roster.schedule held clock = .run chosen held' clock' ↔
      ∃ thread place, roster.Chooses held clock thread place chosen held' clock' := by
  have chooses {now : Clock} (timely : roster.GoesOnAt held clock now)
      (found : Schedule.resumeFirst roster.candidates roster.nextId held now roster.firstPlace =
        some (.run chosen held' clock')) :
      ∃ thread place, roster.Chooses held clock thread place chosen held' clock' := by
    obtain ⟨thread, place, first, same⟩ :=
      (Schedule.resumeFirst_eq_some_iff roster.firstPlace_le).mp found
    obtain ⟨rfl, rfl, rfl⟩ := by simpa using same
    exact ⟨thread, place, timely, first, rfl, rfl⟩
  rw [schedule_eq, choice]
  constructor
  · intro h
    split at h
    · cases h
    · cases found : Schedule.resumeFirst roster.candidates roster.nextId held clock
          roster.firstPlace with
      | some decision =>
          rw [found] at h
          obtain rfl : decision = _ := h
          exact chooses .now found
      | none =>
          rw [found] at h
          cases wakes : Schedule.earliestWake roster.candidates with
          | none =>
              rw [wakes] at h
              cases h
          | some wake =>
              obtain ⟨decision, second⟩ :=
                Schedule.resumeFirst_idleUntil roster.nextId held clock roster.firstPlace wakes
              rw [wakes] at h
              dsimp only at h
              rw [second] at h
              obtain rfl : decision = _ := h
              exact chooses ((goesOnAt_iff counts).mpr (.inr ⟨found, wake, wakes, rfl⟩)) second
  · rintro ⟨thread, place, timely, first, rfl, rfl⟩
    have nonempty : roster.candidates.isEmpty = false := by
      simpa using candidates_ne_nil_of_first first
    have found : Schedule.resumeFirst _ roster.nextId _ _ _ = some _ :=
      (Schedule.resumeFirst_eq_some_iff roster.firstPlace_le).mpr ⟨thread, place, first, rfl⟩
    rw [nonempty, if_neg Bool.false_ne_true]
    rcases (goesOnAt_iff counts).mp timely with rfl | ⟨none, wake, wakes, rfl⟩
    · rw [found]
    · rw [none, wakes]
      dsimp only
      rw [found]
      rfl

theorem candidates_eq_nil_iff :
    roster.candidates = [] ↔
      roster.running.state = .exiting ∧ roster.earlier ++ roster.later = [] := by
  unfold candidates threads
  split
  · next exiting => simp [exiting]
  · next stays => simp [stays]

theorem schedule_of_nil (held : List MonitorKey) (clock : Clock) (empty : roster.candidates = []) :
    roster.schedule held clock = .finished := by
  rw [schedule_eq, choice, empty]
  rfl

theorem Chooses.resumes {thread : Thread} {place : Nat} {chosen : Roster} {held' : List MonitorKey}
    {clock' : Clock} (h : roster.Chooses held clock thread place chosen held' clock') :
    roster.Resumes thread chosen := by
  obtain ⟨within, same⟩ := List.getElem?_eq_some_iff.mp h.first.there
  refine ⟨?_, by rw [h.roster_eq], by rw [h.roster_eq]⟩
  rw [h.roster_eq, ← same, List.cons_getElem_drop_succ, List.take_append_drop]

/-- The clock goes on to no later tick than that of the first sleeper. -/
theorem GoesOnAt.bounds {clock' : Clock} (h : roster.GoesOnAt held clock clock') :
    clock.now ≤ clock'.now ∧ (clock' = clock ∨
      ∀ thread ∈ roster.candidates, ∀ wake, thread.state = .sleeping wake →
        clock'.now ≤ wake) := by
  cases h with
  | now => exact ⟨UInt64.le_refl _, .inl rfl⟩
  | idled stuck sleeper least =>
      obtain ⟨thread, member, sleeps⟩ := sleeper
      exact ⟨UInt64.le_of_lt (Schedule.lt_of_not_resumable (stuck thread member) sleeps),
        .inr least⟩

/-- The search around the circle of threads always ends, after two rounds at most. It ends without a
thread exactly if the one that has left was the last, and with a deadlock exactly if all that are
left wait for a monitor that is held or for a thread that is there. Otherwise it takes the first
thread that can go on, behind the running one or where that stood; only if there is none, the time
passes before, until the first sleeper wakes up and not longer. -/
theorem schedule_decides {every : UInt64} (held : List MonitorKey)
    (others : ∀ thread ∈ roster.earlier ++ roster.later, thread.state ≠ .exiting)
    (counts : clock.source = .steps every) :
    (roster.candidates ≠ [] → ∀ more,
      Schedule.rounds roster.candidates roster.nextId roster.firstPlace roster.earlier.length
        (more + 2) held clock = some (roster.schedule held clock)) ∧
    (roster.schedule held clock = .finished ↔
      roster.running.state = .exiting ∧ roster.earlier ++ roster.later = []) ∧
    (∀ chosen held' clock', roster.schedule held clock = .run chosen held' clock' ↔
      ∃ thread place, roster.Chooses held clock thread place chosen held' clock') ∧
    (∀ threads place, roster.schedule held clock = .deadlock threads place ↔
      threads = roster.candidates ∧ place = roster.earlier.length ∧ roster.candidates ≠ [] ∧
        ∀ thread ∈ roster.candidates, thread.Blocked roster.candidates held) ∧
    ∀ chosen held' clock', roster.schedule held clock = .run chosen held' clock' →
      clock.now ≤ clock'.now ∧
      (clock' = clock ∨ ∀ thread ∈ roster.candidates, ∀ wake, thread.state = .sleeping wake →
        clock'.now ≤ wake) ∧
      ∀ thread, roster.Resumes thread chosen → ∀ wake, thread.state = .sleeping wake →
        wake ≤ clock'.now := by
  refine ⟨fun remain more => rounds_eq_schedule held clock more remain, ?_,
    fun _ _ _ => schedule_eq_run_iff counts, fun threads place => ?_,
    fun chosen held' clock' h => ?_⟩
  · rw [← candidates_eq_nil_iff]
    refine ⟨fun h => ?_, schedule_of_nil held clock⟩
    rcases schedule_fails held clock (Machine.candidates_stay others) with
      ⟨_, _, _, run⟩ | ⟨-, empty⟩ | ⟨deadlock, -⟩
    · cases run.symm.trans h
    · exact empty
    · cases deadlock.symm.trans h
  · constructor
    · intro h
      rcases schedule_fails held clock (Machine.candidates_stay others) with
        ⟨_, _, _, run⟩ | ⟨finished, -⟩ | ⟨deadlock, remain, blocked⟩
      · cases run.symm.trans h
      · cases finished.symm.trans h
      · cases deadlock.symm.trans h
        exact ⟨rfl, rfl, remain, blocked⟩
    · rintro ⟨rfl, rfl, remain, blocked⟩
      exact schedule_of_blocked clock remain blocked
  · obtain ⟨thread, place, chooses⟩ := (schedule_eq_run_iff counts).mp h
    obtain ⟨forward, bounded⟩ := chooses.timely.bounds
    refine ⟨forward, bounded, fun other resumes wake sleeps => ?_⟩
    obtain rfl := chooses.resumes.unique resumes
    exact Schedule.le_of_resumable chooses.first.resumes sleeps

/-- A thread has left three others behind: two sleepers, and one that waits for the end of the first
of them. -/
def twoSleepers : Roster where
  earlier := [{ Thread.start ⟨1⟩ 0 ⟨0⟩ 8 with state := .sleeping 7 }]
  running := { Thread.start ⟨2⟩ 0 ⟨0⟩ 8 with state := .exiting }
  later := [{ Thread.start ⟨3⟩ 0 ⟨0⟩ 8 with state := .joining ⟨1⟩ },
    { Thread.start ⟨4⟩ 0 ⟨0⟩ 8 with state := .sleeping 5 }]
  nextId := ⟨5⟩

/-- The last of them goes on, at the tick at which it wakes up. -/
theorem schedule_decides_twoSleepers :
    ∃ chosen clock', twoSleepers.schedule [] ⟨.steps 100, 3, 40, false⟩ = .run chosen [] clock' ∧
      chosen.running.id = ⟨4⟩ ∧ clock'.now = 5 ∧ (∃ thread place, twoSleepers.Chooses []
        ⟨.steps 100, 3, 40, false⟩ thread place chosen [] clock') ∧
      ∀ thread, twoSleepers.Resumes thread chosen → ∀ wake, thread.state = .sleeping wake →
        wake ≤ 5 := by
  obtain ⟨-, -, chooses, -, waits⟩ :=
    @schedule_decides twoSleepers ⟨.steps 100, 3, 40, false⟩ 100 [] (by decide) rfl
  have run : twoSleepers.schedule [] ⟨.steps 100, 3, 40, false⟩ = .run
      ⟨twoSleepers.candidates.take 2, Thread.start ⟨4⟩ 0 ⟨0⟩ 8, [], ⟨5⟩⟩ []
      ⟨.steps 100, 5, 0, false⟩ := by decide
  exact ⟨_, _, run, rfl, rfl, (chooses _ _ _).mp run, (waits _ _ _ run).2.2⟩

end Roster

end ObjectMachine
