import ObjectMachine.Proofs.Machine.Reachable
import Mathlib.Data.List.Rotate

/-!
# Decisions of the scheduler

A decision takes one of the threads that it may choose from, one that can go on at that time, and
lets it run. It changes no other thread, and of the monitors it takes the one that the chosen thread
has been waiting for, if any.
-/

namespace ObjectMachine

namespace Schedule

variable {threads : List Thread} {nextId : ThreadId} {held held' : List MonitorKey}
  {clock clock' : Clock} {roster : Roster}

theorem resumable_of_pick {now : UInt64} {start place : Nat} (inside : start ≤ threads.length)
    (h : pick threads held now start = some place) :
    ∃ thread, threads[place]? = some thread ∧ resumable threads held now thread = true := by
  unfold pick at h
  dsimp only at h
  rw [← List.rotate_eq_drop_append_take inside] at h
  obtain ⟨distance, found, rfl⟩ := Option.map_eq_some_iff.mp h
  obtain ⟨within, resumes, -⟩ := List.findIdx?_eq_some_iff_getElem.mp found
  rw [List.getElem_rotate] at resumes
  rw [Nat.add_comm start distance]
  exact ⟨_, List.getElem?_eq_getElem _, resumes⟩

theorem resume_eq_some {place : Nat}
    (h : resume threads nextId held clock place = some (.run roster held' clock')) :
    ∃ thread, threads[place]? = some thread ∧ threads = roster.earlier ++ thread :: roster.later ∧
      roster.running = { thread with state := .running } ∧ roster.nextId = nextId ∧
      held' = heldBy thread held ∧ clock' = clock := by
  unfold resume at h
  split at h
  · next thread later rest =>
      obtain ⟨rfl, rfl, rfl⟩ := by simpa using h
      refine ⟨thread, ?_, ?_, rfl, rfl, rfl, rfl⟩
      · rw [← List.head?_drop, rest]
        rfl
      · change threads = threads.take place ++ thread :: later
        rw [← rest, List.take_append_drop]
  · cases h

/-! ## Searching by probes -/

/-- Lets a thread go on if it can, and takes the monitor that it waits for at once. -/
def probe (threads : List Thread) (now : UInt64) (held : List MonitorKey) (thread : Thread) :
    Bool × List MonitorKey :=
  match thread.state with
  | .waiting key => if held.contains key then (false, held) else (true, key :: held)
  | _ => (resumable threads held now thread, held)

def search (threads : List Thread) (now : UInt64) :
    List Thread → List MonitorKey → Option Nat × List MonitorKey
  | [], held => (none, held)
  | thread :: rest, held =>
    match probe threads now held thread with
    | (true, held) => (some 0, held)
    | (false, held) =>
      let (distance, held) := search threads now rest held
      (distance.map (· + 1), held)

/-- A probe that fails takes nothing. -/
theorem probe_eq (threads : List Thread) (now : UInt64) (held : List MonitorKey)
    (thread : Thread) :
    probe threads now held thread =
      if resumable threads held now thread then (true, heldBy thread held) else (false, held) := by
  unfold probe resumable heldBy
  cases thread.state with
  | waiting key => by_cases taken : key ∈ held <;> simp [taken]
  | running | suspending | exiting => rfl
  | sleeping wake => by_cases passed : wake ≤ now <;> simp [passed]
  | joining id => by_cases live : threads.any (·.id == id) = true <;> simp [live]

theorem search_eq (threads : List Thread) (now : UInt64) (held : List MonitorKey)
    (circle : List Thread) :
    search threads now circle held =
      match circle.findIdx? (resumable threads held now) with
      | some distance =>
        (some distance, (circle[distance]?.map fun thread => heldBy thread held).getD held)
      | none => (none, held) := by
  induction circle with
  | nil => rfl
  | cons thread rest ih =>
      unfold search
      rw [probe_eq, List.findIdx?_cons]
      by_cases resumes : resumable threads held now thread = true
      · simp [resumes]
      · rw [if_neg resumes, if_neg resumes]
        dsimp only
        rw [ih]
        cases rest.findIdx? (resumable threads held now) <;> rfl

/-- The choice of a thread is such a search, around the circle of all threads. -/
theorem resumeFirst_eq_search (nextId : ThreadId) (clock : Clock) {start : Nat}
    (inside : start ≤ threads.length) :
    resumeFirst threads nextId held clock start =
      match search threads clock.now (threads.rotate start) held with
      | (some distance, held) =>
        let place := (start + distance) % threads.length
        threads[place]?.map fun thread =>
          .run ⟨threads.take place, { thread with state := .running }, threads.drop (place + 1),
            nextId⟩ held clock
      | (none, _) => none := by
  rw [search_eq]
  unfold resumeFirst pick
  dsimp only
  rw [← List.rotate_eq_drop_append_take inside]
  cases found : (threads.rotate start).findIdx? (resumable threads held clock.now) with
  | none => rfl
  | some distance =>
      obtain ⟨within, -, -⟩ := List.findIdx?_eq_some_iff_getElem.mp found
      have length : distance < threads.length := by simpa using within
      have place : (start + distance) % threads.length < threads.length :=
        Nat.mod_lt _ (Nat.zero_lt_of_lt length)
      have same : (threads.rotate start)[distance]? =
          threads[(start + distance) % threads.length]? := by
        rw [List.getElem?_rotate length, Nat.add_comm]
      dsimp only [Option.map_some]
      rw [same, List.getElem?_eq_getElem place]
      change resume threads nextId held clock _ = _
      unfold resume
      rw [List.drop_eq_getElem_cons place]
      rfl

end Schedule

namespace Roster

/-- Whether a decision has made one roster out of another by letting a thread run. -/
structure Resumes (roster : Roster) (thread : Thread) (chosen : Roster) : Prop where
  candidates : roster.candidates = chosen.earlier ++ thread :: chosen.later
  running : chosen.running = { thread with state := .running }
  nextId : chosen.nextId = roster.nextId

theorem firstPlace_le (roster : Roster) : roster.firstPlace ≤ roster.candidates.length := by
  unfold firstPlace candidates threads
  split <;> simp

theorem mem_candidates {roster : Roster} {thread : Thread} (member : thread ∈ roster.threads)
    (stays : thread.state ≠ .exiting) : thread ∈ roster.candidates := by
  unfold candidates
  split
  · next exiting =>
      rcases mem_threads.mp member with rfl | other
      · exact absurd exiting stays
      · exact other
  · exact member

/-- The thread that goes on is one that can. It takes the monitor that it has been waiting for, and
nothing else changes hands. -/
theorem exists_resumes {roster chosen : Roster} {held held' : List MonitorKey}
    {clock clock' : Clock} (h : roster.schedule held clock = .run chosen held' clock') :
    ∃ thread, roster.Resumes thread chosen ∧
      Schedule.resumable roster.candidates held clock'.now thread = true ∧
      held' = Schedule.heldBy thread held := by
  obtain ⟨now, first⟩ := resumeFirst_of_schedule h
  obtain ⟨place, picked, resumed⟩ := Option.bind_eq_some_iff.mp first
  obtain ⟨thread, found, parts, running, nextId, held, rfl⟩ := Schedule.resume_eq_some resumed
  obtain ⟨other, found', resumable⟩ := Schedule.resumable_of_pick roster.firstPlace_le picked
  obtain rfl : other = thread := Option.some.inj (found'.symm.trans found)
  exact ⟨other, ⟨parts, running, nextId⟩, resumable, held⟩

namespace Resumes

variable {roster chosen : Roster} {thread other : Thread}

theorem mem_candidates_iff (h : roster.Resumes thread chosen) :
    other ∈ roster.candidates ↔ other = thread ∨ other ∈ chosen.earlier ++ chosen.later := by
  rw [h.candidates]
  simp only [List.mem_append, List.mem_cons]
  tauto

/-- The thread that a decision has let run is known from the place where it stands. -/
theorem unique (h : roster.Resumes thread chosen) (h' : roster.Resumes other chosen) :
    other = thread := by
  have same := h'.candidates.symm.trans h.candidates
  exact (List.cons.inj (List.append_cancel_left same)).1

end Resumes

end Roster

namespace Machine

variable {machine next : Machine}

theorem schedule_of_reschedule (h : machine.reschedule = .running next) :
    machine.roster.schedule machine.world.held machine.world.clock.look =
        .run next.roster next.world.held next.world.clock ∧
      next.world.store = machine.world.store ∧ next.result = machine.result := by
  unfold reschedule at h
  dsimp only at h
  split at h
  · next chosen =>
      cases h
      exact ⟨chosen, rfl, rfl⟩
  · cases h
  · split at h <;> cases h

theorem exists_resumes_of_reschedule (h : machine.reschedule = .running next) :
    ∃ thread, machine.roster.Resumes thread next.roster ∧
      Schedule.resumable machine.roster.candidates machine.world.held next.world.clock.now
        thread = true ∧
      next.world.held = Schedule.heldBy thread machine.world.held := by
  exact Roster.exists_resumes (schedule_of_reschedule h).1

end Machine

end ObjectMachine
