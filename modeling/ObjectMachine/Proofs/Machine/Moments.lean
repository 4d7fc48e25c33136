import ObjectMachine.Proofs.Machine.Decisions
import ObjectMachine.Proofs.Machine.Endings

/-!
# Moments of a run

A step of a machine is a decision if the clock has ticked, an instruction, and another decision if
the instruction asks for one. Here each of them counts as a move of its own, and time may pass
between any two of them: the clock may show anything, and a decision may come before any
instruction. Whatever the clock of a machine does is one of these interleavings. Each move but the
passing of time is recorded, so that what holds of all records of all moments holds of all runs.
-/

namespace ObjectMachine

/-- No instruction marks the thread that runs. -/
theorem Signal.Fits.stays {signal : Signal} {state : ThreadState}
    (h : signal.Fits .running state) : state ≠ .exiting := by
  cases signal with
  | yield => obtain rfl | ⟨wake, rfl⟩ | ⟨key, rfl⟩ := h <;> nofun
  | proceed | fork | join | leave =>
      obtain rfl : state = .running := h
      nofun

namespace Machine

def resultOnLeave (machine : Machine) : Value :=
  let thread := machine.roster.running
  if thread.id = .main then
    if thread.stack.depth ≤ 1 then .null else thread.stack.slots.back?.getD .null
  else machine.result

/-- What an instruction that asks something of the scheduler leaves, and whether the scheduler is to
decide then. -/
def grant (setup : Setup) (machine : Machine) : Signal → Except Outcome (Machine × Bool)
  | .proceed => .ok (machine, false)
  | .yield => .ok (machine, true)
  | .fork =>
    match forked setup machine.roster with
    | .ok roster => .ok ({ machine with roster }, false)
    | .error fault => .error (machine.fail fault)
  | .join id =>
    if machine.roster.contains id then .ok (machine.setState (.joining id), true)
    else .ok (machine, false)
  | .leave =>
    if machine.roster.count = 1 then .error ⟨.finished machine.resultOnLeave, machine.world.store⟩
    else .ok ({ machine with result := machine.resultOnLeave }.setState .exiting, true)

theorem answer_eq_grant (setup : Setup) (machine : Machine) (signal : Signal) :
    machine.answer setup signal =
      match machine.grant setup signal with
      | .ok (granted, true) => granted.reschedule
      | .ok (granted, false) => .running granted
      | .error outcome => .ended outcome := by
  cases signal with
  | proceed => rfl
  | yield => rfl
  | fork =>
      unfold answer fork grant
      dsimp only
      cases forked setup machine.roster <;> rfl
  | join id =>
      unfold answer grant
      dsimp only
      split <;> rfl
  | leave =>
      unfold answer leave grant
      dsimp only
      split <;> rfl

inductive Grants (setup : Setup) (machine : Machine) : Signal → Machine → Bool → Prop
  | proceed : Grants setup machine .proceed machine false
  | yield : Grants setup machine .yield machine true
  | fork {roster : Roster} : forked setup machine.roster = .ok roster →
      Grants setup machine .fork { machine with roster } false
  /-- The thread waits for one that is there. -/
  | blocks {id : ThreadId} : machine.roster.contains id = true →
      Grants setup machine (.join id) (machine.setState (.joining id)) true
  /-- The thread need not wait for one that is gone. -/
  | passes {id : ThreadId} : machine.roster.contains id = false →
      Grants setup machine (.join id) machine false
  | leave : machine.roster.count ≠ 1 →
      Grants setup machine .leave
        ({ machine with result := machine.resultOnLeave }.setState .exiting) true

theorem grants_of_grant {setup : Setup} {machine granted : Machine} {signal : Signal}
    {pending : Bool} (h : machine.grant setup signal = .ok (granted, pending)) :
    machine.Grants setup signal granted pending := by
  cases signal with
  | proceed =>
      cases h
      exact .proceed
  | yield =>
      cases h
      exact .yield
  | fork =>
      unfold grant at h
      dsimp only at h
      split at h
      · next forks =>
          cases h
          exact .fork forks
      · cases h
  | join id =>
      unfold grant at h
      dsimp only at h
      split at h
      · next live =>
          cases h
          exact .blocks live
      · next gone =>
          cases h
          exact .passes (Bool.eq_false_iff.mpr gone)
  | leave =>
      unfold grant at h
      dsimp only at h
      split at h
      · cases h
      · next several =>
          cases h
          exact .leave several

theorem Grants.world {setup : Setup} {machine granted : Machine} {signal : Signal} {pending : Bool}
    (h : machine.Grants setup signal granted pending) : granted.world = machine.world := by
  cases h <;> rfl

theorem fetch_world {setup : Setup} {machine current : Machine} {instruction : Instruction}
    (h : machine.fetch setup = .execute current instruction) :
    current.world = { machine.world with clock := machine.world.clock.step.look } := by
  unfold fetch at h
  dsimp only at h
  split at h
  · cases h
  · cases h
    rfl

/-- Choosing a thread and an instruction leaves the store alone. -/
theorem store_of_ready {setup : Setup} {machine current : Machine} {instruction : Instruction}
    (h : machine.ready setup = .execute current instruction) :
    current.world.store = machine.world.store := by
  unfold ready at h
  cases switched : machine.switch with
  | ended outcome =>
      rw [switched] at h
      cases h
  | running chosen =>
      rw [switched] at h
      rw [fetch_world h]
      rw [switch_eq] at switched
      split at switched
      · exact (schedule_of_reschedule switched).2.1
      · cases switched
        rfl

end Machine

/-! ## Moves -/

/-- A move of a run that is recorded, with the machine before it. -/
inductive Happening
  /-- The scheduler decides for a thread, which is given as it was. -/
  | resumed (machine : Machine) (thread : Thread)
  /-- The running thread executes an instruction. -/
  | executed (machine : Machine) (instruction : Instruction) (signal : Signal) (after : Scene)

namespace Happening

def machine : Happening → Machine
  | resumed machine _ => machine
  | executed machine _ _ _ => machine

def actor : Happening → ThreadId
  | resumed _ thread => thread.id
  | executed machine _ _ _ => machine.roster.running.id

def signal? : Happening → Option Signal
  | resumed _ _ => none
  | executed _ _ signal _ => some signal

end Happening

structure Moment where
  machine : Machine
  /-- Whether the last instruction has asked for a decision. -/
  pending : Bool

namespace Moment

variable {setup : Setup}

def Begins (setup : Setup) (moment : Moment) : Prop :=
  moment.pending = false ∧
    ∃ store source args, Machine.start setup store source args = .running moment.machine

inductive Moves (setup : Setup) : Moment → List Happening → Moment → Prop
  | time {machine : Machine} {pending : Bool} (clock : Clock) :
      Moves setup ⟨machine, pending⟩ [] ⟨machine.underClock clock, pending⟩
  | decide {machine next : Machine} {pending : Bool} {thread : Thread} :
      machine.reschedule = .running next → machine.roster.Resumes thread next.roster →
      Moves setup ⟨machine, pending⟩ [.resumed machine thread] ⟨next, false⟩
  | act {machine current granted : Machine} {instruction : Instruction} {signal : Signal}
      {after : Scene} {pending : Bool} :
      machine.fetch setup = .execute current instruction →
      Step.execute instruction setup ⟨current.roster.running, current.world⟩ = .ok signal after →
      (machine.performed after).grant setup signal = .ok (granted, pending) →
      Moves setup ⟨machine, false⟩ [.executed machine instruction signal after]
        ⟨granted, pending⟩

/-- What has happened between two moments of a run. -/
inductive Leads (setup : Setup) (first : Moment) : List Happening → Moment → Prop
  | refl : Leads setup first [] first
  | snoc {middle last : Moment} {log entries : List Happening} :
      Leads setup first log middle → Moves setup middle entries last →
      Leads setup first (log ++ entries) last

/-- What has happened in a run until a moment. -/
def Occurs (setup : Setup) (log : List Happening) (moment : Moment) : Prop :=
  ∃ first, Begins setup first ∧ Leads setup first log moment

variable {first middle last : Moment} {log later entries : List Happening}

theorem Leads.single (h : Moves setup first entries last) : Leads setup first entries last :=
  .snoc .refl h

theorem Leads.trans (h : Leads setup first log middle) (h' : Leads setup middle later last) :
    Leads setup first (log ++ later) last := by
  induction h' with
  | refl => simpa using h
  | snoc _ move ih =>
      rw [← List.append_assoc]
      exact ih.snoc move

theorem Moves.eq_singleton {happening : Happening} (move : Moves setup first entries last)
    (member : happening ∈ entries) : entries = [happening] := by
  cases move with
  | time clock => cases member
  | decide _ _ => rw [List.mem_singleton.mp member]
  | act _ _ _ => rw [List.mem_singleton.mp member]

theorem Moves.pairwise (move : Moves setup first entries last)
    (Related : Happening → Happening → Prop) : entries.Pairwise Related := by
  cases move with
  | time clock => exact .nil
  | decide _ _ => exact List.pairwise_singleton _ _
  | act _ _ _ => exact List.pairwise_singleton _ _

theorem Moves.eq_nil_or_singleton (move : Moves setup first entries last) :
    entries = [] ∨ ∃ happening, entries = [happening] := by
  cases move with
  | time clock => exact .inl rfl
  | decide _ _ => exact .inr ⟨_, rfl⟩
  | act _ _ _ => exact .inr ⟨_, rfl⟩

/-- Each record is that of a move, which has come after those recorded before it. -/
theorem Leads.split {happening : Happening} {earlier : List Happening}
    (h : Leads setup first (earlier ++ happening :: later) last) :
    ∃ before after, Leads setup first earlier before ∧ Moves setup before [happening] after ∧
      Leads setup after later last := by
  generalize all : earlier ++ happening :: later = log at h
  induction h generalizing later with
  | refl => exact absurd all (List.append_ne_nil_of_right_ne_nil _ (List.cons_ne_nil _ _))
  | @snoc middle last log entries leads move ih =>
      rcases move.eq_nil_or_singleton with rfl | ⟨entry, rfl⟩
      · obtain ⟨before, after, h, moves, h'⟩ := ih (all.trans (List.append_nil log))
        exact ⟨before, after, h, moves, by simpa using h'.snoc move⟩
      · rcases List.eq_nil_or_concat later with rfl | ⟨later, other, rfl⟩
        · obtain ⟨rfl, same⟩ := List.append_inj' all rfl
          obtain rfl := List.singleton_inj.mp same
          exact ⟨middle, last, leads, move, .refl⟩
        · rw [List.concat_eq_append, ← List.cons_append, ← List.append_assoc] at all
          obtain ⟨same, other⟩ := List.append_inj' all rfl
          obtain rfl := List.singleton_inj.mp other
          obtain ⟨before, after, h, moves, h'⟩ := ih same
          exact ⟨before, after, h, moves, List.concat_eq_append ▸ h'.snoc move⟩

/-- A run begins with one thread and without held monitors. -/
theorem Begins.start_eq (h : Begins setup first) :
    (∃ stack, first.machine.roster = Roster.start
      { Thread.start .main setup.program.entry setup.program.entryModule setup.limits.stack with
        stack }) ∧ first.machine.world.held = [] := by
  obtain ⟨-, store, source, args, start⟩ := h
  unfold Machine.start at start
  dsimp only at start
  split at start
  · next stack pushed =>
      obtain ⟨machine, pending⟩ := first
      cases start
      exact ⟨⟨stack, rfl⟩, rfl⟩
  · cases start

theorem Occurs.trans (h : Occurs setup log middle) (leads : Leads setup middle later last) :
    Occurs setup (log ++ later) last := by
  obtain ⟨first, begins, before⟩ := h
  exact ⟨first, begins, before.trans leads⟩

/-- What holds at the beginning of each run, and is kept by each move, holds at all moments. -/
theorem Occurs.induct (Holds : List Happening → Moment → Prop)
    (begins : ∀ {moment : Moment}, Begins setup moment → Holds [] moment)
    (moves : ∀ {log entries : List Happening} {moment next : Moment}, Occurs setup log moment →
      Holds log moment → Moves setup moment entries next → Holds (log ++ entries) next)
    (h : Occurs setup log last) : Holds log last := by
  obtain ⟨first, start, leads⟩ := h
  induction leads with
  | refl => exact begins start
  | snoc before move ih => exact moves ⟨first, start, before⟩ ih move

/-! ## States of threads -/

/-- Whether no thread is about to be removed, but for the running one while a decision is pending.
The running thread has no other state than that when it is about to execute an instruction. -/
structure Orderly (moment : Moment) : Prop where
  others : ∀ thread ∈ moment.machine.roster.earlier ++ moment.machine.roster.later,
    thread.state ≠ .exiting
  running : moment.pending = false → moment.machine.roster.running.state = .running

theorem Begins.orderly (h : Begins setup first) : Orderly first := by
  obtain ⟨-, store, source, args, start⟩ := h
  have awake := (Machine.Reachable.awake (.start start))
  exact ⟨awake.others, fun _ => awake.running⟩

theorem Orderly.grants {machine granted : Machine} {signal : Signal} {pending : Bool}
    (others : ∀ thread ∈ machine.roster.earlier ++ machine.roster.later, thread.state ≠ .exiting)
    (fits : signal.Fits .running machine.roster.running.state)
    (h : machine.Grants setup signal granted pending) : Orderly ⟨granted, pending⟩ := by
  cases h with
  | proceed => exact ⟨others, fun _ => fits⟩
  | yield => exact ⟨others, nofun⟩
  | @fork roster forks =>
      have copies : machine.fork setup = .running { machine with roster } := by
        rw [Machine.fork, forks]
        rfl
      have awake := Machine.awake_of_fork ⟨fits, others⟩ copies
      exact ⟨awake.others, fun _ => awake.running⟩
  | blocks live => exact ⟨others, nofun⟩
  | passes gone => exact ⟨others, fun _ => fits⟩
  | leave several => exact ⟨others, nofun⟩

theorem Moves.orderly (h : Moves setup first entries last) (orderly : Orderly first) :
    Orderly last := by
  cases h with
  | time clock => exact ⟨orderly.others, orderly.running⟩
  | decide decides resumes =>
      have awake := Machine.awake_of_reschedule orderly.others decides
      exact ⟨awake.others, fun _ => awake.running⟩
  | @act machine current granted instruction signal after pending fetched execute grants =>
      have performs : machine.Performs setup signal after :=
        ⟨current, instruction, fetched, execute⟩
      have fits := performs.settles.2
      rw [orderly.running rfl] at fits
      exact .grants (by exact orderly.others) fits (Machine.grants_of_grant grants)

theorem Occurs.orderly (h : Occurs setup log last) : Orderly last :=
  h.induct (fun _ moment => Orderly moment) (fun begins => begins.orderly)
    fun _ orderly move => move.orderly orderly

end Moment

/-! ## Steps as moves -/

namespace Machine

variable {setup : Setup} {machine next current : Machine}

def decision (machine : Machine) : List Happening :=
  match machine.reschedule with
  | .running next =>
    (machine.roster.candidates[next.roster.earlier.length]?.map (Happening.resumed machine)).toList
  | .ended _ => []

/-- The record of a step, once the thread that runs has been chosen. -/
def deeds (setup : Setup) (machine : Machine) : List Happening :=
  match machine.fetch setup with
  | .ended _ => []
  | .execute current instruction =>
    match Step.execute instruction setup ⟨current.roster.running, current.world⟩ with
    | .error _ _ => []
    | .ok signal after =>
      .executed machine instruction signal after ::
        match (machine.performed after).grant setup signal with
        | .ok (granted, true) => granted.decision
        | _ => []

def happenings (setup : Setup) (machine : Machine) : List Happening :=
  let switched := if machine.looked.world.clock.due then machine.looked.noted.decision else []
  match machine.switch with
  | .running current => switched ++ current.deeds setup
  | .ended _ => switched

/-- The thread that a decision has let run stands in the place of the running one. -/
theorem decision_eq {thread : Thread} (h : machine.reschedule = .running next)
    (resumes : machine.roster.Resumes thread next.roster) :
    machine.decision = [.resumed machine thread] := by
  unfold decision
  rw [h]
  simp [resumes.candidates]

/-- An instruction that is executed in a step is in its record. -/
theorem Executes.mem_happenings {instruction : Instruction} {scene after : Scene} {signal : Signal}
    (h : machine.Executes setup instruction scene signal after) :
    ∃ current, .executed current instruction signal after ∈ machine.happenings setup ∧
      scene.thread =
        { current.roster.running with ip := instruction.offset + instruction.size } := by
  obtain ⟨⟨moved, turn, rfl⟩, execute⟩ := h
  unfold Machine.ready at turn
  unfold happenings
  cases switched : machine.switch with
  | ended outcome =>
      rw [switched] at turn
      cases turn
  | running current =>
      rw [switched] at turn
      change current.fetch setup = .execute moved instruction at turn
      refine ⟨current, List.mem_append_right _ ?_, ?_⟩
      · unfold deeds
        rw [turn]
        dsimp only
        rw [execute]
        exact List.mem_cons_self
      · rw [(fetch_eq_execute turn).1]

theorem leads_of_reschedule (h : machine.reschedule = .running next) (pending : Bool) :
    Moment.Leads setup ⟨machine, pending⟩ machine.decision ⟨next, false⟩ := by
  obtain ⟨thread, resumes, -⟩ := exists_resumes_of_reschedule h
  rw [decision_eq h resumes]
  exact .single (.decide h resumes)

theorem leads_of_switch (h : machine.switch = .running current) :
    Moment.Leads setup ⟨machine, false⟩
      (if machine.looked.world.clock.due then machine.looked.noted.decision else [])
      ⟨current, false⟩ := by
  rw [switch_eq] at h
  have looks : Moment.Leads setup ⟨machine, false⟩ [] ⟨machine.looked, false⟩ := .single (.time _)
  by_cases due : machine.looked.world.clock.due = true
  · rw [if_pos due] at h ⊢
    exact (looks.snoc (.time _)).trans (leads_of_reschedule h false)
  · rw [if_neg due] at h ⊢
    cases h
    exact looks

theorem leads_of_act (h : machine.act setup = .running next) :
    Moment.Leads setup ⟨machine, false⟩ (machine.deeds setup) ⟨next, false⟩ := by
  unfold act at h
  unfold deeds
  cases fetched : machine.fetch setup with
  | ended outcome =>
      rw [fetched] at h
      cases h
  | execute current instruction =>
      rw [fetched] at h
      dsimp only at h ⊢
      rw [perform_eq fetched] at h
      cases execute : Step.execute instruction setup
          ⟨current.roster.running, current.world⟩ with
      | error fault after =>
          rw [execute] at h
          cases h
      | ok signal after =>
          rw [execute] at h
          dsimp only at h ⊢
          rw [answer_eq_grant] at h
          cases grants : (machine.performed after).grant setup signal with
          | error outcome =>
              rw [grants] at h
              cases h
          | ok result =>
              obtain ⟨granted, pending⟩ := result
              rw [grants] at h
              have acts := Moment.Leads.single
                (Moment.Moves.act fetched execute grants)
              cases pending with
              | true => exact acts.trans (leads_of_reschedule h true)
              | false =>
                  cases h
                  exact acts

theorem leads_of_step (h : machine.step setup = .running next) :
    Moment.Leads setup ⟨machine, false⟩ (machine.happenings setup) ⟨next, false⟩ := by
  unfold happenings
  cases switched : machine.switch with
  | ended outcome =>
      unfold step ready at h
      rw [switched] at h
      cases h
  | running current =>
      rw [step_of_switch switched] at h
      exact (leads_of_switch switched).trans (leads_of_act h)

end Machine

namespace Progress

variable {setup : Setup}

def history (setup : Setup) : Nat → Progress → List Happening
  | 0, _ => []
  | _, ended _ => []
  | count + 1, running machine =>
    machine.happenings setup ++ history setup count (machine.step setup)

/-- The record of a run is that of its parts. -/
theorem history_add (setup : Setup) (before count : Nat) (progress : Progress) :
    history setup (before + count) progress =
      history setup before progress ++ history setup count (advance setup before progress) := by
  induction before generalizing progress with
  | zero => rw [Nat.zero_add, advance, history, List.nil_append]
  | succ before ih =>
      rw [Nat.succ_add]
      cases progress with
      | ended outcome => cases count <;> rfl
      | running machine =>
          rw [history, history, ih, List.append_assoc]
          rfl

theorem leads_of_advance {count : Nat} {machine next : Machine}
    (h : advance setup count (.running machine) = .running next) :
    Moment.Leads setup ⟨machine, false⟩ (history setup count (.running machine))
      ⟨next, false⟩ := by
  induction count generalizing machine with
  | zero =>
      cases h
      exact .refl
  | succ count ih =>
      change advance setup count (machine.step setup) = .running next at h
      unfold history
      cases step : machine.step setup with
      | ended outcome =>
          rw [step] at h
          cases count <;> cases h
      | running middle =>
          rw [step] at h
          exact (machine.leads_of_step step).trans (ih h)

/-- Every run of a program is one of the interleavings, with its history as the record. -/
theorem occurs_of_advance {store : Store} {source : TickSource} {args : List String} {count : Nat}
    {machine : Machine}
    (h : advance setup count (Machine.start setup store source args) = .running machine) :
    Moment.Occurs setup (history setup count (Machine.start setup store source args))
      ⟨machine, false⟩ := by
  cases start : Machine.start setup store source args with
  | ended outcome =>
      rw [start] at h
      cases count <;> cases h
  | running first =>
      rw [start] at h
      exact ⟨⟨first, false⟩, ⟨rfl, store, source, args, start⟩, leads_of_advance h⟩

end Progress

/-- Whether a test is true of the record and the machine after so many steps of a program. -/
def occursSatisfying (setup : Setup) (count : Nat) (test : List Happening → Machine → Bool) :
    Bool :=
  let start := Machine.start setup (.ofCatalog setup.program.catalog) (.steps 100) []
  match Progress.advance setup count start with
  | .running machine => test (Progress.history setup count start) machine
  | .ended _ => false

theorem exists_of_occursSatisfying {setup : Setup} {count : Nat}
    {test : List Happening → Machine → Bool} (h : occursSatisfying setup count test = true) :
    ∃ log machine, Moment.Occurs setup log ⟨machine, false⟩ ∧ test log machine = true := by
  unfold occursSatisfying at h
  dsimp only at h
  split at h
  · next machine reached => exact ⟨_, machine, Progress.occurs_of_advance reached, h⟩
  · cases h

end ObjectMachine
