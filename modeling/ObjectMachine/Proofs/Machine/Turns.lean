import ObjectMachine.Proofs.Machine.Choices
import ObjectMachine.Proofs.Machine.Monitors

/-!
# Turns

Under a clock that counts instructions, a decision is made after an instruction that asks for one,
and another one after an instruction that completes a tick. `Follows` tells how a run goes on with
its clock, where `Leads` lets the clock do what it likes. The main statement is that a thread that
has been chosen executes the next instruction, unless the instruction before has done both: then a
second decision follows at once, and the thread chosen first is passed over.
-/

namespace ObjectMachine

namespace Roster

variable {roster : Roster} {held : List MonitorKey} {clock clock' : Clock}

theorem GoesOnAt.source_due (h : roster.GoesOnAt held clock clock') :
    clock'.source = clock.source ∧ clock'.due = clock.due := by
  cases h <;> exact ⟨rfl, rfl⟩

end Roster

theorem Step.execute_clock {setup : Setup} {instruction : Instruction} {scene next : Scene}
    {signal : Signal} (h : execute instruction setup scene = .ok signal next) :
    next.world.clock = scene.world.clock := by
  by_cases sleeps : instruction.opcode = .sleep
  · have h : sleep setup scene = .ok signal next := by
      unfold execute at h
      rw [sleeps] at h
      exact h
    rw [sleep_world h]
  · have same : execute instruction setup (scene.under none scene.world.clock) = _ :=
      execute_under sleeps scene.world.clock
    have own : scene.under none scene.world.clock = scene := rfl
    rw [own, h] at same
    have kept : next = next.under none scene.world.clock := by simpa [resultUnder] using same
    rw [kept, Scene.under_clock]

namespace Machine

variable {setup : Setup} {machine next current : Machine} {every : UInt64}

theorem goesOnAt_of_reschedule (counts : machine.Counts every)
    (h : machine.reschedule = .running next) :
    ∃ thread place, machine.roster.Chooses machine.world.held machine.world.clock thread place
      next.roster next.world.held next.world.clock := by
  have decides := (schedule_of_reschedule h).1
  rw [Clock.look_of_counts counts] at decides
  exact (Roster.schedule_eq_run_iff counts).mp decides

theorem counts_of_reschedule (counts : machine.Counts every)
    (h : machine.reschedule = .running next) :
    next.Counts every ∧ next.world.clock.due = machine.world.clock.due := by
  obtain ⟨thread, place, chooses⟩ := goesOnAt_of_reschedule counts h
  obtain ⟨source, due⟩ := chooses.timely.source_due
  exact ⟨source.trans counts, due⟩

theorem clock_of_grant {instruction : Instruction} {signal : Signal} {after : Scene}
    {granted : Machine} {pending : Bool} (counts : machine.Counts every)
    (fetched : machine.fetch setup = .execute current instruction)
    (execute : Step.execute instruction setup ⟨current.roster.running, current.world⟩ =
      .ok signal after)
    (grants : (machine.performed after).grant setup signal = .ok (granted, pending)) :
    granted.world.clock = machine.world.clock.step := by
  rw [(grants_of_grant grants).world]
  change after.world.clock = _
  rw [Step.execute_clock execute, fetch_world fetched]
  exact Clock.look_of_counts (Clock.step_source counts)

end Machine

/-! ## Runs with their clock -/

/-- How a run goes on from a machine, while so many decisions are to be made before the next
instruction. Of the machine's clock everything is known but whether its tick has been noted. -/
inductive Follows (setup : Setup) (every : UInt64) : Nat → Machine → List Happening → Prop
  | pause {owed : Nat} {machine : Machine} : Follows setup every owed machine []
  | decide {owed : Nat} {machine next : Machine} {thread : Thread} {log : List Happening} :
      machine.Counts every → machine.reschedule = .running next →
      machine.roster.Resumes thread next.roster → Follows setup every owed next.noted log →
      Follows setup every (owed + 1) machine.noted (.resumed machine thread :: log)
  | act {machine current granted : Machine} {instruction : Instruction} {signal : Signal}
      {after : Scene} {pending : Bool} {log : List Happening} :
      machine.Counts every → machine.Awake → machine.fetch setup = .execute current instruction →
      Step.execute instruction setup ⟨current.roster.running, current.world⟩ = .ok signal after →
      (machine.performed after).grant setup signal = .ok (granted, pending) →
      Follows setup every (pending.toNat + machine.world.clock.completes.toNat) granted.noted log →
      Follows setup every 0 machine.noted (.executed machine instruction signal after :: log)
  /-- The run ends with the instruction. -/
  | last {machine current : Machine} {instruction : Instruction} {signal : Signal}
      {after : Scene} {outcome : Outcome} :
      machine.Counts every → machine.Awake → machine.fetch setup = .execute current instruction →
      Step.execute instruction setup ⟨current.roster.running, current.world⟩ = .ok signal after →
      (machine.performed after).grant setup signal = .error outcome →
      Follows setup every 0 machine.noted [.executed machine instruction signal after]

namespace Follows

variable {setup : Setup} {every : UInt64} {machine next : Machine} {log : List Happening}

theorem of_reschedule {owed : Nat} (counts : machine.Counts every)
    (others : ∀ thread ∈ machine.roster.earlier ++ machine.roster.later, thread.state ≠ .exiting)
    (goesOn : ∀ next, machine.reschedule = .running next → next.Counts every → next.Awake →
      next.world.clock.due = machine.world.clock.due → Follows setup every owed next.noted log)
    (ends : ∀ outcome, machine.reschedule = .ended outcome → log = []) :
    Follows setup every (owed + 1) machine.noted (machine.decision ++ log) := by
  cases decides : machine.reschedule with
  | running next =>
      obtain ⟨thread, resumes, -⟩ := Machine.exists_resumes_of_reschedule decides
      obtain ⟨counts', due⟩ := Machine.counts_of_reschedule counts decides
      rw [Machine.decision_eq decides resumes]
      exact .decide counts decides resumes
        (goesOn next decides counts' (Machine.awake_of_reschedule others decides) due)
  | ended outcome =>
      rw [ends outcome decides, Machine.decision, decides]
      exact .pause

/-- The record of a step begins with the thread that runs once the clock has been looked at. -/
theorem of_act {machine : Machine} {later : Progress → List Happening}
    (counts : machine.Counts every) (awake : machine.Awake)
    (settled : machine.world.clock.due = false) (ends : ∀ outcome, later (.ended outcome) = [])
    (goesOn : ∀ next : Machine, next.Counts every → next.Awake →
      Follows setup every next.world.clock.due.toNat next.noted (later (.running next))) :
    Follows setup every 0 machine.noted
      (machine.deeds setup ++ later (machine.act setup)) := by
  unfold Machine.act Machine.deeds
  cases fetched : machine.fetch setup with
  | ended outcome =>
      dsimp only
      rw [ends]
      exact .pause
  | execute current instruction =>
      dsimp only
      rw [Machine.perform_eq fetched]
      cases execute : Step.execute instruction setup
          ⟨current.roster.running, current.world⟩ with
      | error fault after =>
          dsimp only
          rw [ends]
          exact .pause
      | ok signal after =>
          have performs : machine.Performs setup signal after :=
            ⟨current, instruction, fetched, execute⟩
          dsimp only
          rw [Machine.answer_eq_grant]
          cases grants : (machine.performed after).grant setup signal with
          | error outcome =>
              dsimp only
              rw [ends]
              exact .last counts awake fetched execute grants
          | ok result =>
              obtain ⟨granted, pending⟩ := result
              have clock := Machine.clock_of_grant counts fetched execute grants
              have counts' : granted.Counts every := by
                unfold Machine.Counts
                rw [clock, Clock.step_source counts]
              have due : granted.world.clock.due = machine.world.clock.completes := by
                rw [clock, Clock.step_due counts settled]
              have orderly : Moment.Orderly ⟨granted, pending⟩ :=
                .grants (by exact awake.others) (awake.running ▸ performs.settles.2)
                  (Machine.grants_of_grant grants)
              refine .act counts awake fetched execute grants ?_
              cases pending with
              | false =>
                  have follows := goesOn granted counts' ⟨orderly.running rfl, orderly.others⟩
                  rw [due] at follows
                  simpa using follows
              | true =>
                  dsimp only
                  rw [← due, Bool.toNat_true, Nat.add_comm]
                  refine of_reschedule counts' orderly.others (fun next decides counts awake same =>
                    ?_) fun outcome ended => ?_
                  · rw [← same, decides]
                    exact goesOn next counts awake
                  · rw [ended]
                    exact ends outcome

theorem of_history (count : Nat) (counts : machine.Counts every) (awake : machine.Awake) :
    Follows setup every machine.world.clock.due.toNat machine.noted
      (Progress.history setup count (.running machine)) := by
  induction count generalizing machine with
  | zero => exact .pause
  | succ count ih =>
      have ends (outcome : Outcome) : Progress.history setup count (.ended outcome) = [] := by
        cases count <;> rfl
      rw [Progress.history]
      unfold Machine.happenings
      obtain ⟨current, switched, awake'⟩ := awake.switch
      rw [Machine.step_of_switch switched, switched]
      dsimp only
      have switches := switched
      rw [Machine.switch_eq] at switches
      rw [Machine.looked_of_counts counts] at switches ⊢
      cases due : machine.world.clock.due with
      | false =>
          rw [due] at switches
          obtain rfl : machine = current := by simpa using switches
          simpa using of_act counts awake due ends fun next counts awake => ih counts awake
      | true =>
          rw [due] at switches
          change machine.noted.reschedule = .running current at switches
          rw [if_pos rfl, List.append_assoc]
          have counts : machine.noted.Counts every := counts
          refine of_reschedule counts awake.others
            (fun next decides counts awake same => ?_) fun outcome ended => ?_
          · obtain rfl : current = next := by simpa using switches.symm.trans decides
            exact of_act counts awake same ends fun next counts awake => ih counts awake
          · cases switches.symm.trans ended

theorem of_run (setup : Setup) (store : Store) (every : UInt64) (args : List String)
    (count : Nat) : ∃ machine, Follows setup every 0 machine
      (Progress.history setup count (Machine.start setup store (.steps every) args)) := by
  cases start : Machine.start setup store (.steps every) args with
  | ended outcome =>
      have empty : Progress.history setup count (.ended outcome) = [] := by cases count <;> rfl
      rw [empty]
      let idle : World := { store, held := [], clock := Clock.start (.steps every) }
      exact ⟨⟨Roster.start (Thread.start .main 0 ⟨0⟩ 0), idle, .null⟩, .pause⟩
  | running machine =>
      have awake := Machine.Reachable.awake (.start start)
      have begun : machine.Counts every ∧ machine.world.clock.due = false := by
        unfold Machine.start at start
        dsimp only at start
        split at start
        · cases start
          exact ⟨rfl, rfl⟩
        · cases start
      obtain ⟨counts, settled⟩ := begun
      have follows : Follows setup every _ _ _ := of_history count counts awake
      rw [settled] at follows
      exact ⟨machine.noted, follows⟩

end Follows

/-! ## Decisions between instructions -/

namespace Happening

def decides : Happening → Bool
  | resumed _ _ => true
  | executed _ _ _ _ => false

def asks (setup : Setup) : Happening → Bool
  | resumed _ _ => false
  | executed machine _ signal after =>
    match (machine.performed after).grant setup signal with
    | .ok (_, pending) => pending
    | .error _ => false

def completes : Happening → Bool
  | resumed _ _ => false
  | executed machine _ _ _ => machine.world.clock.completes

def ActsNext (thread : Thread) (log : List Happening) : Prop :=
  ∀ entry ∈ log.head?, entry.decides = false ∧
    entry.machine.roster.running = { thread with state := .running }

theorem actsNext_nil (thread : Thread) : ActsNext thread [] := by
  intro entry member
  cases member

end Happening

namespace Follows

variable {setup : Setup} {every : UInt64} {owed : Nat} {machine next : Machine}
  {log before between after : List Happening} {first second : Happening}

theorem actsNext {thread : Thread} (h : Follows setup every 0 machine log)
    (running : machine.roster.running = { thread with state := .running }) :
    Happening.ActsNext thread log := by
  intro entry member
  cases h with
  | pause => cases member
  | act | last =>
      cases member
      exact ⟨rfl, running⟩

/-- No more than two decisions are ever owed. -/
theorem exists_rest (h : Follows setup every owed machine (before ++ log)) (few : owed ≤ 2) :
    ∃ owed' ≤ 2, ∃ machine', Follows setup every owed' machine' log := by
  induction before generalizing owed machine with
  | nil => exact ⟨owed, few, machine, h⟩
  | cons entry before ih =>
      rw [List.cons_append] at h
      generalize more : before ++ log = rest at h
      cases h with
      | decide _ _ _ follows =>
          subst more
          exact ih follows (by omega)
      | act _ _ _ _ _ follows =>
          subst more
          exact ih follows (Nat.add_le_add (Bool.toNat_le _) (Bool.toNat_le _))
      | @last ended =>
          obtain ⟨-, rfl⟩ := List.append_eq_nil_iff.mp more
          exact ⟨0, by omega, ended, .pause⟩

theorem acts_first (h : Follows setup every 0 machine log) :
    ∀ entry ∈ log.head?, entry.decides = false := by
  intro entry member
  cases h with
  | pause => cases member
  | act | last =>
      cases member
      rfl

theorem actor_eq (h : Follows setup every owed machine (second :: log))
    (acts : second.decides = false) : second.actor = machine.roster.running.id := by
  cases h with
  | decide => cases acts
  | act | last => rfl

/-- As many decisions are made before the next instruction as are owed. -/
theorem length_between (h : Follows setup every owed machine (between ++ second :: after))
    (decisions : ∀ entry ∈ between, entry.decides = true) (acts : second.decides = false) :
    between.length = owed := by
  induction between generalizing owed machine with
  | nil =>
      cases h with
      | decide => cases acts
      | act | last => rfl
  | cons entry between ih =>
      rw [List.cons_append] at h
      generalize more : between ++ second :: after = rest at h
      cases h with
      | decide _ _ _ follows =>
          subst more
          rw [List.length_cons,
            ih follows fun entry member => decisions entry (List.mem_cons_of_mem _ member)]
      | act | last => cases decisions _ List.mem_cons_self

/-- After an instruction, a decision is owed if it has asked for one, and one if it has completed a
tick. -/
theorem of_instruction (h : Follows setup every owed machine (first :: log))
    (acts : first.decides = false) (remain : log ≠ []) :
    ∃ granted, Follows setup every ((first.asks setup).toNat + first.completes.toNat) granted log ∧
      granted.roster.running.id = first.actor := by
  cases h with
  | decide => cases acts
  | @act machine current granted instruction signal after pending _ _ _ fetched execute grants
      follows =>
      refine ⟨granted.noted, ?_, ?_⟩
      · simpa only [Happening.asks, Happening.completes, grants] using follows
      · obtain ⟨children, spares, -⟩ :=
          Machine.spares_of_grant ⟨current, instruction, fetched, execute⟩ grants
        exact spares.id
  | last => exact absurd rfl remain

theorem of_decision {thread : Thread}
    (h : Follows setup every owed machine (.resumed next thread :: log)) :
    ∃ left chosen, owed = left + 1 ∧ Follows setup every left chosen log ∧
      chosen.roster.running = { thread with state := .running } := by
  cases h with
  | decide _ _ resumes follows => exact ⟨_, _, rfl, follows, resumes.running⟩

theorem of_owed (h : Follows setup every (owed + 1) machine log) :
    log = [] ∨ ∃ next thread rest chosen, log = .resumed next thread :: rest ∧
      next.roster = machine.roster ∧ Follows setup every owed chosen rest ∧
      chosen.roster.running = { thread with state := .running } := by
  cases h with
  | pause => exact .inl rfl
  | decide _ _ resumes follows => exact .inr ⟨_, _, _, _, rfl, rfl, follows, resumes.running⟩

/-- A thread that has been chosen is passed over only for a decision that the instruction before has
given reason for as well. -/
theorem actsNext_or_passed {thread : Thread}
    (h : Follows setup every 0 machine (before ++ .resumed next thread :: log)) :
    Happening.ActsNext thread log ∨
      ∃ earlier entry next' thread' rest, before = earlier ++ [entry] ∧
        entry.asks setup = true ∧ entry.completes = true ∧ log = .resumed next' thread' :: rest ∧
        next'.roster.running = { thread with state := .running } ∧
        Happening.ActsNext thread' rest := by
  rcases List.eq_nil_or_concat before with rfl | ⟨earlier, entry, rfl⟩
  · obtain ⟨left, -, owed, -⟩ := h.of_decision
    cases owed
  rw [List.concat_eq_append, List.append_assoc] at h
  obtain ⟨owed, few, middle, follows⟩ := h.exists_rest (by omega)
  cases entry with
  | resumed earliest other =>
      -- The decision is the second one, so that no other is owed.
      obtain ⟨left, chosen, rfl, follows, -⟩ := follows.of_decision
      obtain ⟨left, chosen, rfl, follows, running⟩ := follows.of_decision
      obtain rfl : left = 0 := by omega
      exact .inl (follows.actsNext running)
  | executed actor instruction signal after =>
      obtain ⟨granted, follows, -⟩ := follows.of_instruction rfl (List.cons_ne_nil _ _)
      obtain ⟨left, chosen, owes, follows, running⟩ := follows.of_decision
      cases left with
      | zero => exact .inl (follows.actsNext running)
      | succ left =>
          rcases follows.of_owed with rfl | ⟨next', thread', rest, last, rfl, same, follows, runs⟩
          · exact .inl (Happening.actsNext_nil _)
          generalize asked : Happening.asks setup (.executed actor instruction signal after) = asks
            at owes
          generalize ticked : Happening.completes (.executed actor instruction signal after) =
            completes at owes
          obtain ⟨rfl, rfl, rfl⟩ : asks = true ∧ completes = true ∧ left = 0 := by
            have once := Bool.toNat_le asks
            have twice := Bool.toNat_le completes
            exact ⟨Bool.toNat_eq_one.mp (by omega), Bool.toNat_eq_one.mp (by omega), by omega⟩
          exact .inr ⟨earlier, _, next', thread', rest, List.concat_eq_append, asked, ticked, rfl,
            same ▸ running, follows.actsNext runs⟩

end Follows

namespace Progress

variable {setup : Setup} {every : UInt64} {log before between after : List Happening}

/-- Decisions are made where they are asked for and where a tick makes them necessary, and nowhere
else: the first instruction needs none, and between two instructions there are as many as the former
gives reason for. A thread that has been chosen executes the next instruction, unless the
instruction before the decision has both asked for it and completed a tick. Then it is another
thread's turn before it has had one, or its own after all. -/
theorem turns_taken (setup : Setup) (store : Store) (every : UInt64) (args : List String)
    (count : Nat) :
    let log := history setup count (Machine.start setup store (.steps every) args)
    (∀ entry ∈ log.head?, entry.decides = false) ∧
    (∀ before between after first second, log = before ++ first :: (between ++ second :: after) →
      first.decides = false → (∀ entry ∈ between, entry.decides = true) → second.decides = false →
      between.length = (first.asks setup).toNat + first.completes.toNat ∧
      (between = [] → second.actor = first.actor)) ∧
    (∀ before machine thread rest, log = before ++ .resumed machine thread :: rest →
      Happening.ActsNext thread rest ∨
      ∃ earlier entry machine' thread' rest', before = earlier ++ [entry] ∧
        entry.asks setup = true ∧ entry.completes = true ∧
        rest = .resumed machine' thread' :: rest' ∧
        machine'.roster.running = { thread with state := .running } ∧
        Happening.ActsNext thread' rest') := by
  dsimp only
  obtain ⟨machine, follows⟩ := Follows.of_run setup store every args count
  generalize history setup count (Machine.start setup store (.steps every) args) = log at follows
  refine ⟨fun entry first => ?_, ?_, ?_⟩
  · exact follows.acts_first entry first
  · rintro before between after first second rfl acts decisions acts'
    obtain ⟨owed, few, middle, rest⟩ := follows.exists_rest (by omega)
    obtain ⟨granted, rest, same⟩ := rest.of_instruction acts (by simp)
    refine ⟨rest.length_between decisions acts', fun none => ?_⟩
    subst none
    exact (rest.actor_eq acts').trans same
  · rintro before next thread rest rfl
    exact follows.actsNext_or_passed

/-- A thread that makes a copy of itself. Both give up the rest of their turn and leave. -/
def bothYield : Setup :=
  (Setup.ofMain? [
    0x90,     -- fork
    0x93,     -- nice
    0x92]     -- exit
    0).get (by decide +kernel)

/-- The record of a run in which each instruction completes a tick. -/
def bothYieldLog : List Happening :=
  history bothYield 12
    (Machine.start bothYield (.ofCatalog bothYield.program.catalog) (.steps 1) [])

/-- The copy gives up its turn when it completes a tick, so that it runs on and the thread that has
been chosen before is passed over. -/
theorem bothYieldLog_eq :
    ∃ before entry machine thread next other rest, bothYieldLog =
        before ++ entry :: .resumed machine thread :: .resumed next other :: rest ∧
      thread.id = ⟨1⟩ ∧ other.id = ⟨2⟩ := by
  have found : ((bothYieldLog.drop 6).take 3).map (fun entry => (entry.decides, entry.actor)) =
      [(false, ⟨2⟩), (true, ⟨1⟩), (true, ⟨2⟩)] := by
    decide +kernel
  refine ⟨bothYieldLog.take 6, ?_⟩
  match rest : bothYieldLog.drop 6 with
  | entry :: .resumed machine thread :: .resumed next other :: rest' =>
      refine ⟨entry, machine, thread, next, other, rest', ?_, ?_, ?_⟩
      · rw [← rest, List.take_append_drop]
      · rw [rest] at found
        simp_all [Happening.actor]
      · rw [rest] at found
        simp_all [Happening.actor]
  | [] | [_] | [_, _] | _ :: .executed .. :: _ | _ :: _ :: .executed .. :: _ =>
      rw [rest] at found
      simp [Happening.decides] at found

/-- There is a run in which a thread that has been chosen is passed over. -/
theorem decisions_in_a_row :
    ¬ ∀ (setup : Setup) (store : Store) (every : UInt64) (args : List String) (count : Nat)
      (before after : List Happening) (first second : Happening),
      history setup count (Machine.start setup store (.steps every) args) =
        before ++ first :: second :: after →
      first.decides = true → second.decides = false := by
  intro separate
  obtain ⟨before, entry, machine, thread, next, other, rest, log, -⟩ := bothYieldLog_eq
  have apart := separate _ _ _ _ _ (before ++ [entry]) rest _ _
    (log.trans (List.append_cons before entry _)) rfl
  cases apart

theorem turns_taken_bothYield :
    ∃ earlier entry machine thread next other rest, bothYieldLog =
        earlier ++ entry :: .resumed machine thread :: .resumed next other :: rest ∧
      thread.id = ⟨1⟩ ∧ other.id = ⟨2⟩ ∧ entry.asks bothYield = true ∧ entry.completes = true ∧
      next.roster.running = { thread with state := .running } ∧ Happening.ActsNext other rest := by
  obtain ⟨before, entry, machine, thread, next, other, rest, log, first, second⟩ := bothYieldLog_eq
  obtain ⟨-, -, chosen⟩ := turns_taken bothYield (.ofCatalog bothYield.program.catalog) 1 [] 12
  rcases chosen (before ++ [entry]) machine thread (.resumed next other :: rest)
      (log.trans (List.append_cons before entry _)) with
    acts | ⟨earlier, entry', next', other', rest', same, asks, completes, follow, running, acts⟩
  · cases (acts _ rfl).1
  · obtain ⟨rfl, last⟩ := List.append_inj' same rfl
    obtain rfl := List.singleton_inj.mp last
    cases follow
    exact ⟨before, entry, machine, thread, next, other, rest, log, first, second, asks, completes,
      running, acts⟩

end Progress

end ObjectMachine
