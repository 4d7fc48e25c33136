import ObjectMachine.Proofs.Machine.Isolation
import ObjectMachine.Proofs.Machine.Requests

/-!
# Waiting for the end of a thread

Until the numbers of threads run out, none is given twice, and so a thread that waits for the end of
another one waits for no later thread of the same number. It goes on only when that thread is gone,
which is so only after its own exit.
-/

namespace ObjectMachine

/-- Whether an instruction is executed that waits for the end of a thread. -/
def Happening.Joins (id : ThreadId) : Happening → Prop
  | resumed _ _ => False
  | executed machine instruction _ _ => instruction.opcode = .join ∧
    machine.roster.running.stack.slots.back?.bind Step.threadOf = some id

instance (id : ThreadId) : DecidablePred (Happening.Joins id)
  | .resumed _ _ => inferInstanceAs (Decidable False)
  | .executed _ _ _ _ => inferInstanceAs (Decidable (_ ∧ _))

def Roster.idsAfter (roster : Roster) : List Happening → List ThreadId
  | .executed _ _ signal _ :: _ => roster.ids ++ if signal = .fork then [roster.nextId] else []
  | .resumed _ _ :: _ =>
    if roster.running.state = .exiting then roster.ids.erase roster.running.id else roster.ids
  | [] => roster.ids

namespace Moment

variable {setup : Setup} {moment next last : Moment} {log entries : List Happening}
  {thread : Thread} {id : ThreadId} {happening : Happening}

/-- A thread that waits for the end of another one goes on doing so until that one is gone. -/
theorem Moves.exists_joins (move : Moves setup moment entries next) (orderly : Orderly moment)
    (member : thread ∈ moment.machine.roster.threads) (joins : thread.state = .joining id)
    (live : id ∈ next.machine.roster.ids) :
    ∃ joiner ∈ next.machine.roster.threads, joiner.id = thread.id ∧ joiner.state = .joining id := by
  cases move with
  | time clock => exact ⟨thread, member, rfl, joins⟩
  | @decide machine next pending chosen decides resumes =>
      have candidate := Roster.mem_candidates member (by rw [joins]; nofun)
      rcases resumes.mem_candidates_iff.mp candidate with rfl | other
      · -- It would go on only if the other one were not among the candidates.
        obtain ⟨found, resumes', resumable, -⟩ := Machine.exists_resumes_of_reschedule decides
        obtain rfl := resumes'.unique resumes
        rw [resumes.ids] at live
        unfold Schedule.resumable at resumable
        rw [joins] at resumable
        simp only [Bool.not_eq_true', List.any_eq_false, beq_iff_eq] at resumable
        obtain ⟨other, among, rfl⟩ := List.mem_map.mp live
        exact absurd rfl (resumable other among)
      · exact ⟨thread, Roster.mem_threads.mpr (.inr other), rfl, joins⟩
  | @act machine current granted instruction signal after pending fetched execute grants =>
      obtain ⟨children, spares, -⟩ :=
        Machine.spares_of_grant ⟨current, instruction, fetched, execute⟩ grants
      rcases Roster.mem_threads.mp member with rfl | other
      · cases joins.symm.trans (orderly.running rfl)
      · obtain ⟨kept, found, handed⟩ := spares.exists_handed other
        exact ⟨kept, Roster.mem_threads.mpr (.inr found), handed.id, handed.state.trans joins⟩

/-- A thread that asks to wait for the end of a live thread does so. -/
theorem Moves.exists_joining (move : Moves setup moment [happening] next)
    (joins : happening.Joins id) (live : id ∈ moment.machine.roster.ids) :
    ∃ joiner ∈ next.machine.roster.threads,
      joiner.id = happening.actor ∧ joiner.state = .joining id := by
  cases move with
  | decide _ _ => cases joins
  | @act machine current granted instruction signal after pending fetched execute grants =>
      obtain ⟨opcode, target⟩ := joins
      have requests := Step.execute_requests execute
      unfold Instruction.Requests at requests
      rw [opcode] at requests
      obtain ⟨found, same, rfl⟩ := requests
      have stack : current.roster.running.stack = machine.roster.running.stack := by
        rw [(Machine.fetch_eq_execute fetched).1]
      obtain rfl : found = id := by
        rw [stack, target] at same
        exact (Option.some.inj same).symm
      have own := Machine.Performs.settles ⟨current, instruction, fetched, execute⟩
      have granted' := Machine.grants_of_grant grants
      cases granted' with
      | blocks there => exact ⟨_, Roster.running_mem _, own.1, rfl⟩
      | passes gone =>
          have ids : (machine.performed after).roster.ids = machine.roster.ids := by
            rw [Roster.ids_eq, Roster.ids_eq, ← own.1]
            rfl
          rw [← ids] at live
          rw [Roster.contains_iff.mpr live] at gone
          cases gone

/-- Whether those that have asked to wait for the end of a live thread wait until it is gone, and
whatever is gone stays so. -/
structure Waits (log : List Happening) (moment : Moment) : Prop where
  waiting : ∀ happening ∈ log, ∀ id, happening.Joins id → id ∈ happening.machine.roster.ids →
    id ∈ moment.machine.roster.ids → ∃ joiner ∈ moment.machine.roster.threads,
      joiner.id = happening.actor ∧ joiner.state = .joining id
  joined : log.Pairwise fun earlier later => ∀ id, earlier.Joins id →
    id ∈ earlier.machine.roster.ids → later.signal? ≠ none → later.actor = earlier.actor →
      id ∉ later.machine.roster.ids
  gone : log.Pairwise fun earlier later => ∀ id ∈ earlier.machine.roster.ids,
    id ∉ later.machine.roster.ids → id ∉ moment.machine.roster.ids

theorem waits_nil (moment : Moment) : Waits [] moment where
  waiting := by simp
  joined := .nil
  gone := .nil

/-- A thread that waits for the end of a live one does not execute. -/
theorem Waits.not_live (waits : Waits log moment) (orderly : Orderly moment)
    (nodup : moment.machine.roster.ids.Nodup) (move : Moves setup moment entries next)
    (executes : happening ∈ entries) (asks : happening.signal? ≠ none) {earlier : Happening}
    (member : earlier ∈ log) (joins : earlier.Joins id) (live : id ∈ earlier.machine.roster.ids)
    (own : happening.actor = earlier.actor) : id ∉ moment.machine.roster.ids := by
  intro still
  obtain ⟨joiner, there, same, state⟩ := waits.waiting earlier member id joins live still
  cases move with
  | time clock => cases executes
  | decide _ _ =>
      rw [List.mem_singleton.mp executes] at asks
      exact asks rfl
  | @act machine current granted instruction signal after pending fetched execute grants =>
      rw [List.mem_singleton.mp executes] at own
      have running : machine.roster.running = joiner :=
        List.inj_on_of_nodup_map nodup machine.roster.running_mem there (own.trans same.symm)
      rw [← running, orderly.running rfl] at state
      cases state

theorem Waits.moves (waits : Waits log moment) (numbered : Numbered log moment)
    (orderly : Orderly moment) (move : Moves setup moment entries next)
    (few : forks (log ++ entries) < UInt32.size - 1) : Waits (log ++ entries) next := by
  have nodup : moment.machine.roster.ids.Nodup :=
    numbered.live.nodup (numbered.nodup (forks_lt_of_append few))
  have back {happening : Happening} (member : happening ∈ log) {id : ThreadId}
      (there : id ∈ happening.machine.roster.ids) (live : id ∈ next.machine.roster.ids) :
      id ∈ moment.machine.roster.ids :=
    numbered.mem_of_mem_next move few ((numbered.past happening member).subset there) live
  constructor
  · intro happening member id joins there live
    rcases List.mem_append.mp member with old | new
    · obtain ⟨joiner, found, own, state⟩ :=
        waits.waiting happening old id joins there (back old there live)
      obtain ⟨kept, there, same, state⟩ := move.exists_joins orderly found state live
      exact ⟨kept, there, same.trans own, state⟩
    · obtain rfl := move.eq_singleton new
      exact move.exists_joining joins (move.machine new ▸ there)
  · refine List.pairwise_append.mpr ⟨waits.joined, move.pairwise _, ?_⟩
    · intro earlier old later new id joins there asks own
      rw [move.machine new]
      exact waits.not_live orderly nodup move new asks old joins there own
  · refine List.pairwise_append.mpr ⟨?_, move.pairwise _, ?_⟩
    · exact waits.gone.imp_of_mem fun old _ gone id there absent live =>
        gone id there absent (back old there live)
    · intro earlier old later new id there absent live
      rw [move.machine new] at absent
      exact absent (back old there live)

theorem Occurs.waits (h : Occurs setup log moment) (few : forks log < UInt32.size - 1) :
    Waits log moment := by
  refine h.induct (fun log moment => forks log < UInt32.size - 1 → Waits log moment)
    (fun _ _ => waits_nil _) (fun occurs waits move few => ?_) few
  exact (waits (forks_lt_of_append few)).moves occurs.numbered occurs.orderly move few

/-! ## The end of a thread -/

end Moment

/-- A thread is marked only when it asks to be removed. -/
theorem Machine.Grants.leave_of_exiting {setup : Setup} {machine granted : Machine}
    {signal : Signal} {pending : Bool} (h : machine.Grants setup signal granted pending)
    (fits : signal.Fits .running machine.roster.running.state)
    (exiting : granted.roster.running.state = .exiting) : signal = .leave := by
  cases h with
  | proceed | yield | passes gone => exact absurd exiting fits.stays
  | fork forks =>
      obtain ⟨values, stack, -, running⟩ := (forks_of_forked forks).running
      rw [running] at exiting
      cases fits.symm.trans exiting
  | blocks live => cases exiting
  | leave several => rfl

namespace Moment

variable {setup : Setup} {moment next : Moment} {log entries : List Happening}

/-- The last record about a thread that is exiting is that of the instruction with which it has
left: its own exit, or a return when no call was open. -/
theorem Occurs.left (h : Occurs setup log moment)
    (exiting : moment.machine.roster.running.state = .exiting) :
    ∃ front machine instruction after, log = front ++ [.executed machine instruction .leave after] ∧
      machine.roster.running.id = moment.machine.roster.running.id ∧
      (instruction.opcode = .exit ∨
        (instruction.opcode.isReturn = true ∨ instruction.opcode = .leaveFinally) ∧
          machine.roster.running.calls = #[]) := by
  refine h.induct (fun log moment => moment.machine.roster.running.state = .exiting →
    ∃ front machine instruction after, log = front ++ [.executed machine instruction .leave after] ∧
      machine.roster.running.id = moment.machine.roster.running.id ∧
      (instruction.opcode = .exit ∨
        (instruction.opcode.isReturn = true ∨ instruction.opcode = .leaveFinally) ∧
          machine.roster.running.calls = #[])) ?_ ?_ exiting
  · intro moment begins exiting
    rw [begins.orderly.running begins.1] at exiting
    cases exiting
  · intro log entries moment next occurs left move exiting
    cases move with
    | time clock =>
        rw [List.append_nil]
        exact left exiting
    | decide decides resumes =>
        rw [resumes.running] at exiting
        cases exiting
    | @act machine current granted instruction signal after pending fetched execute grants =>
        have performs : machine.Performs setup signal after :=
          ⟨current, instruction, fetched, execute⟩
        have granted' := Machine.grants_of_grant grants
        have fits := performs.settles.2
        rw [occurs.orderly.running rfl] at fits
        obtain rfl := granted'.leave_of_exiting fits exiting
        have calls : current.roster.running.calls = machine.roster.running.calls := by
          rw [(Machine.fetch_eq_execute fetched).1]
        have ends := (Step.execute_requests execute).of_leave
        rw [calls] at ends
        refine ⟨log, machine, instruction, after, rfl, ?_, ends⟩
        obtain ⟨children, spares, -⟩ := Machine.spares_of_grant performs grants
        exact spares.id.symm

theorem Moves.ids_eq (move : Moves setup moment entries next)
    (nodup : moment.machine.roster.ids.Nodup) :
    next.machine.roster.ids = moment.machine.roster.idsAfter entries := by
  cases move with
  | time clock => rfl
  | @decide machine next pending chosen decides resumes =>
      dsimp only [Roster.idsAfter]
      rw [resumes.ids, Roster.candidates]
      split
      · have apart : machine.roster.running.id ∉ machine.roster.earlier.map (·.id) := by
          rw [Roster.ids_eq] at nodup
          intro member
          exact (List.nodup_append.mp nodup).2.2 _ member _ List.mem_cons_self rfl
        rw [Roster.ids_eq, List.erase_append_right _ apart, List.erase_cons_head, List.map_append]
      · rfl
  | @act machine current granted instruction signal after pending fetched execute grants =>
      obtain ⟨children, spares, offspring⟩ :=
        Machine.spares_of_grant ⟨current, instruction, fetched, execute⟩ grants
      dsimp only [Roster.idsAfter]
      rw [spares.ids, offspring.ids]
      rfl

/-- Joining is safe. While there are numbers left, no two live threads have the same one and none is
given twice. So a thread that executes a join of a live one executes nothing until that one is gone,
and what is gone never comes back. When an instruction is about to be executed, no thread is about
to be removed; and a thread is removed only after its own exit, or after a return when no call is
open. None is lost or doubled. -/
theorem join_safe (occurs : Occurs setup log moment) (few : forks log < UInt32.size - 1) :
    moment.machine.roster.ids.Nodup ∧ (issued log).Nodup ∧
    (log.Pairwise fun earlier later => ∀ id, earlier.Joins id →
      id ∈ earlier.machine.roster.ids → later.signal? ≠ none → later.actor = earlier.actor →
        id ∉ later.machine.roster.ids ∧ id ∉ moment.machine.roster.ids) ∧
    (log.Pairwise fun earlier later => ∀ id ∈ earlier.machine.roster.ids,
      id ∉ later.machine.roster.ids → id ∉ moment.machine.roster.ids) ∧
    (moment.pending = false → ∀ thread ∈ moment.machine.roster.threads,
      thread.state ≠ .exiting) ∧
    (∀ entries next, Moves setup moment entries next →
      next.machine.roster.ids = moment.machine.roster.idsAfter entries) ∧
    (moment.machine.roster.running.state = .exiting →
      ∃ front machine instruction after,
        log = front ++ [.executed machine instruction .leave after] ∧
          machine.roster.running.id = moment.machine.roster.running.id ∧
          (instruction.opcode = .exit ∨
            (instruction.opcode.isReturn = true ∨ instruction.opcode = .leaveFinally) ∧
              machine.roster.running.calls = #[])) := by
  have nodup := occurs.numbered.nodup few
  have live := occurs.numbered.live.nodup nodup
  have waits := occurs.waits few
  refine ⟨live, nodup, ?_, waits.gone, ?_, fun _ _ move => move.ids_eq live, occurs.left⟩
  · refine (waits.joined.and waits.gone).imp fun ⟨joined, gone⟩ id joins there asks own => ?_
    have absent := joined id joins there asks own
    exact ⟨absent, gone id there absent⟩
  · intro settled thread member
    rcases Roster.mem_threads.mp member with rfl | other
    · rw [occurs.orderly.running settled]
      nofun
    · exact occurs.orderly.others thread other

end Moment

namespace Machine

/-- A thread that makes a copy of itself and waits for its end. -/
def joinsCopy : Setup :=
  (Setup.ofMain? [
    0x90,     -- fork
    0x02,     -- dup
    0x07, 0,  -- pushbyte
    0x59, 4,  -- jce, to the exit of the copy
    0x91,     -- join
    0x31,     -- ret
    0x92]     -- exit
    0).get (by decide +kernel)

/-- Whether the last thing on a record is an execution by the first thread, which has waited for the
second one. -/
def hasJoined (log : List Happening) : Bool :=
  log.getLast?.any (fun later => later.signal? ≠ none ∧ later.actor = .main) &&
    log.dropLast.any fun earlier =>
      earlier.Joins ⟨2⟩ ∧ ⟨2⟩ ∈ earlier.machine.roster.ids ∧ earlier.actor = .main

/-- The thread goes on when its copy is gone. -/
theorem join_safe_joinsCopy :
    ∃ front earlier later moment, Moment.Occurs joinsCopy (front ++ [later]) moment ∧
      forks (front ++ [later]) < UInt32.size - 1 ∧ earlier ∈ front ∧ earlier.Joins ⟨2⟩ ∧
      ⟨2⟩ ∈ earlier.machine.roster.ids ∧ later.signal? ≠ none ∧
      later.actor = earlier.actor ∧ ⟨2⟩ ∉ later.machine.roster.ids := by
  have runs : occursSatisfying joinsCopy 12
      (fun log _ => hasJoined log && forks log == 1) = true := by
    decide +kernel
  obtain ⟨log, machine, occurs, found⟩ := exists_of_occursSatisfying runs
  obtain ⟨joined, one⟩ := Bool.and_eq_true_iff.mp found
  obtain ⟨last, earlier⟩ := Bool.and_eq_true_iff.mp joined
  obtain ⟨later, ends, executes⟩ := (Option.any_eq_true _ _).mp last
  obtain ⟨earlier, member, asks⟩ := List.any_eq_true.mp earlier
  obtain ⟨executes, actor⟩ := of_decide_eq_true executes
  obtain ⟨joins, live, actor'⟩ := of_decide_eq_true asks
  have few : forks log < UInt32.size - 1 := by
    rw [beq_iff_eq.mp one]
    decide
  rw [← List.dropLast_append_getLast? later ends] at occurs few
  have pairs := (Moment.join_safe occurs few).2.2.1
  have apart :=
    (List.pairwise_append.mp pairs).2.2 earlier member later (List.mem_singleton.mpr rfl)
  have same := actor.trans actor'.symm
  exact ⟨log.dropLast, earlier, later, _, occurs, few, member, joins, live, executes, same,
    (apart _ joins live executes same).1⟩

end Machine

end ObjectMachine
