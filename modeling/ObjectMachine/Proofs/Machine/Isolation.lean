import ObjectMachine.Proofs.Machine.Moments

/-!
# Threads among themselves

An instruction works on the thread that executes it. Every other thread is afterwards what it was,
with all its registers, its stack and its state; a fork puts one more thread behind them. A decision
takes an exiting thread out of the circle and lets one of the others run, and that is all it does.

Threads are numbered by words, in the order of the forks. Only when the numbers have gone round may
a fork give one that a live thread has. The zero that is meant for the copy then goes to that
thread.
-/

namespace ObjectMachine

namespace Roster

/-- Whether a roster has become another one by what its running thread has done, with the threads
that it has created. -/
structure Keeps (roster : Roster) (children : List Thread) (next : Roster) : Prop where
  earlier : next.earlier = roster.earlier
  id : next.running.id = roster.running.id
  later : next.later = roster.later ++ children
  nextId : next.nextId = ⟨roster.nextId.number + UInt32.ofNat children.length⟩

/-- What becomes of the live threads when a request gives a number. Once numbers have gone round, a
fork may give one that a live thread has. The first of those finds zero on its stack. -/
inductive Hands (roster : Roster) : Signal → Roster → Prop
  | new {signal : Signal} : (signal = .fork → roster.contains roster.nextId = false) →
      Hands roster signal roster
  | taken {handed : Roster} : roster.contains roster.nextId = true →
      roster.change roster.nextId (Machine.given (.int 0)) = .ok handed → Hands roster .fork handed

/-- The threads that a request creates: a copy of the one that asks for it, which finds zero on its
stack if its number is new. -/
inductive Offspring (roster : Roster) : Signal → List Thread → Prop
  | none {signal : Signal} : signal ≠ .fork → Offspring roster signal []
  | new {stack : Stack} : roster.contains roster.nextId = false →
      Stack.push (.int 0) roster.running.stack = .ok () stack →
      Offspring roster .fork [{ roster.running.copy roster.nextId with stack }]
  | taken : roster.contains roster.nextId = true →
      Offspring roster .fork [roster.running.copy roster.nextId]

/-- Whether the other threads of a roster are still there in another one, with those that have been
created. A thread whose number has been given may have found zero on its stack. -/
structure Spares (roster : Roster) (children : List Thread) (next : Roster) : Prop where
  earlier : List.Forall₂ (Thread.Handed roster.nextId) roster.earlier next.earlier
  id : next.running.id = roster.running.id
  later : ∃ later, next.later = later ++ children ∧
    List.Forall₂ (Thread.Handed roster.nextId) roster.later later
  nextId : next.nextId = ⟨roster.nextId.number + UInt32.ofNat children.length⟩

variable {roster handed next : Roster} {children : List Thread} {signal : Signal} {thread : Thread}

theorem Hands.spares (hands : roster.Hands signal handed) (keeps : handed.Keeps children next) :
    roster.Spares children next := by
  cases hands with
  | new =>
      exact ⟨keeps.earlier ▸ List.forall₂_same.mpr fun _ _ => .kept, keeps.id,
        ⟨_, keeps.later, List.forall₂_same.mpr fun _ _ => .kept⟩, keeps.nextId⟩
  | taken live changed =>
      obtain ⟨earlier, running, later⟩ := handed_of_change changed
      obtain ⟨-, -, nextId⟩ := threads_of_change changed
      exact ⟨keeps.earlier ▸ earlier, keeps.id.trans running.id, ⟨_, keeps.later, later⟩,
        nextId ▸ keeps.nextId⟩

theorem Keeps.mem (h : roster.Keeps children next)
    (other : thread ∈ roster.earlier ++ roster.later) : thread ∈ next.threads := by
  refine mem_threads.mpr (.inr ?_)
  rw [h.earlier, h.later, ← List.append_assoc]
  exact List.mem_append_left _ other

theorem Spares.exists_handed (h : roster.Spares children next)
    (other : thread ∈ roster.earlier ++ roster.later) :
    ∃ kept ∈ next.earlier ++ next.later, thread.Handed roster.nextId kept := by
  obtain ⟨later, all, same⟩ := h.later
  obtain ⟨kept, found, handed⟩ :=
    exists_of_mem_right (List.rel_append h.earlier same).flip other
  refine ⟨kept, ?_, handed⟩
  rw [all, ← List.append_assoc]
  exact List.mem_append_left _ found

end Roster

namespace Machine

variable {setup : Setup} {machine granted : Machine} {signal : Signal} {pending : Bool}

theorem Grants.keeps (h : machine.Grants setup signal granted pending) :
    ∃ handed children, machine.roster.Hands signal handed ∧
      handed.Keeps children granted.roster ∧ machine.roster.Offspring signal children := by
  have alone (other : signal ≠ .fork) : machine.roster.Hands signal machine.roster :=
    .new fun same => absurd same other
  cases h with
  | proceed => exact ⟨_, [], alone nofun, ⟨rfl, rfl, by simp, by simp⟩, .none nofun⟩
  | yield => exact ⟨_, [], alone nofun, ⟨rfl, rfl, by simp, by simp⟩, .none nofun⟩
  | fork forks =>
      cases live : machine.roster.contains machine.roster.nextId with
      | false =>
          obtain ⟨stack, stack', -, pushed, rfl⟩ := forked_of_fresh forks live
          exact ⟨_, _, .new fun _ => live, ⟨rfl, rfl, rfl, rfl⟩, .new live pushed⟩
      | true =>
          obtain ⟨handed, stack, changed, -, rfl⟩ := forked_eq_ok forks
          rw [Roster.change_withCopy_of_contains live] at changed
          cases hands : machine.roster.change machine.roster.nextId (given (.int 0)) with
          | error fault =>
              rw [hands] at changed
              cases changed
          | ok handed' =>
              rw [hands] at changed
              cases changed
              obtain ⟨-, -, nextId⟩ := Roster.threads_of_change hands
              exact ⟨handed', _, .taken live hands, ⟨rfl, rfl, rfl, by rw [nextId]; rfl⟩,
                .taken live⟩
  | blocks live =>
      exact ⟨_, [], alone nofun, ⟨rfl, rfl, by simp [setState], by simp [setState]⟩, .none nofun⟩
  | passes gone => exact ⟨_, [], alone nofun, ⟨rfl, rfl, by simp, by simp⟩, .none nofun⟩
  | leave several =>
      exact ⟨_, [], alone nofun, ⟨rfl, rfl, by simp [setState], by simp [setState]⟩, .none nofun⟩

theorem spares_of_grant {after : Scene} (performs : machine.Performs setup signal after)
    (grants : (machine.performed after).grant setup signal = .ok (granted, pending)) :
    ∃ children, machine.roster.Spares children granted.roster ∧
      (machine.performed after).roster.Offspring signal children := by
  obtain ⟨handed, children, hands, keeps, offspring⟩ := (grants_of_grant grants).keeps
  have spares := hands.spares keeps
  exact ⟨children, ⟨spares.earlier, spares.id.trans performs.settles.1, spares.later,
    spares.nextId⟩, offspring⟩

end Machine

/-! ## Numbers -/

namespace ThreadId

def first (count : Nat) : List ThreadId :=
  (List.range count).map fun place => ⟨UInt32.ofNat (place + 1)⟩

theorem first_succ (count : Nat) :
    first (count + 1) = first count ++ [⟨UInt32.ofNat (count + 1)⟩] := by
  simp [first, List.range_succ]

theorem nodup_first {count : Nat} (few : count ≤ UInt32.size) : (first count).Nodup := by
  refine List.Nodup.map_on ?_ List.nodup_range
  intro place inside other inside' same
  have equal : (place + 1) % UInt32.size = (other + 1) % UInt32.size :=
    congrArg (fun id : ThreadId => id.number.toNat) same
  rw [List.mem_range] at inside inside'
  unfold UInt32.size at few equal
  omega

end ThreadId

namespace Roster

variable {roster next chosen : Roster} {thread : Thread} {children : List Thread} {id : ThreadId}

def ids (roster : Roster) : List ThreadId :=
  roster.threads.map (·.id)

theorem contains_iff : roster.contains id = true ↔ id ∈ roster.ids := by
  simp [contains, ids]

theorem ids_eq (roster : Roster) :
    roster.ids = roster.earlier.map (·.id) ++ roster.running.id :: roster.later.map (·.id) := by
  simp [ids, threads]

theorem candidates_sublist (roster : Roster) : roster.candidates.Sublist roster.threads := by
  unfold candidates threads
  split
  · exact (List.sublist_cons_self _ _).append_left _
  · exact .refl _

theorem Resumes.ids (h : roster.Resumes thread chosen) :
    chosen.ids = roster.candidates.map (·.id) := by
  rw [h.candidates, ids_eq, h.running]
  simp

theorem Spares.ids (h : roster.Spares children next) :
    next.ids = roster.ids ++ children.map (·.id) := by
  have same {threads others : List Thread}
      (handed : List.Forall₂ (Thread.Handed roster.nextId) threads others) :
      others.map (·.id) = threads.map (·.id) :=
    map_eq_of_forall₂ (handed.imp fun _ _ hands => hands.id)
  obtain ⟨later, all, kept⟩ := h.later
  rw [ids_eq, ids_eq, h.id, all, List.map_append, same h.earlier, same kept]
  simp

theorem Offspring.ids {signal : Signal} (h : roster.Offspring signal children) :
    children.map (·.id) = if signal = .fork then [roster.nextId] else [] := by
  cases h with
  | none other => rw [if_neg other]; rfl
  | new | taken => rfl

end Roster

/-! ## Numbers that are given -/

def Happening.created? : Happening → Option ThreadId
  | resumed _ _ => none
  | executed machine _ signal _ => if signal = .fork then some machine.roster.nextId else none

def forks (log : List Happening) : Nat :=
  log.countP (·.signal? = some .fork)

def issued (log : List Happening) : List ThreadId :=
  .main :: log.filterMap Happening.created?

theorem forks_append (log entries : List Happening) :
    forks (log ++ entries) = forks log + forks entries := by
  simp [forks, List.countP_append]

theorem forks_lt_of_append {log entries : List Happening} {limit : Nat}
    (h : forks (log ++ entries) < limit) : forks log < limit := by
  rw [forks_append] at h
  exact Nat.lt_of_add_right_lt h

theorem issued_append (log entries : List Happening) :
    issued (log ++ entries) = issued log ++ entries.filterMap Happening.created? := by
  simp [issued, List.filterMap_append]

namespace Moment

variable {setup : Setup} {moment next : Moment} {log entries : List Happening}
  {id : ThreadId} {happening : Happening}

theorem Moves.machine (move : Moves setup moment entries next) (member : happening ∈ entries) :
    happening.machine = moment.machine := by
  cases move with
  | time clock => cases member
  | decide _ _ => rw [List.mem_singleton.mp member, Happening.machine]
  | act _ _ _ => rw [List.mem_singleton.mp member, Happening.machine]

/-- What a move makes of the numbers: either no thread is created, or the next number is given. -/
theorem Moves.ids (move : Moves setup moment entries next) :
    (entries.filterMap Happening.created? = [] ∧ forks entries = 0 ∧
      next.machine.roster.ids.Sublist moment.machine.roster.ids ∧
      next.machine.roster.nextId = moment.machine.roster.nextId) ∨
    (entries.filterMap Happening.created? = [moment.machine.roster.nextId] ∧ forks entries = 1 ∧
      next.machine.roster.ids = moment.machine.roster.ids ++ [moment.machine.roster.nextId] ∧
      next.machine.roster.nextId = ⟨moment.machine.roster.nextId.number + 1⟩) := by
  cases move with
  | time clock => exact .inl ⟨rfl, rfl, .refl _, rfl⟩
  | @decide machine next pending chosen decides resumes =>
      refine .inl ⟨rfl, rfl, ?_, resumes.nextId⟩
      rw [resumes.ids]
      exact machine.roster.candidates_sublist.map (·.id)
  | @act machine current granted instruction signal after pending fetched execute grants =>
      obtain ⟨children, spares, offspring⟩ :=
        Machine.spares_of_grant ⟨current, instruction, fetched, execute⟩ grants
      have nextId := spares.nextId
      have ids : granted.roster.ids =
          machine.roster.ids ++ if signal = .fork then [machine.roster.nextId] else [] :=
        spares.ids.trans (congrArg (machine.roster.ids ++ ·) offspring.ids)
      cases offspring with
      | none other =>
          refine .inl ⟨by simp [Happening.created?, other], ?_, ?_, ?_⟩
          · simp [forks, Happening.signal?, other]
          · rw [ids, if_neg other, List.append_nil]
          · simpa using nextId
      | new | taken =>
          refine .inr ⟨by simp [Happening.created?], by simp [forks, Happening.signal?], ?_, ?_⟩
          · simpa using ids
          · simpa using nextId

/-- Whether the numbers of a moment are those that a record accounts for. -/
structure Numbered (log : List Happening) (moment : Moment) : Prop where
  inOrder : issued log = ThreadId.first (forks log + 1)
  nextId : moment.machine.roster.nextId = ⟨UInt32.ofNat (forks log + 2)⟩
  live : moment.machine.roster.ids.Sublist (issued log)
  past : ∀ happening ∈ log, happening.machine.roster.ids.Sublist (issued log)

theorem Begins.numbered (h : Begins setup moment) : Numbered [] moment := by
  obtain ⟨⟨stack, roster⟩, -⟩ := h.start_eq
  refine ⟨?_, ?_, ?_, by simp⟩
  · simp [issued, forks, ThreadId.first, ThreadId.main]
  · rw [roster]
    simp [Roster.start, Thread.start, ThreadId.main, forks]
  · rw [roster]
    simp [Roster.ids, Roster.threads, Roster.start, Thread.start, issued]

theorem Numbered.moves (numbered : Numbered log moment) (move : Moves setup moment entries next) :
    Numbered (log ++ entries) next := by
  have grows : (issued log).Sublist (issued (log ++ entries)) := by
    rw [issued_append]
    exact List.sublist_append_left _ _
  have past : ∀ happening ∈ log ++ entries,
      happening.machine.roster.ids.Sublist (issued (log ++ entries)) := by
    intro happening member
    rcases List.mem_append.mp member with member | member
    · exact (numbered.past happening member).trans grows
    · rw [move.machine member]
      exact numbered.live.trans grows
  rcases move.ids with ⟨none, same, live, nextId⟩ | ⟨one, created, live, nextId⟩
  · refine ⟨?_, ?_, live.trans (numbered.live.trans grows), past⟩
    · rw [issued_append, forks_append, none, same, List.append_nil]
      exact numbered.inOrder
    · rw [nextId, forks_append, same]
      exact numbered.nextId
  · refine ⟨?_, ?_, ?_, past⟩
    · rw [issued_append, forks_append, one, created, ThreadId.first_succ, numbered.inOrder,
        numbered.nextId]
    · rw [nextId, numbered.nextId, forks_append, created, Nat.add_right_comm]
      rw [UInt32.ofNat_add (forks log + 2)]
      rfl
    · rw [issued_append, one, live]
      exact numbered.live.append_right _

theorem Occurs.numbered (h : Occurs setup log moment) : Numbered log moment :=
  h.induct Numbered (fun begins => begins.numbered) fun _ numbered move => numbered.moves move

theorem Numbered.nodup (numbered : Numbered log moment) (few : forks log < UInt32.size - 1) :
    (issued log).Nodup := by
  rw [numbered.inOrder]
  exact ThreadId.nodup_first (by omega)

theorem Numbered.fresh (numbered : Numbered log moment) (few : forks log < UInt32.size - 1) :
    moment.machine.roster.contains moment.machine.roster.nextId = false := by
  have distinct : (ThreadId.first (forks log + 1 + 1)).Nodup := ThreadId.nodup_first (by omega)
  rw [ThreadId.first_succ, ← numbered.inOrder, ← numbered.nextId] at distinct
  refine Bool.eq_false_iff.mpr fun live => ?_
  have given := numbered.live.subset (Roster.contains_iff.mp live)
  exact (List.nodup_append.mp distinct).2.2 _ given _ (List.mem_singleton.mpr rfl) rfl

theorem Occurs.eq_of_handed {thread kept : Thread} (h : Occurs setup log moment)
    (few : forks log < UInt32.size - 1) (member : thread ∈ moment.machine.roster.threads)
    (handed : thread.Handed moment.machine.roster.nextId kept) : kept = thread := by
  refine handed.eq_of_ne fun same => ?_
  have live : thread.id ∈ moment.machine.roster.ids := List.mem_map_of_mem member
  rw [same, ← Roster.contains_iff, h.numbered.fresh few] at live
  cases live

/-- As long as there are numbers left, a thread that executes nothing does not change. -/
theorem Occurs.idles_of_rests {machine : Machine} {thread next : Thread}
    (h : Occurs setup log ⟨machine, false⟩) (few : forks log < UInt32.size - 1)
    (member : thread ∈ machine.roster.threads) (rests : next.Rests machine.roster.nextId thread) :
    next.Idles thread := by
  obtain ⟨handed, hands, idles⟩ := rests
  exact h.eq_of_handed few member hands ▸ idles

/-- A number that a move brings in is a new one. -/
theorem Numbered.mem_of_mem_next (numbered : Numbered log moment)
    (move : Moves setup moment entries next) (few : forks (log ++ entries) < UInt32.size - 1)
    (given : id ∈ issued log) (live : id ∈ next.machine.roster.ids) :
    id ∈ moment.machine.roster.ids := by
  have nodup := (numbered.moves move).nodup few
  rw [issued_append] at nodup
  rcases move.ids with ⟨-, -, sublist, -⟩ | ⟨one, -, ids, -⟩
  · exact sublist.subset live
  · rw [ids, List.mem_append, List.mem_singleton] at live
    rcases live with live | rfl
    · exact live
    · rw [one] at nodup
      exact absurd rfl ((List.nodup_append.mp nodup).2.2 _ given _ (List.mem_singleton.mpr rfl))

end Moment

/-! ## Isolation -/

/-- A thread that an executed instruction is not about is there afterwards. -/
theorem Machine.exists_handed_of_grant {setup : Setup} {machine granted : Machine}
    {instruction : Instruction} {signal : Signal} {pending : Bool} {after : Scene} {thread : Thread}
    (grants : (machine.performed after).grant setup signal = .ok (granted, pending))
    (other : thread ∈ machine.roster.earlier ++ machine.roster.later) :
    ∃ kept ∈ granted.roster.threads, thread.Handed machine.roster.nextId kept ∧
      (forks [.executed machine instruction signal after] = 0 → kept = thread) := by
  obtain ⟨handed, children, hands, keeps, -⟩ := (grants_of_grant grants).keeps
  have spares := hands.spares keeps
  cases hands with
  | new => exact ⟨thread, keeps.mem other, .kept, fun _ => rfl⟩
  | taken =>
      obtain ⟨kept, found, handed⟩ := spares.exists_handed other
      exact ⟨kept, Roster.mem_threads.mpr (.inr found), handed, by simp [forks, Happening.signal?]⟩

namespace Moment

variable {setup : Setup} {first last moment next : Moment} {log entries : List Happening}
  {thread : Thread}

/-- A thread that a move is not about is there afterwards as it was, but for a zero that it finds on
its stack if its number is given once more. -/
theorem Moves.exists_handed (move : Moves setup moment entries next)
    (member : thread ∈ moment.machine.roster.threads) (stays : thread.state ≠ .exiting)
    (apart : ∀ happening ∈ entries, happening.actor ≠ thread.id) :
    ∃ kept ∈ next.machine.roster.threads, thread.Handed moment.machine.roster.nextId kept ∧
      (forks entries = 0 → kept = thread) := by
  cases move with
  | time clock => exact ⟨thread, member, .kept, fun _ => rfl⟩
  | @decide machine next pending chosen decides resumes =>
      rcases resumes.mem_candidates_iff.mp (Roster.mem_candidates member stays) with rfl | other
      · exact absurd rfl (apart _ (List.mem_singleton.mpr rfl))
      · exact ⟨thread, Roster.mem_threads.mpr (.inr other), .kept, fun _ => rfl⟩
  | @act machine current granted instruction signal after pending fetched execute grants =>
      rcases Roster.mem_threads.mp member with rfl | other
      · exact absurd rfl (apart _ (List.mem_singleton.mpr rfl))
      · exact Machine.exists_handed_of_grant grants other

/-- While there are numbers left, it is there exactly as it was. -/
theorem Leads.mem_threads {before : List Happening} (leads : Leads setup first log last)
    (occurs : Occurs setup before first) (few : forks (before ++ log) < UInt32.size)
    (member : thread ∈ first.machine.roster.threads) (stays : thread.state ≠ .exiting)
    (apart : ∀ happening ∈ log, happening.actor ≠ thread.id) :
    thread ∈ last.machine.roster.threads := by
  induction leads with
  | refl => exact member
  | @snoc middle last log entries leads move ih =>
      rw [← List.append_assoc] at few
      have there := ih (forks_lt_of_append few) fun happening found =>
        apart happening (List.mem_append_left _ found)
      obtain ⟨kept, found, handed, same⟩ := move.exists_handed there stays
        fun happening found => apart happening (List.mem_append_right _ found)
      by_cases none : forks entries = 0
      · exact same none ▸ found
      · -- The number that is given is new, so that it is not the thread's.
        rw [forks_append] at few
        exact (occurs.trans leads).eq_of_handed (by omega) there handed ▸ found

end Moment

end ObjectMachine
