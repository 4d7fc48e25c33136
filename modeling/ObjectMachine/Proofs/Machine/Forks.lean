import ObjectMachine.Machine.Engine
import ObjectMachine.Proofs.Machine.Coupling

/-!
# Forks

A fork puts a copy of the running thread behind all others and hands zero to the first live thread
that has the copy's number. That thread is the copy as long as numbers are new; once they have gone
round, it may be one that has been waiting for longer. So a thread that only waits keeps its
registers and everything on its stack, but may find zeros on top of that.
-/

namespace ObjectMachine

/-! ## Stacks that grow -/

namespace Stack

/-- Whether a stack has become another one by pushing some values. -/
structure Heaped (values : List Value) (before after : Stack) : Prop where
  slots : after.slots = before.slots ++ values.toArray
  limit : after.limit = before.limit
  room : values ≠ [] → after.depth ≤ after.limit

namespace Heaped

variable {values others : List Value} {before middle after : Stack}

theorem refl (stack : Stack) : Heaped [] stack stack :=
  ⟨by simp, rfl, absurd rfl⟩

theorem eq (h : Heaped [] before after) : after = before := by
  obtain ⟨slots, limit⟩ := before
  obtain ⟨slots', limit'⟩ := after
  obtain ⟨rfl, rfl, -⟩ := h
  simp

theorem trans (h : Heaped values before middle) (h' : Heaped others middle after) :
    Heaped (values ++ others) before after := by
  refine ⟨by rw [h'.slots, h.slots]; simp, h'.limit.trans h.limit, fun some => ?_⟩
  by_cases none : others = []
  · subst none
    rw [h'.eq]
    exact h.room (by simpa using some)
  · exact h'.room none

theorem of_push {value : Value} (h : push value before = .ok () after) :
    Heaped [value] before after := by
  unfold push at h
  split at h
  · cases h
  · next room =>
      cases h
      refine ⟨by simp, rfl, fun _ => ?_⟩
      change (before.slots.push value).size ≤ before.limit
      rw [Array.size_push]
      omega

theorem depth (h : Heaped values before after) : after.depth = before.depth + values.length := by
  rw [Stack.depth, h.slots, Array.size_append, List.size_toArray]
  rfl

theorem get? (h : Heaped values before after) {place : Nat} (inside : place < before.depth) :
    after.get? place = before.get? place := by
  rw [Stack.get?, h.slots]
  exact Array.getElem?_append_left inside

theorem toList (h : Heaped values before after) :
    after.slots.toList = before.slots.toList ++ values := by
  rw [h.slots, Array.toList_append]

end Heaped

end Stack

/-! ## Threads that wait -/

namespace Thread

variable {nextId : ThreadId} {thread next last handed : Thread}

/-- Whether a thread is what another one is while others run: only its state may have changed. -/
structure Idles (next thread : Thread) : Prop where
  eq : next = { thread with state := next.state }

/-- What becomes of a thread when a fork has given a number: if that is its own, it may find zero on
its stack. -/
inductive Handed (nextId : ThreadId) (thread : Thread) : Thread → Prop
  | kept : Handed nextId thread thread
  | zero {stack : Stack} : thread.id = nextId → Stack.push (.int 0) thread.stack = .ok () stack →
      Handed nextId thread { thread with stack }

/-- What becomes of a thread in a step in which it executes nothing. -/
def Rests (nextId : ThreadId) (next thread : Thread) : Prop :=
  ∃ handed, thread.Handed nextId handed ∧ next.Idles handed

/-- Whether a thread is what another one is after others have run for some time. -/
structure Waits (next thread : Thread) : Prop where
  eq : next = { thread with state := next.state, stack := next.stack }
  stack : ∃ zeros, Stack.Heaped (List.replicate zeros (.int 0)) thread.stack next.stack

namespace Idles

theorem refl (thread : Thread) : thread.Idles thread := ⟨rfl⟩

theorem trans (h : last.Idles next) (h' : next.Idles thread) : last.Idles thread := by
  obtain ⟨h⟩ := h
  obtain ⟨h'⟩ := h'
  exact ⟨by rw [h, h']⟩

theorem id (h : next.Idles thread) : next.id = thread.id := by
  rw [h.eq]

theorem registers (h : next.Idles thread) : next.registers = thread.registers := by
  rw [h.eq]
  rfl

theorem stack (h : next.Idles thread) : next.stack = thread.stack := by
  rw [h.eq]

theorem rests (h : next.Idles thread) (nextId : ThreadId) : next.Rests nextId thread :=
  ⟨thread, .kept, h⟩

theorem waits (h : next.Idles thread) : next.Waits thread :=
  ⟨by rw [h.eq], 0, h.stack ▸ .refl _⟩

end Idles

namespace Handed

theorem id (h : thread.Handed nextId handed) : handed.id = thread.id := by
  cases h <;> rfl

theorem state (h : thread.Handed nextId handed) : handed.state = thread.state := by
  cases h <;> rfl

theorem registers (h : thread.Handed nextId handed) : handed.registers = thread.registers := by
  cases h <;> rfl

theorem eq (h : thread.Handed nextId handed) : handed = { thread with stack := handed.stack } := by
  cases h <;> rfl

/-- A thread with another number is left alone. -/
theorem eq_of_ne (h : thread.Handed nextId handed) (other : thread.id ≠ nextId) :
    handed = thread := by
  cases h with
  | kept => rfl
  | zero same => exact absurd same other

theorem heaped (h : thread.Handed nextId handed) :
    ∃ zeros, Stack.Heaped (List.replicate zeros (.int 0)) thread.stack handed.stack := by
  cases h with
  | kept => exact ⟨0, .refl _⟩
  | zero _ pushed => exact ⟨1, .of_push pushed⟩

theorem rests (h : thread.Handed nextId handed) : handed.Rests nextId thread :=
  ⟨handed, h, .refl handed⟩

/-- It makes no difference whether the state changes before or after. -/
theorem exists_idles (h : next.Handed nextId handed) (idles : next.Idles thread) :
    handed.Rests nextId thread := by
  cases h with
  | kept => exact idles.rests nextId
  | zero same pushed =>
      rw [idles.stack] at pushed
      exact ⟨_, .zero (idles.id ▸ same) pushed, ⟨by rw [idles.eq]⟩⟩

end Handed

namespace Rests

theorem id (h : next.Rests nextId thread) : next.id = thread.id := by
  obtain ⟨handed, hands, idles⟩ := h
  exact idles.id.trans hands.id

theorem registers (h : next.Rests nextId thread) : next.registers = thread.registers := by
  obtain ⟨handed, hands, idles⟩ := h
  exact idles.registers.trans hands.registers

theorem waits (h : next.Rests nextId thread) : next.Waits thread := by
  obtain ⟨handed, hands, idles⟩ := h
  refine ⟨?_, idles.stack ▸ hands.heaped⟩
  rw [idles.eq]
  cases hands <;> rfl

/-- A thread that idles before a fork and after it. -/
theorem of_idles (h : next.Rests nextId handed) (after : last.Idles next)
    (before : handed.Idles thread) : last.Rests nextId thread := by
  obtain ⟨given, hands, idles⟩ := h
  obtain ⟨given', hands', idles'⟩ := hands.exists_idles before
  exact ⟨given', hands', after.trans (idles.trans idles')⟩

end Rests

namespace Waits

theorem refl (thread : Thread) : thread.Waits thread :=
  (Idles.refl thread).waits

theorem trans (h : last.Waits next) (h' : next.Waits thread) : last.Waits thread := by
  obtain ⟨h, zeros, heaped⟩ := h
  obtain ⟨h', zeros', heaped'⟩ := h'
  refine ⟨by rw [h, h'], zeros' + zeros, ?_⟩
  rw [List.replicate_add]
  exact heaped'.trans heaped

theorem id (h : next.Waits thread) : next.id = thread.id := by
  rw [h.eq]

theorem registers (h : next.Waits thread) : next.registers = thread.registers := by
  rw [h.eq]
  rfl

end Waits

end Thread

/-! ## Changes of the first thread with a number -/

section

variable {id : ThreadId} {step : Thread → Except Fault Thread}
  {threads others changed : List Thread}

/-- The thread is looked for among the last ones only if it is not among the first ones. -/
theorem changeFirst_append (id : ThreadId) (step : Thread → Except Fault Thread)
    (threads others : List Thread) :
    changeFirst id step (threads ++ others) =
      if threads.any (·.id == id) then (· ++ others) <$> changeFirst id step threads
      else (threads ++ ·) <$> changeFirst id step others := by
  induction threads with
  | nil => simp
  | cons thread threads ih =>
      rw [List.cons_append, changeFirst, changeFirst, List.any_cons]
      by_cases same : thread.id = id
      · simp only [same, if_true, BEq.rfl, Bool.true_or]
        cases step thread <;> rfl
      · rw [if_neg same, if_neg same, ih, beq_eq_false_iff_ne.mpr same, Bool.false_or]
        split
        · cases changeFirst id step threads <;> rfl
        · cases changeFirst id step others <;> rfl

theorem changeFirst_eq_error {fault : Fault} (h : changeFirst id step threads = .error fault) :
    ∃ thread ∈ threads, step thread = .error fault := by
  induction threads with
  | nil => cases h
  | cons first threads ih =>
      rw [changeFirst] at h
      split at h
      · rcases Except.bind_eq_error_iff.mp h with failed | ⟨next, -, h⟩
        · exact ⟨first, List.mem_cons_self, failed⟩
        · cases h
      · rcases Except.bind_eq_error_iff.mp h with failed | ⟨rest, -, h⟩
        · obtain ⟨thread, found, failed⟩ := ih failed
          exact ⟨thread, List.mem_cons_of_mem _ found, failed⟩
        · cases h

theorem length_changeFirst (h : changeFirst id step threads = .ok changed) :
    changed.length = threads.length := by
  induction threads generalizing changed with
  | nil =>
      cases h
      rfl
  | cons first threads ih =>
      rw [changeFirst] at h
      split at h
      · obtain ⟨next, -, h⟩ := Except.bind_eq_ok_iff.mp h
        cases h
        rfl
      · obtain ⟨rest, made, h⟩ := Except.bind_eq_ok_iff.mp h
        cases h
        rw [List.length_cons, List.length_cons, ih made]

end

namespace Roster

variable {roster next : Roster} {id : ThreadId} {step : Thread → Except Fault Thread}

/-- Among the live threads, the first one with the number is changed. -/
theorem threads_of_change (h : roster.change id step = .ok next) :
    changeFirst id step roster.threads = .ok next.threads ∧
      next.earlier.length = roster.earlier.length ∧ next.nextId = roster.nextId := by
  unfold change at h
  rw [threads, changeFirst_append, changeFirst]
  split at h
  · next found =>
      obtain ⟨earlier, made, h⟩ := Except.bind_eq_ok_iff.mp h
      cases h
      rw [if_pos found, made]
      exact ⟨rfl, length_changeFirst made, rfl⟩
  · next none =>
      rw [if_neg none]
      split at h
      · next own =>
          obtain ⟨running, made, h⟩ := Except.bind_eq_ok_iff.mp h
          cases h
          rw [if_pos own, made]
          exact ⟨rfl, rfl, rfl⟩
      · next other =>
          obtain ⟨later, made, h⟩ := Except.bind_eq_ok_iff.mp h
          cases h
          rw [if_neg other, made]
          exact ⟨rfl, rfl, rfl⟩

theorem change_eq_error {fault : Fault} (h : roster.change id step = .error fault) :
    ∃ thread, step thread = .error fault := by
  unfold change at h
  split at h
  · rcases Except.bind_eq_error_iff.mp h with failed | ⟨earlier, -, h⟩
    · obtain ⟨thread, -, failed⟩ := changeFirst_eq_error failed
      exact ⟨thread, failed⟩
    · cases h
  · split at h
    · rcases Except.bind_eq_error_iff.mp h with failed | ⟨running, -, h⟩
      · exact ⟨_, failed⟩
      · cases h
    · rcases Except.bind_eq_error_iff.mp h with failed | ⟨later, -, h⟩
      · obtain ⟨thread, -, failed⟩ := changeFirst_eq_error failed
        exact ⟨thread, failed⟩
      · cases h

end Roster

/-! ## What a fork makes of the threads -/

namespace Machine

theorem given_eq_ok {value : Value} {thread after : Thread} (h : given value thread = .ok after) :
    ∃ stack, Stack.push value thread.stack = .ok () stack ∧ after = { thread with stack } := by
  unfold given at h
  split at h
  · next stack pushed =>
      cases h
      exact ⟨stack, pushed, rfl⟩
  · cases h

end Machine

theorem Thread.handed_of_given {id : ThreadId} {thread next : Thread} (same : thread.id = id)
    (h : Machine.given (.int 0) thread = .ok next) : thread.Handed id next := by
  obtain ⟨stack, pushed, rfl⟩ := Machine.given_eq_ok h
  exact .zero same pushed

theorem handed_of_changeFirst {id : ThreadId} {threads changed : List Thread}
    (h : changeFirst id (Machine.given (.int 0)) threads = .ok changed) :
    List.Forall₂ (Thread.Handed id) threads changed := by
  induction threads generalizing changed with
  | nil =>
      cases h
      exact .nil
  | cons thread threads ih =>
      rw [changeFirst] at h
      split at h
      · next same =>
          obtain ⟨next, made, h⟩ := Except.bind_eq_ok_iff.mp h
          cases h
          exact .cons (Thread.handed_of_given same made) (List.forall₂_same.mpr fun _ _ => .kept)
      · obtain ⟨rest, made, h⟩ := Except.bind_eq_ok_iff.mp h
        cases h
        exact .cons .kept (ih made)

namespace Roster

variable {roster grown : Roster}

def withCopy (roster : Roster) : Roster :=
  { roster with
    later := roster.later ++ [roster.running.copy roster.nextId]
    nextId := ⟨roster.nextId.number + 1⟩ }

structure Forks (roster grown : Roster) : Prop where
  earlier : List.Forall₂ (Thread.Handed roster.nextId) roster.earlier grown.earlier
  running : ∃ zeros stack,
    Stack.Heaped (List.replicate zeros (.int 0) ++ [Step.numberOf roster.nextId])
      roster.running.stack stack ∧ grown.running = { roster.running with stack }
  later : ∃ later child, grown.later = later ++ [child] ∧
    List.Forall₂ (Thread.Handed roster.nextId) roster.later later ∧
    (roster.running.copy roster.nextId).Handed roster.nextId child
  nextId : grown.nextId = ⟨roster.nextId.number + 1⟩

/-- The other threads after a fork are those before it and the copy. -/
theorem Forks.exists_handed {thread : Thread} (h : roster.Forks grown)
    (member : thread ∈ grown.earlier ++ grown.later) :
    (∃ old ∈ roster.earlier ++ roster.later, old.Handed roster.nextId thread) ∨
      (roster.running.copy roster.nextId).Handed roster.nextId thread := by
  obtain ⟨later, child, all, others, copy⟩ := h.later
  rw [all, ← List.append_assoc] at member
  rcases List.mem_append.mp member with member | member
  · exact .inl (exists_of_mem_right (List.rel_append h.earlier others) member)
  · obtain rfl := List.mem_singleton.mp member
    exact .inr copy

/-- A number that no live thread has is that of the copy alone. -/
theorem change_withCopy (fresh : roster.contains roster.nextId = false)
    (step : Thread → Except Fault Thread) :
    roster.withCopy.change roster.nextId step =
      (fun child => { roster.withCopy with later := roster.later ++ [child] }) <$>
        step (roster.running.copy roster.nextId) := by
  simp only [contains, threads, List.any_append, List.any_cons, Bool.or_eq_false_iff] at fresh
  obtain ⟨earlier, running, later⟩ := fresh
  have own : (roster.running.copy roster.nextId).id = roster.nextId := rfl
  dsimp only [change, withCopy]
  rw [earlier, if_neg Bool.false_ne_true, if_neg (beq_eq_false_iff_ne.mp running),
    changeFirst_append, later, if_neg Bool.false_ne_true, changeFirst, if_pos own]
  cases step (roster.running.copy roster.nextId) <;> rfl

/-- A number that a live thread has is not looked for at the copy. -/
theorem change_withCopy_of_contains (taken : roster.contains roster.nextId = true)
    (step : Thread → Except Fault Thread) :
    roster.withCopy.change roster.nextId step =
      (fun handed => { handed with
        later := handed.later ++ [roster.running.copy roster.nextId]
        nextId := ⟨roster.nextId.number + 1⟩ }) <$> roster.change roster.nextId step := by
  simp only [contains, threads, List.any_append, List.any_cons, Bool.or_eq_true,
    beq_iff_eq] at taken
  dsimp only [change, withCopy]
  by_cases earlier : roster.earlier.any (·.id == roster.nextId) = true
  · rw [if_pos earlier, if_pos earlier]
    cases changeFirst roster.nextId step roster.earlier <;> rfl
  · rw [if_neg earlier, if_neg earlier]
    by_cases own : roster.running.id = roster.nextId
    · rw [if_pos own, if_pos own]
      cases step roster.running <;> rfl
    · have later := (taken.resolve_left earlier).resolve_left own
      rw [if_neg own, if_neg own, changeFirst_append, if_pos later]
      cases changeFirst roster.nextId step roster.later <;> rfl

/-- The parts of a roster in which a number has been given. -/
theorem handed_of_change {id : ThreadId}
    (h : roster.change id (Machine.given (.int 0)) = .ok grown) :
    List.Forall₂ (Thread.Handed id) roster.earlier grown.earlier ∧
      roster.running.Handed id grown.running ∧
      List.Forall₂ (Thread.Handed id) roster.later grown.later := by
  have kept (threads : List Thread) : List.Forall₂ (Thread.Handed id) threads threads :=
    List.forall₂_same.mpr fun _ _ => .kept
  unfold change at h
  split at h
  · obtain ⟨earlier, made, h⟩ := Except.bind_eq_ok_iff.mp h
    cases h
    exact ⟨handed_of_changeFirst made, .kept, kept _⟩
  · split at h
    · next own =>
        obtain ⟨running, made, h⟩ := Except.bind_eq_ok_iff.mp h
        cases h
        exact ⟨kept _, Thread.handed_of_given own made, kept _⟩
    · obtain ⟨later, made, h⟩ := Except.bind_eq_ok_iff.mp h
      cases h
      exact ⟨kept _, .kept, handed_of_changeFirst made⟩

end Roster

namespace Machine

variable {setup : Setup} {roster grown : Roster}

/-- First zero is handed to the thread that has the copy's number, then that number to the running
one. -/
theorem forked_eq_ok (h : forked setup roster = .ok grown) :
    ∃ handed stack, roster.withCopy.change roster.nextId (given (.int 0)) = .ok handed ∧
      Stack.push (Step.numberOf roster.nextId) handed.running.stack = .ok () stack ∧
      grown = { handed with running := { handed.running with stack } } := by
  obtain ⟨⟨id, handed⟩, copies, forks⟩ := Except.bind_eq_ok_iff.mp h
  obtain ⟨parent, pushed, forks⟩ := Except.bind_eq_ok_iff.mp forks
  cases forks
  unfold Roster.fork at copies
  dsimp only at copies
  split at copies
  · cases copies
  · obtain ⟨made, hands, copies⟩ := Except.bind_eq_ok_iff.mp copies
    cases copies
    obtain ⟨stack, onto, rfl⟩ := given_eq_ok pushed
    exact ⟨handed, stack, hands, onto, rfl⟩

theorem forks_of_forked (h : forked setup roster = .ok grown) : roster.Forks grown := by
  obtain ⟨handed, stack, hands, pushed, rfl⟩ := forked_eq_ok h
  obtain ⟨-, -, nextId⟩ := Roster.threads_of_change hands
  obtain ⟨earlier, running, later⟩ := Roster.handed_of_change hands
  obtain ⟨zeros, heaped⟩ := running.heaped
  refine ⟨earlier, ⟨_, stack, heaped.trans (.of_push pushed), ?_⟩, ?_, nextId⟩
  · exact congrArg (fun thread : Thread => { thread with stack }) running.eq
  · obtain ⟨later, last, all, others, copy⟩ := exists_append_of_forall₂ later
    obtain ⟨child, rest, hands, none, rfl⟩ := List.forall₂_cons_left_iff.mp copy
    obtain rfl := List.forall₂_nil_left_iff.mp none
    exact ⟨later, child, all, others, hands⟩

/-- The copy finds zero on its stack unless its number is that of a live thread. -/
theorem forked_of_fresh (h : forked setup roster = .ok grown)
    (fresh : roster.contains roster.nextId = false) :
    ∃ stack stack', Stack.push (Step.numberOf roster.nextId) roster.running.stack = .ok () stack ∧
      Stack.push (.int 0) roster.running.stack = .ok () stack' ∧
      grown = { roster with
        running := { roster.running with stack }
        later := roster.later ++ [{ roster.running.copy roster.nextId with stack := stack' }]
        nextId := ⟨roster.nextId.number + 1⟩ } := by
  obtain ⟨handed, stack, hands, pushed, rfl⟩ := forked_eq_ok h
  rw [Roster.change_withCopy fresh] at hands
  cases made : given (.int 0) (roster.running.copy roster.nextId) with
  | error fault =>
      rw [made] at hands
      cases hands
  | ok child =>
      rw [made] at hands
      cases hands
      obtain ⟨stack', onto, rfl⟩ := given_eq_ok made
      exact ⟨stack, stack', pushed, onto, rfl⟩

end Machine

end ObjectMachine
