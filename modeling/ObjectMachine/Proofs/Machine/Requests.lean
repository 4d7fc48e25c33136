import ObjectMachine.Proofs.Machine.Moves

/-!
# What instructions ask of the scheduler

Which request an instruction can make is known from its opcode. Only `exit` and the instructions
that return can end a thread, the latter if no call is open, so that there is no frame to return to.
-/

namespace ObjectMachine

/-- What an instruction may ask of the scheduler, given the thread that executes it. -/
def Instruction.Requests (instruction : Instruction) (thread : Thread) (signal : Signal) : Prop :=
  match instruction.opcode with
  | .ret | .retVal | .retCtor | .leaveFinally =>
    signal = .proceed ∨ signal = .leave ∧ thread.calls = #[]
  | .fork => signal = .fork
  | .join => ∃ id, thread.stack.slots.back?.bind Step.threadOf = some id ∧ signal = .join id
  | .exit => signal = .leave
  | .nice | .sleep => signal = .yield
  | .wait => signal = .proceed ∨ signal = .yield
  | _ => signal = .proceed

/-- A thread ends by its own exit, or by a return when no call is open. -/
theorem Instruction.Requests.of_leave {instruction : Instruction} {thread : Thread}
    (h : instruction.Requests thread .leave) :
    instruction.opcode = .exit ∨
      (instruction.opcode.isReturn = true ∨ instruction.opcode = .leaveFinally) ∧
        thread.calls = #[] := by
  unfold Instruction.Requests at h
  cases hop : instruction.opcode with
  | exit => exact .inl rfl
  | ret | retVal | retCtor | leaveFinally =>
      rw [hop] at h
      obtain asks | ⟨-, bottom⟩ := h
      · cases asks
      · exact .inr ⟨by simp [Opcode.isReturn], bottom⟩
  | wait =>
      rw [hop] at h
      obtain asks | asks := h <;> cases asks
  | join =>
      rw [hop] at h
      obtain ⟨id, -, asks⟩ := h
      cases asks
  | _ =>
      rw [hop] at h
      cases h

/-- Only `fork` asks for a copy. -/
theorem Instruction.Requests.ne_fork {instruction : Instruction} {thread : Thread} {signal : Signal}
    (h : instruction.Requests thread signal) (other : instruction.opcode ≠ .fork) :
    signal ≠ .fork := by
  rintro rfl
  unfold Instruction.Requests at h
  cases hop : instruction.opcode with
  | fork => exact other hop
  | ret | retVal | retCtor | leaveFinally =>
      rw [hop] at h
      obtain asks | ⟨asks, -⟩ := h <;> cases asks
  | wait =>
      rw [hop] at h
      obtain asks | asks := h <;> cases asks
  | join =>
      rw [hop] at h
      obtain ⟨id, -, asks⟩ := h
      cases asks
  | _ =>
      rw [hop] at h
      cases h

namespace Step

variable {setup : Setup} {scene next : Scene} {signal : Signal}

theorem pure_signal {asked : Signal}
    (h : (pure asked : Step Signal) setup scene = .ok signal next) :
    signal = asked :=
  (pure_eq_ok_iff.mp h).1.symm

theorem then_signal {step : Step α} {asked : Signal}
    (h : (do let _ ← step; pure asked : Step Signal) setup scene = .ok signal next) :
    signal = asked := by
  obtain ⟨value, middle, -, asks⟩ := bind_eq_ok_iff.mp h
  exact pure_signal asks

theorem returns_signal {form : ReturnForm} {thread : Thread} {registers : Registers}
    (h : thread.Returns form registers signal) :
    signal = .proceed ∨ signal = .leave ∧ thread.calls = #[] := by
  cases h with
  | deferred intercepted => exact .inl rfl
  | left free bottom => exact .inr ⟨rfl, Array.back?_eq_none_iff.mp bottom⟩
  | popped free top => exact .inl rfl

theorem carriesOut_signal {exit : ExitAction} {thread : Thread} {registers : Registers}
    (h : thread.CarriesOut exit registers signal) :
    signal = .proceed ∨ signal = .leave ∧ thread.calls = #[] := by
  cases exit with
  | fallThrough | branch | rethrow => exact .inl h.2
  | ret | retValue | retConstructor => exact returns_signal h

theorem join_signal (h : join setup scene = .ok signal next) :
    ∃ id, scene.thread.stack.slots.back?.bind threadOf = some id ∧ signal = .join id := by
  obtain ⟨value, popped, taken, rest⟩ := bind_eq_ok_iff.mp h
  obtain ⟨-, back, -⟩ := pop_eq_ok taken
  cases target : threadOf value with
  | none =>
      rw [target] at rest
      obtain ⟨text, middle, -, fails⟩ := bind_eq_ok_iff.mp rest
      exact absurd fails throw_ne_ok
  | some id =>
      rw [target] at rest
      obtain ⟨own, middle, -, asks⟩ := bind_eq_ok_iff.mp rest
      refine ⟨id, by rw [back]; exact target, ?_⟩
      split at asks
      · exact absurd asks throw_bind_ne_ok
      · exact pure_signal asks

theorem wait_signal (h : wait setup scene = .ok signal next) :
    signal = .proceed ∨ signal = .yield := by
  obtain ⟨target, popped, -, named⟩ := bind_eq_ok_iff.mp h
  obtain ⟨key, found, -, looks⟩ := bind_eq_ok_iff.mp named
  obtain ⟨seen, same, -, asks⟩ := bind_eq_ok_iff.mp looks
  split at asks
  · exact .inr (then_signal asks)
  · exact .inl (then_signal asks)

theorem sleep_signal (h : sleep setup scene = .ok signal next) : signal = .yield := by
  obtain ⟨value, popped, -, rest⟩ := bind_eq_ok_iff.mp h
  cases number : value.asInteger? with
  | none =>
      rw [number] at rest
      exact absurd rest throw_ne_ok
  | some millis =>
      rw [number] at rest
      obtain ⟨seen, same, -, sleeps⟩ := bind_eq_ok_iff.mp rest
      exact then_signal sleeps

theorem execute_requests {instruction : Instruction}
    (h : execute instruction setup scene = .ok signal next) :
    instruction.Requests scene.thread signal := by
  have moves := (execute_moves h).2
  unfold execute at h
  unfold Thread.Moves at moves
  unfold Instruction.Requests
  cases hop : instruction.opcode with
  | ret | retCtor =>
      rw [hop] at moves
      exact returns_signal moves
  | retVal =>
      rw [hop] at moves
      obtain ⟨value, returns⟩ := moves
      exact returns_signal returns
  | leaveFinally =>
      rw [hop] at moves
      obtain ⟨record, exit, -, -, carriesOut⟩ := moves
      have asks := carriesOut_signal carriesOut
      exact asks
  | join =>
      rw [hop] at h
      exact join_signal h
  | wait =>
      rw [hop] at h
      exact wait_signal h
  | sleep =>
      rw [hop] at h
      exact sleep_signal h
  | raise =>
      rw [hop] at h
      obtain ⟨exception, popped, -, raises⟩ := bind_eq_ok_iff.mp h
      exact then_signal raises
  | fork | exit | nop =>
      rw [hop] at h
      exact pure_signal h
  | _ =>
      rw [hop] at h
      exact then_signal h

end Step

end ObjectMachine
