import ObjectMachine.Machine.Clock

/-!
# Clocks

A clock that counts instructions is the same whenever it is looked at, and an instruction moves it
by a tick or not at all. Of a clock that follows the time of day no more is known than that it is
waited for.
-/

namespace ObjectMachine

namespace Clock

variable {clock : Clock} {every tick : UInt64}

def noted (clock : Clock) : Clock :=
  { clock with due := false }

@[simp] theorem noted_now (clock : Clock) : clock.noted.now = clock.now := rfl

/-- Whether the next instruction completes a tick. -/
def completes (clock : Clock) : Bool :=
  match clock.source with
  | .steps every => max every 1 ≤ clock.steps + 1
  | .wall _ _ => false

/-- Looking at a clock that counts instructions changes nothing. -/
theorem look_of_counts (counts : clock.source = .steps every) : clock.look = clock := by
  unfold look
  rw [counts]

theorem step_eq (counts : clock.source = .steps every) :
    clock.step =
      if clock.completes then { clock with now := clock.now + 1, steps := 0, due := true }
      else { clock with steps := clock.steps + 1 } := by
  unfold step completes
  rw [counts]
  simp only [decide_eq_true_eq]

theorem step_source (counts : clock.source = .steps every) :
    clock.step.source = .steps every := by
  rw [step_eq counts]
  split <;> exact counts

theorem step_due (counts : clock.source = .steps every) (settled : clock.due = false) :
    clock.step.due = clock.completes := by
  rw [step_eq counts]
  split
  · next full => exact full.symm
  · next room => exact settled.trans (Bool.eq_false_iff.mpr room).symm

theorem step_now (counts : clock.source = .steps every) :
    clock.step.now = clock.now + if clock.completes then 1 else 0 := by
  rw [step_eq counts]
  split
  · rfl
  · exact (UInt64.add_zero _).symm

/-- How an instruction moves the clock. -/
theorem toNat_step_now (counts : clock.source = .steps every) :
    clock.step.now.toNat = (clock.now.toNat + clock.completes.toNat) % UInt64.size := by
  rw [step_now counts, UInt64.toNat_add]
  cases clock.completes <;> rfl

theorem idleUntil_of_lt (counts : clock.source = .steps every) (late : clock.now < tick) :
    clock.idleUntil tick = { clock with now := tick, steps := 0 } := by
  have later : max clock.now tick = tick := if_pos (UInt64.le_of_lt late)
  unfold idleUntil
  rw [counts, later]

/-- Whatever makes a clock tick, it is waited for. -/
theorem le_idleUntil (clock : Clock) (tick : UInt64) :
    tick ≤ (clock.idleUntil tick).now := by
  have reached (now : UInt64) : tick ≤ max now tick := by
    change tick ≤ if now ≤ tick then tick else now
    split
    · exact UInt64.le_refl tick
    · next before => exact UInt64.le_of_lt (UInt64.not_le.mp before)
  unfold idleUntil
  split
  · exact reached _
  · exact reached _

end Clock

end ObjectMachine
