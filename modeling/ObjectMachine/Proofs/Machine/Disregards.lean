import ObjectMachine.Proofs.Machine.Ordinary

/-!
# What instructions take no note of

Apart from its thread and the store an instruction can see which monitors are held and what the
clock shows. Only `wait` and `signal` look at the monitors, and only `sleep` looks at the clock. Any
other instruction does the same whatever they are, and so leaves them as they are.
-/

namespace ObjectMachine

namespace Scene

def under (held? : Option (List MonitorKey)) (clock : Clock) (scene : Scene) : Scene :=
  { scene with world := { scene.world with held := held?.getD scene.world.held, clock } }

variable (scene : Scene) (held? : Option (List MonitorKey)) (clock : Clock)

@[simp] theorem under_thread : (scene.under held? clock).thread = scene.thread := rfl

@[simp] theorem under_store : (scene.under held? clock).world.store = scene.world.store := rfl

@[simp] theorem under_clock : (scene.under held? clock).world.clock = clock := rfl

@[simp] theorem under_held :
    (scene.under held? clock).world.held = held?.getD scene.world.held := rfl

/-- A scene is under its own clock. -/
theorem under_own : scene.under (some scene.world.held) scene.world.clock = scene := rfl

end Scene

namespace Step

def resultUnder (held? : Option (List MonitorKey)) (clock : Clock) :
    EStateM.Result Fault Scene α → EStateM.Result Fault Scene α
  | .ok answer next => .ok answer (next.under held? clock)
  | .error fault next => .error fault (next.under held? clock)

/-- Whether a part of an instruction does the same under another clock, and with other held
monitors if some are given. -/
def Disregards (held? : Option (List MonitorKey)) (clock : Clock) (step : Step α) : Prop :=
  ∀ setup scene,
    step setup (scene.under held? clock) = resultUnder held? clock (step setup scene)

namespace Disregards

variable {held? : Option (List MonitorKey)} {clock : Clock}

theorem of_pure (value : α) : Disregards held? clock (pure value) :=
  fun _ _ => rfl

theorem of_throw (fault : Fault) : Disregards held? clock (throw fault : Step α) :=
  fun _ _ => rfl

theorem bind {step : Step α} {following : α → Step β} (h : Disregards held? clock step)
    (hn : ∀ value, Disregards held? clock (following value)) :
    Disregards held? clock (step >>= following) := by
  intro setup scene
  change EStateM.bind (step setup) (fun value => following value setup) (scene.under held? clock) =
    resultUnder held? clock (EStateM.bind (step setup) (fun value => following value setup) scene)
  unfold EStateM.bind
  rw [h setup scene]
  cases step setup scene with
  | ok value middle => exact hn value setup middle
  | error fault middle => rfl

/-- What follows a look at the scene may look at its thread and its store. -/
theorem of_get_bind {following : Scene → Step α}
    (same : ∀ scene, following (scene.under held? clock) = following scene)
    (h : ∀ scene, Disregards held? clock (following scene)) :
    Disregards held? clock (get >>= following) := by
  intro setup scene
  change following (scene.under held? clock) setup (scene.under held? clock) =
    resultUnder held? clock (following scene setup scene)
  rw [same]
  exact h scene setup scene

theorem of_onStore (change : Store → Store) : Disregards held? clock (onStore change) :=
  fun _ _ => rfl

theorem of_native (facade : Facade) (operation : Store → Except String (α × Store)) :
    Disregards held? clock (native facade operation) := by
  refine of_get_bind (fun _ => rfl) fun scene => ?_
  dsimp only
  split
  · exact (of_onStore _).bind fun _ => of_pure _
  · exact of_throw _

theorem of_onStack (operation : Stack.Operation α) :
    Disregards held? clock (onStack operation) := by
  intro setup scene
  unfold onStack
  dsimp only [Scene.under_thread]
  cases operation scene.thread.stack <;> rfl

/-- Ordinary parts look at the thread and the store only. -/
theorem of_ordinary {step : Step α} (h : Ordinary step) : Disregards held? clock step := by
  induction h with
  | of_pure value => exact of_pure value
  | of_throw fault => exact of_throw fault
  | bind _ _ ih ihn => exact ih.bind ihn
  | of_read => exact fun _ _ => rfl
  | of_ofThread part => exact fun _ _ => rfl
  | of_ofStore part => exact fun _ _ => rfl
  | of_onThread change => exact fun _ _ => rfl
  | of_onStack operation => exact of_onStack operation
  | of_change change => exact fun _ _ => rfl
  | of_native facade operation => exact of_native facade operation

theorem of_pop : Disregards held? clock pop :=
  of_onStack _

theorem of_initializeClass (id : ClassId) (resumeIp : Nat) :
    Disregards held? clock (initializeClass id resumeIp) := by
  refine of_get_bind (fun _ => rfl) fun scene => ?_
  split
  · exact of_pure _
  · refine (of_ordinary .of_program).bind fun program => (of_onStore _).bind fun _ =>
      (of_ordinary (.of_storeConstants id _)).bind fun _ => ?_
    split
    · exact of_pure _
    · exact (of_ordinary (.of_push _)).bind fun _ =>
        (of_ordinary (.of_enterFrame _ _ _ _ _ _)).bind fun _ => of_pure _

theorem of_loadClass (index : UInt32) (offset : Nat) :
    Disregards held? clock (loadClass index offset) := by
  refine (of_ordinary .of_moduleRecord).bind fun record =>
    (of_ordinary (.of_require _)).bind fun id => (of_initializeClass id _).bind fun entered => ?_
  split
  · exact of_pure _
  · exact of_ordinary (.of_push _)

/-! ## Threads and monitors -/

/-- A part that asks nothing of the scheduler. -/
theorem proceed {step : Step Unit} (h : Disregards held? clock step) :
    Disregards held? clock (do step; pure Signal.proceed) :=
  h.bind fun _ => of_pure _

/-- Which monitors are held matters to `wait`, but not what the clock shows. -/
theorem of_wait : Disregards none clock wait := by
  refine of_pop.bind fun target => (of_ordinary (.of_monitorKey _ target)).bind fun key =>
    of_get_bind (fun _ => rfl) fun scene => ?_
  split
  · exact of_ordinary ((Ordinary.of_onThread _).bind fun _ => .of_pure _)
  · exact fun _ _ => rfl

theorem of_signal : Disregards none clock signal := by
  refine of_pop.bind fun target => (of_ordinary (.of_monitorKey _ target)).bind fun key =>
    of_get_bind (fun _ => rfl) fun scene => ?_
  split
  · exact fun _ _ => rfl
  · exact of_ordinary ((Ordinary.of_describe _).bind fun _ => .of_throw _)

/-- All instructions but `sleep` take no note of the clock, and all others but `wait` and `signal`
take no note of the monitors that are held. -/
theorem of_execute {instruction : Instruction} (awake : instruction.opcode ≠ .sleep)
    (free : held? = none ∨ instruction.opcode ≠ .wait ∧ instruction.opcode ≠ .signal) :
    Disregards held? clock (execute instruction) := by
  unfold execute
  dsimp only
  cases hop : instruction.opcode with
  | sleep => exact absurd hop awake
  | wait =>
      obtain rfl | ⟨other, -⟩ := free
      · exact of_wait
      · exact absurd hop other
  | signal =>
      obtain rfl | ⟨-, other⟩ := free
      · exact proceed of_signal
      · exact absurd hop other
  | loadClass => exact proceed (of_loadClass _ _)
  | _ =>
      have ordinary : Ordinary (execute instruction) := .of_execute (by rw [hop]; rfl)
      unfold execute at ordinary
      rw [hop] at ordinary
      exact of_ordinary ordinary

end Disregards

variable {setup : Setup} {scene next : Scene}

/-- What an instruction takes no note of, it leaves as it is. -/
theorem Disregards.surroundings {step : Step α}
    (h : ∀ held? clock, Disregards held? clock step) {answer : α}
    (hr : step setup scene = .ok answer next) :
    next.world.held = scene.world.held ∧ next.world.clock = scene.world.clock := by
  have same := h (some scene.world.held) scene.world.clock setup scene
  rw [scene.under_own, hr] at same
  have kept : next = next.under (some scene.world.held) scene.world.clock := by
    simpa [resultUnder] using same
  constructor
  · rw [kept, Scene.under_held, Option.getD_some]
  · rw [kept, Scene.under_clock]

/-- An instruction does the same under another clock. -/
theorem execute_under {instruction : Instruction} (awake : instruction.opcode ≠ .sleep)
    (clock : Clock) :
    execute instruction setup (scene.under none clock) =
      resultUnder none clock (execute instruction setup scene) :=
  Disregards.of_execute awake (.inl rfl) setup scene

end Step

end ObjectMachine
