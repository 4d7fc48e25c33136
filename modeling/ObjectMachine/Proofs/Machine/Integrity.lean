import ObjectMachine.Proofs.Machine.Endings
import ObjectMachine.Proofs.Machine.Requests
import ObjectMachine.Proofs.Machine.Views
import ObjectMachine.Proofs.Program.References

/-!
# Layouts in runs

The runs of a program, each on the store that the one before has left, keep every object in the
layout of the class that it was created of, and every reference views its object as that class or as
an ancestor, as long as no `super` strays. The classes of the objects are kept beside the run: `new`
adds to them, and nothing else does.
-/

namespace ObjectMachine

structure Machine.Intact (catalog : Catalog) (origins : List ClassId) (machine : Machine) :
    Prop where
  threads : ∀ thread ∈ machine.roster.threads, thread.Intact catalog origins
  store : machine.world.store.Intact catalog origins
  result : machine.result.Faithful catalog origins

structure Outcome.Intact (catalog : Catalog) (origins : List ClassId) (outcome : Outcome) :
    Prop where
  store : outcome.store.Intact catalog origins
  result : ∀ value, outcome.ending = .finished value → value.Faithful catalog origins

theorem Outcome.intact_of_faulted {catalog : Catalog} {origins : List ClassId} {store : Store}
    (h : store.Intact catalog origins) (fault : Fault) (trace : List Frame) :
    Intact catalog origins ⟨.faulted fault trace, store⟩ where
  store := h
  result := by
    intro value finished
    cases finished

def Progress.Intact (catalog : Catalog) (origins : List ClassId) : Progress → Prop
  | .running machine => machine.Intact catalog origins
  | .ended outcome => outcome.Intact catalog origins

def Turn.Intact (catalog : Catalog) (origins : List ClassId) : Turn → Prop
  | .execute machine _ => machine.Intact catalog origins
  | .ended outcome => outcome.Intact catalog origins

/-! ## Scheduling -/

theorem Thread.Idles.intact {catalog : Catalog} {origins : List ClassId} {thread next : Thread}
    (h : next.Idles thread) (intact : thread.Intact catalog origins) :
    next.Intact catalog origins := by
  rw [h.eq]
  exact ⟨intact.stack, intact.handlers⟩

theorem Stack.Heaped.faithful {catalog : Catalog} {origins : List ClassId} {values : List Value}
    {before after : Stack} (h : Heaped values before after)
    (faithful : ∀ value ∈ before.slots, value.Faithful catalog origins)
    (plain : ∀ value ∈ values, value.isObject = false) :
    ∀ value ∈ after.slots, value.Faithful catalog origins := by
  intro value member
  rw [h.slots] at member
  rcases Array.mem_append.mp member with old | pushed
  · exact faithful value old
  · exact Value.faithful_of_not_isObject (plain value (List.mem_toArray.mp pushed))

theorem Thread.Handed.intact {catalog : Catalog} {origins : List ClassId} {nextId : ThreadId}
    {thread next : Thread} (h : thread.Handed nextId next)
    (intact : thread.Intact catalog origins) : next.Intact catalog origins := by
  obtain ⟨zeros, heaped⟩ := h.heaped
  rw [h.eq]
  exact ⟨heaped.faithful intact.stack fun value pushed => (List.eq_of_mem_replicate pushed) ▸ rfl,
    intact.handlers⟩

namespace Machine

variable {catalog : Catalog} {origins : List ClassId} {machine : Machine}

namespace Intact

theorem fail (h : machine.Intact catalog origins) (fault : Fault) :
    (machine.fail fault).Intact catalog origins :=
  Outcome.intact_of_faulted h.store _ _

theorem reschedule (h : machine.Intact catalog origins) :
    machine.reschedule.Intact catalog origins := by
  cases chosen : machine.reschedule with
  | running next =>
      have threads : ∀ thread ∈ next.roster.threads, thread.Intact catalog origins := by
        intro thread member
        obtain ⟨old, found, idles⟩ := idles_of_reschedule chosen member
        exact idles.intact (h.threads old (candidates_subset found))
      unfold Machine.reschedule at chosen
      dsimp only at chosen
      split at chosen
      · cases chosen
        exact ⟨threads, h.store, h.result⟩
      · cases chosen
      · split at chosen <;> cases chosen
  | ended outcome =>
      unfold Machine.reschedule at chosen
      dsimp only at chosen
      split at chosen
      · cases chosen
      · cases chosen
        refine ⟨h.store, ?_⟩
        rintro _ ⟨⟩
        exact h.result
      · split at chosen
        · cases chosen
          exact Outcome.intact_of_faulted h.store _ _
        · cases chosen
          refine ⟨h.store, ?_⟩
          intro value finished
          cases finished

theorem switch (h : machine.Intact catalog origins) : machine.switch.Intact catalog origins := by
  rw [switch_eq]
  split
  · exact reschedule ⟨h.threads, h.store, h.result⟩
  · exact ⟨h.threads, h.store, h.result⟩

/-- Another thread in the place of the running one. -/
theorem withRunning (h : machine.Intact catalog origins) {thread : Thread}
    (intact : thread.Intact catalog origins) :
    Intact catalog origins
      { machine with roster := { machine.roster with running := thread } } where
  threads := by
    intro other member
    rcases Roster.mem_threads.mp member with rfl | kept
    · exact intact
    · exact h.threads other (Roster.mem_threads.mpr (.inr kept))
  store := h.store
  result := h.result

theorem withResult (h : machine.Intact catalog origins) {result : Value}
    (faithful : result.Faithful catalog origins) :
    Intact catalog origins { machine with result } :=
  ⟨h.threads, h.store, faithful⟩

theorem running (h : machine.Intact catalog origins) :
    machine.roster.running.Intact catalog origins :=
  h.threads _ machine.roster.running_mem

theorem setState (h : machine.Intact catalog origins) (state : ThreadState) :
    (machine.setState state).Intact catalog origins :=
  h.withRunning ⟨h.running.stack, h.running.handlers⟩

theorem fetch (h : machine.Intact catalog origins) (setup : Setup) :
    (machine.fetch setup).Intact catalog origins := by
  unfold Machine.fetch
  dsimp only
  split
  · exact h.fail _
  · next instruction _ =>
      have advanced : Thread.Intact catalog origins
          { machine.roster.running with ip := instruction.offset + instruction.size } :=
        ⟨h.running.stack, h.running.handlers⟩
      have moved := h.withRunning advanced
      exact ⟨moved.threads, h.store, h.result⟩

theorem ready (h : machine.Intact catalog origins) (setup : Setup) :
    (machine.ready setup).Intact catalog origins := by
  have switched := h.switch
  unfold Machine.ready
  split
  · next next chosen =>
      rw [chosen] at switched
      exact fetch switched setup
  · next outcome chosen =>
      rw [chosen] at switched
      exact switched

/-! ## Requests -/

/-- A copy of a thread has the references that the thread has. -/
theorem fork (h : machine.Intact catalog origins) (setup : Setup) :
    (machine.fork setup).Intact catalog origins := by
  unfold Machine.fork
  cases forked : forked setup machine.roster with
  | error fault => exact h.fail fault
  | ok roster =>
      have forks := forks_of_forked forked
      refine ⟨fun thread member => ?_, h.store, h.result⟩
      rcases Roster.mem_threads.mp member with rfl | member
      · obtain ⟨zeros, stack, heaped, running⟩ := forks.running
        change roster.running.Intact catalog origins
        rw [running]
        refine ⟨heaped.faithful h.running.stack fun value pushed => ?_, h.running.handlers⟩
        rcases List.mem_append.mp pushed with zero | number
        · exact (List.eq_of_mem_replicate zero) ▸ rfl
        · exact (List.mem_singleton.mp number) ▸ rfl
      · rcases forks.exists_handed member with ⟨old, found, handed⟩ | handed
        · exact handed.intact (h.threads old (Roster.mem_threads.mpr (.inr found)))
        · exact handed.intact ⟨h.running.stack, h.running.handlers⟩

theorem leave (h : machine.Intact catalog origins) : machine.leave.Intact catalog origins := by
  unfold Machine.leave
  dsimp only
  have result : (if machine.roster.running.id = .main then
      if machine.roster.running.stack.depth ≤ 1 then Value.null
      else machine.roster.running.stack.slots.back?.getD .null
    else machine.result).Faithful catalog origins := by
    split
    · split
      · exact Value.faithful_of_not_isObject rfl
      · cases top : machine.roster.running.stack.slots.back? with
        | none => exact Value.faithful_of_not_isObject rfl
        | some value => exact h.running.stack value (Array.mem_of_back? top)
    · exact h.result
  split
  · refine ⟨h.store, ?_⟩
    rintro _ ⟨⟩
    exact result
  · exact ((h.withResult result).setState .exiting).reschedule

theorem answer (h : machine.Intact catalog origins) (setup : Setup) (signal : Signal) :
    (machine.answer setup signal).Intact catalog origins := by
  cases signal with
  | proceed => exact h
  | yield => exact h.reschedule
  | fork => exact h.fork setup
  | leave => exact h.leave
  | join id =>
      unfold Machine.answer
      dsimp only
      split
      · exact (h.setState _).reschedule
      · exact h

/-- What an instruction of the running thread makes of a machine, with more objects. -/
theorem performed (h : machine.Intact catalog origins) {after : Scene} {more : List ClassId}
    (intact : after.Intact catalog (origins ++ more)) :
    (machine.performed after).Intact catalog (origins ++ more) where
  threads := by
    intro thread member
    rcases Roster.mem_threads.mp member with rfl | other
    · exact intact.thread
    · exact (h.threads thread (Roster.mem_threads.mpr (.inr other))).append more
  store := intact.store
  result := h.result.append more

end Intact

/-! ## Steps -/

variable {setup : Setup}

def created (setup : Setup) (machine : Machine) : List ClassId :=
  match machine.ready setup with
  | .ended _ => []
  | .execute current instruction =>
    let scene : Scene := ⟨current.roster.running, current.world⟩
    match Step.execute instruction setup scene with
    | .ok _ next | .error _ next => instruction.created setup scene next

/-- Whether the next step of a machine is a `super` that makes a reference which is not faithful. -/
def Strays (setup : Setup) (origins : List ClassId) (machine : Machine) : Prop :=
  ∃ instruction scene signal next, machine.Executes setup instruction scene signal next ∧
    instruction.opcode = .super ∧ scene.Strays setup.program.catalog origins

theorem not_strays_of_executes? (h : machine.executes? setup = none) :
    ¬ machine.Strays setup origins := by
  rintro ⟨instruction, scene, signal, next, executes, -⟩
  cases h.symm.trans (executes?_eq_some_iff.mpr executes)

theorem strays_iff {instruction : Instruction} {scene next : Scene} {signal : Signal}
    (executes : machine.Executes setup instruction scene signal next) :
    machine.Strays setup origins ↔
      instruction.opcode = .super ∧ scene.Strays setup.program.catalog origins := by
  constructor
  · rintro ⟨_, _, _, _, other, strays⟩
    have same := (executes?_eq_some_iff.mpr executes).symm.trans (executes?_eq_some_iff.mpr other)
    cases same
    exact strays
  · intro strays
    exact ⟨instruction, scene, signal, next, executes, strays⟩

section

variable {facades : List Facade} (laid : setup.program.catalog.Laid facades)
  (honest : ∀ facade ∈ facades, facade.Honest)

include laid honest

/-- **What one step does.** A step from an intact machine leads to an intact part of a run just if
it is no `super` that strays. -/
theorem intact_step_iff (intact : machine.Intact setup.program.catalog origins) :
    (machine.step setup).Intact setup.program.catalog (origins ++ machine.created setup) ↔
      ¬ machine.Strays setup origins := by
  have turn := intact.ready setup
  unfold step created
  cases ready : machine.ready setup with
  | ended outcome =>
      rw [ready] at turn
      have stays : machine.executes? setup = none := by
        unfold executes?
        rw [ready]
      dsimp only
      rw [List.append_nil]
      exact iff_of_true turn (not_strays_of_executes? stays)
  | execute current instruction =>
      rw [ready] at turn
      have scene : Scene.Intact setup.program.catalog origins
          ⟨current.roster.running, current.world⟩ := ⟨turn.running, turn.store⟩
      have reached := Step.execute_reaches laid honest scene instruction
      dsimp only
      unfold perform
      dsimp only
      cases done : Step.execute instruction setup ⟨current.roster.running, current.world⟩ with
      | error fault next =>
          rw [done] at reached
          have stays : machine.executes? setup = none := by
            unfold executes?
            rw [ready]
            dsimp only
            rw [done]
          have ended := Outcome.intact_of_faulted reached fault next.thread.trace
          exact iff_of_true ended (not_strays_of_executes? stays)
      | ok signal next =>
          rw [done] at reached
          rw [strays_iff ⟨⟨current, ready, rfl⟩, done⟩]
          by_cases strays : instruction.opcode = .super ∧ Scene.Strays setup.program.catalog origins
              ⟨current.roster.running, current.world⟩
          · have asks := Step.execute_requests done
            rw [Instruction.Requests, strays.1] at asks
            obtain rfl : signal = .proceed := asks
            refine iff_of_false (fun kept => ?_) (not_not_intro strays)
            exact reached.mp ⟨kept.running, kept.store⟩ strays
          · refine iff_of_true ?_ strays
            exact (turn.performed (reached.mpr strays)).answer setup signal

end

/-- A run starts with its arguments, which are texts. -/
theorem intact_start {store : Store} (h : store.Intact catalog origins) (source : TickSource)
    (args : List String) : (start setup store source args).Intact catalog origins := by
  have texts : ∀ value ∈ (args.map Value.text).toArray, value.Faithful catalog origins := by
    intro value member
    obtain ⟨text, -, rfl⟩ := List.mem_map.mp (List.mem_toArray.mp member)
    exact Value.faithful_of_not_isObject rfl
  have stored := h.withHeap (h.heap.newArray texts)
  unfold start
  dsimp only
  split
  · next stack pushed =>
      refine ⟨?_, stored, Value.faithful_of_not_isObject rfl⟩
      intro thread member
      obtain rfl : thread = _ := by simpa [Roster.threads, Roster.start] using member
      refine ⟨(Stack.Heaped.of_push pushed).faithful ?_ ?_, ?_⟩
      · simp [Thread.start, Stack.empty]
      · exact fun value member => List.mem_singleton.mp member ▸ rfl
      · simp [Thread.start]
  · exact Outcome.intact_of_faulted stored _ _

end Machine

/-! ## Runs -/

namespace Progress

/-- The parts of the runs of a program, with the classes of the objects that have been created. The
first run is on the store of the program's classes, and each later one on what the one before has
left; what has been printed may be taken away at any time. All steps are of a kind. -/
inductive Unfolds (setup : Setup) (kind : List ClassId → Machine → Prop) :
    List ClassId → Progress → Prop
  | first (source : TickSource) (args : List String) :
      Unfolds setup kind [] (Machine.start setup (.ofCatalog setup.program.catalog) source args)
  | again {origins : List ClassId} {outcome : Outcome} (source : TickSource) (args : List String) :
      Unfolds setup kind origins (.ended outcome) →
      Unfolds setup kind origins (Machine.start setup outcome.store source args)
  | print {origins : List ClassId} {progress : Progress} :
      Unfolds setup kind origins progress → Unfolds setup kind origins progress.takePrinted.2
  | step {origins : List ClassId} {machine : Machine} :
      Unfolds setup kind origins (.running machine) → kind origins machine →
      Unfolds setup kind (origins ++ machine.created setup) (machine.step setup)

variable {setup : Setup} {origins : List ClassId} {progress : Progress}

theorem Intact.takePrinted {catalog : Catalog} (h : progress.Intact catalog origins) :
    progress.takePrinted.2.Intact catalog origins := by
  cases progress with
  | running machine => exact ⟨h.threads, h.store.withPrinted "", h.result⟩
  | ended outcome => exact ⟨h.store.withPrinted "", h.result⟩

theorem Unfolds.intact {facades : List Facade} (laid : setup.program.catalog.Laid facades)
    (honest : ∀ facade ∈ facades, facade.Honest)
    (h : progress.Unfolds setup (fun origins machine => ¬ machine.Strays setup origins) origins) :
    progress.Intact setup.program.catalog origins := by
  induction h with
  | first source args =>
      exact Machine.intact_start (Store.intact_ofCatalog laid.toParts) source args
  | again source args _ ih => exact Machine.intact_start (Outcome.Intact.store ih) source args
  | print _ ih => exact ih.takePrinted
  | step _ stays ih => exact (Machine.intact_step_iff laid honest ih).mpr stays

end Progress

namespace Program

/-- **Layouts of objects.** In all runs of a linked program whose counts of fields do not overflow,
every object has the slots of the class that it was created of and every reference views its object
as that class or as an ancestor, and so no native object as another class, as long as no `super`
strays. A `super` strays if the object is not of a class that descends from the parent of the one
whose method is being executed. Then, and only then, a step breaks this. No `super` strays that a
method applies to an object which is seen as the method's class or as one below. -/
theorem objects_keep_layouts {facades : List Facade} {optimize : Bool} {units : List LoadedUnit}
    {setup : Setup} (linked : link facades optimize units = .ok setup.program)
    (honest : ∀ facade ∈ facades, facade.Honest) (grows : setup.program.catalog.Grows) :
    (∀ origins progress,
      Progress.Unfolds setup (fun origins machine => ¬ machine.Strays setup origins)
        origins progress →
      progress.Intact setup.program.catalog origins) ∧
    (∀ (origins : List ClassId) (machine : Machine),
      machine.Intact setup.program.catalog origins →
      ((machine.step setup).Intact setup.program.catalog (origins ++ machine.created setup) ↔
        ¬ machine.Strays setup origins)) ∧
    (∀ (origins : List ClassId) (scene : Scene) (view declaring : ClassId) (id : ObjectId),
      scene.Intact setup.program.catalog origins →
      scene.thread.stack.slots.back? = some (.object view id) →
      scene.thread.frame.declaring? = some declaring →
      setup.program.catalog.Descends view declaring →
      ¬ scene.Strays setup.program.catalog origins) ∧
    ∀ origin view facade, (setup.program.catalog.get origin).facade = some facade →
      setup.program.catalog.Descends origin view → view = origin := by
  have laid := laid_of_link linked grows
  refine ⟨?_, ?_, ?_, ?_⟩
  · intro origins progress unfolds
    exact unfolds.intact laid honest
  · intro origins machine intact
    exact Machine.intact_step_iff laid honest intact
  · intro origins scene view declaring id intact top own descends
    exact Step.not_strays_of_descends intact top own descends
  · intro origin view facade native descends
    exact laid.eq_of_native native descends

end Program

/-! ## Computed runs -/

namespace Machine

def stays (setup : Setup) (origins : List ClassId) (machine : Machine) : Bool :=
  match machine.executes? setup with
  | none => true
  | some (instruction, scene, _, _) =>
    instruction.opcode != .super ||
      match scene.thread.stack.slots.back?, scene.thread.frame.declaring? with
      | some (.object _ id), some declaring =>
        match (setup.program.catalog.get declaring).parent, origins[id.index]? with
        | some parent, some origin => setup.program.catalog.isSubclass origin parent
        | _, _ => true
      | _, _ => true

theorem not_strays_of_stays {setup : Setup} {origins : List ClassId} {machine : Machine}
    (h : machine.stays setup origins = true) : ¬ machine.Strays setup origins := by
  rintro ⟨instruction, scene, signal, next, executes, views, strays⟩
  obtain ⟨view, id, declaring, parent, origin, top, own, above, created, apart⟩ := strays
  simp only [stays, executes?_eq_some_iff.mpr executes, top, own, above, created, views] at h
  exact apart (Catalog.descends_of_isSubclass (by simpa using h))

end Machine

namespace Progress

/-- A run after at most so many instructions, with the classes of the objects that have been
created, if each step passes a test. -/
def unfold (setup : Setup) (test : List ClassId → Machine → Bool) :
    Nat → List ClassId → Progress → Option (List ClassId × Progress)
  | 0, origins, progress => some (origins, progress)
  | _, origins, .ended outcome => some (origins, .ended outcome)
  | count + 1, origins, .running machine =>
    if test origins machine then
      unfold setup test count (origins ++ machine.created setup) (machine.step setup)
    else none

theorem Unfolds.of_unfold {setup : Setup} {kind : List ClassId → Machine → Prop}
    {test : List ClassId → Machine → Bool} {count : Nat} {origins last : List ClassId}
    {progress reached : Progress}
    (sound : ∀ origins machine, test origins machine = true → kind origins machine)
    (start : progress.Unfolds setup kind origins)
    (h : unfold setup test count origins progress = some (last, reached)) :
    reached.Unfolds setup kind last := by
  induction count generalizing origins progress with
  | zero =>
      cases h
      exact start
  | succ count ih =>
      cases progress with
      | ended outcome =>
          cases h
          exact start
      | running machine =>
          rw [unfold] at h
          split at h
          · next passes => exact ih (start.step (sound origins machine passes)) h
          · cases h

def unfoldsTo (setup : Setup) (test : List ClassId → Machine → Bool) (count : Nat)
    (check : List ClassId → Outcome → Bool) : Bool :=
  match unfold setup test count [] (Program.startOf setup) with
  | some (origins, .ended outcome) => check origins outcome
  | _ => false

theorem exists_of_unfoldsTo {setup : Setup} {kind : List ClassId → Machine → Prop}
    {test : List ClassId → Machine → Bool} {count : Nat} {check : List ClassId → Outcome → Bool}
    (sound : ∀ origins machine, test origins machine = true → kind origins machine)
    (h : unfoldsTo setup test count check = true) :
    ∃ origins outcome,
      Unfolds setup kind origins (.ended outcome) ∧ check origins outcome = true := by
  unfold unfoldsTo at h
  split at h
  · next origins outcome reached =>
      exact ⟨origins, outcome, .of_unfold sound (.first _ _) reached, h⟩
  · cases h

end Progress

namespace Program

/-- A module whose method `set` writes a field of the parent class through `super`. The class of the
main method has the same parent. -/
def layoutUnits (main : Bytes) : List LoadedUnit :=
  let app : List MetaRecord := [
    .moduleHeader "app" 3 1 1 0,
    .classHeader ⟨"A", "", 0, 1, 0, .plain⟩,
    .field ⟨"x", 1, false⟩,
    .classHeader ⟨"B", "A", 0, 0, 1, .plain⟩,
    .method ⟨"set", 1, 0, true, 0, 0, false⟩,
    .classHeader ⟨"X", "", 0, 0, 0, .plain⟩,
    .classHeader ⟨"Log", "", 0, 0, 0, .facade "om.Console" ""⟩,
    .classHeader ⟨"Main", "A", 0, 0, 1, .plain⟩,
    .method ⟨"main", 1, 13, true, 0, 0, true⟩,
    .classRef "B" 1,
    .classRef "X" 2,
    .classRef "Log" 3,
    .fieldAccess "x" 1,
    .methodCall "set" 0 1,
    .finish]
  let set : Bytes := [
    0x13, 0,           -- loadlocal
    0x30,              -- super
    0x0a, 5, 0, 0, 0,  -- pushint
    0x1c, 1,           -- storefield
    0x13, 0,           -- loadlocal
    0x32]              -- retval
  [⟨MetaRecord.encodeAll app, set ++ main⟩] |>.filterMap LoadedUnit.verified?

def ofLayoutUnits? (main : Bytes) : Option Setup :=
  (link [Console.facade] true (layoutUnits main)).toOption.map fun program => ⟨program, {}⟩

/-- The main method creates an object of a native class, and one of `B` whose field is set. -/
def setsField : Bytes := [
  0x22, 3,  -- new
  0x01,     -- pop
  0x22, 1,  -- new
  0x25, 1,  -- call
  0x32]     -- retval

/-- The main method sees an object of a class without fields as one of the parent of its own class
and sets a field of that. -/
def straysToField : Bytes := [
  0x22, 2,           -- new
  0x02,              -- dup
  0x30,              -- super
  0x0a, 5, 0, 0, 0,  -- pushint
  0x1c, 1,           -- storefield
  0x32]              -- retval

theorem linked_of_layoutUnits {main : Bytes} {setup : Setup}
    (h : ofLayoutUnits? main = some setup) :
    link [Console.facade] true (layoutUnits main) = .ok setup.program := by
  unfold ofLayoutUnits? at h
  cases linked : link [Console.facade] true (layoutUnits main) with
  | error fault =>
      rw [linked] at h
      cases h
  | ok program =>
      rw [linked] at h
      cases h
      rfl

theorem honest_of_mem_console : ∀ facade ∈ [Console.facade], facade.Honest := by
  intro facade member
  rw [List.mem_singleton.mp member]
  exact Console.honest

/-- The one `super` of this run is on an object of a class that descends from the parent, and at the
end the object has the one slot that its class counts. -/
theorem objects_keep_layouts_setsField :
    ∃ setup origins outcome,
      link [Console.facade] true (layoutUnits setsField) = .ok setup.program ∧
      setup.program.catalog.Grows ∧
      Progress.Unfolds setup (fun origins machine => ¬ machine.Strays setup origins) origins
        (.ended outcome) ∧
      origins.map setup.program.catalog.name = ["app.Log", "app.B"] ∧
      outcome.store.heap.objects = #[.native "om.Console" #[.text ""], .fields #[.int 5]] ∧
      Progress.Intact setup.program.catalog origins (.ended outcome) := by
  have runs : (ofLayoutUnits? setsField).any (fun setup =>
      decide setup.program.catalog.Grows &&
        Progress.unfoldsTo setup (Machine.stays setup) 20 fun origins outcome =>
          decide (origins.map setup.program.catalog.name = ["app.Log", "app.B"] ∧
            outcome.store.heap.objects =
              #[.native "om.Console" #[.text ""], .fields #[.int 5]])) := by
    decide +kernel
  obtain ⟨setup, made, runs⟩ := (Option.any_eq_true _ _).mp runs
  obtain ⟨grows, ends⟩ := Bool.and_eq_true_iff.mp runs
  have grows := of_decide_eq_true grows
  obtain ⟨origins, outcome, unfolds, found⟩ :=
    Progress.exists_of_unfoldsTo (fun _ _ => Machine.not_strays_of_stays) ends
  obtain ⟨names, objects⟩ := of_decide_eq_true found
  have linked := linked_of_layoutUnits made
  obtain ⟨keeps, -, -⟩ := objects_keep_layouts linked honest_of_mem_console grows
  exact ⟨setup, origins, outcome, linked, grows, unfolds, names, objects, keeps _ _ unfolds⟩

/-- A `super` makes an object of a class without fields seen as one with a field, and the write of
that field gives it a slot. -/
theorem super_breaks_layout :
    ¬ ∀ (facades : List Facade) (optimize : Bool) (units : List LoadedUnit) (setup : Setup),
      link facades optimize units = .ok setup.program → (∀ facade ∈ facades, facade.Honest) →
      setup.program.catalog.Grows →
      ∀ (origins : List ClassId) (progress : Progress),
        progress.Unfolds setup (fun _ _ => True) origins →
        progress.Intact setup.program.catalog origins := by
  intro keeps
  have runs : (ofLayoutUnits? straysToField).any (fun setup =>
      decide (setup.program.catalog.Grows ∧
          (setup.program.catalog.get ⟨2⟩).instanceFieldCount = 0) &&
        Progress.unfoldsTo setup (fun _ _ => true) 20 fun origins outcome =>
          decide (origins = [⟨2⟩] ∧ outcome.store.heap.objects = #[.fields #[.int 5]])) := by
    decide +kernel
  obtain ⟨setup, made, runs⟩ := (Option.any_eq_true _ _).mp runs
  obtain ⟨counts, ends⟩ := Bool.and_eq_true_iff.mp runs
  obtain ⟨grows, fieldless⟩ := of_decide_eq_true counts
  obtain ⟨origins, outcome, unfolds, found⟩ :=
    Progress.exists_of_unfoldsTo (fun _ _ _ => trivial) ends
  obtain ⟨rfl, objects⟩ := of_decide_eq_true found
  have intact := keeps _ _ _ _ (linked_of_layoutUnits made) honest_of_mem_console grows _ _ unfolds
  have size := (intact.store.heap.objects 0 ⟨2⟩ (.fields #[.int 5]) rfl (by rw [objects]; rfl)).2.1
  rw [fieldless] at size
  cases size

end Program

end ObjectMachine
