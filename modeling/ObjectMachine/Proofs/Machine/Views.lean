import ObjectMachine.Proofs.Machine.Layouts

/-!
# What objects are seen as

Two instructions make references: `new` to the object that it creates, and `super` to the one that
it finds on the stack. The class that `super` makes an object seen as is the parent of the one whose
code is being executed, whatever the object is. The reference is faithful just if the class that the
object was created of descends from that parent.
-/

namespace ObjectMachine

namespace Step

variable {setup : Setup} {origins : List ClassId} {scene middle next : Scene}

section

variable {facade : Facade} {operation : Store → Except String (α × Store)}

theorem native_of_ok {answer : α} {after : Store}
    (h : operation scene.world.store = .ok (answer, after)) :
    native facade operation setup scene =
      .ok answer { scene with world := { scene.world with store := after } } := by
  unfold native
  rw [bind_of_ok (get_eq_ok_iff.mpr ⟨rfl, rfl⟩), h]
  rfl

theorem native_of_error {problem : String} (h : operation scene.world.store = .error problem) :
    native facade operation setup scene = .error (.facade facade.typeName problem) scene := by
  unfold native
  rw [bind_of_ok (get_eq_ok_iff.mpr ⟨rfl, rfl⟩), h]
  rfl

end

theorem onStack_error_world {operation : Stack.Operation α} {fault : Fault}
    (h : onStack operation setup scene = .error fault next) : next.world = scene.world := by
  unfold onStack at h
  dsimp only at h
  cases done : operation scene.thread.stack with
  | ok answer stack =>
      rw [done] at h
      cases h
  | error fault stack =>
      rw [done] at h
      cases h
      rfl

end Step

/-- Whether `super` would make a reference that is not faithful: the object on top of the stack is
of a class that does not descend from the parent of the one whose code is being executed. -/
def Scene.Strays (catalog : Catalog) (origins : List ClassId) (scene : Scene) : Prop :=
  ∃ view id declaring parent origin,
    scene.thread.stack.slots.back? = some (.object view id) ∧
    scene.thread.frame.declaring? = some declaring ∧
    (catalog.get declaring).parent = some parent ∧
    origins[id.index]? = some origin ∧ ¬ catalog.Descends origin parent

/-- The classes of the objects that an instruction creates: `new` names them. -/
def Instruction.created (setup : Setup) (instruction : Instruction) (before after : Scene) :
    List ClassId :=
  match instruction.opcode,
    (setup.program.moduleOf before.thread.moduleId).classRef instruction.index with
  | .new, .ok origin =>
    List.replicate
      (after.world.store.heap.objects.size - before.world.store.heap.objects.size) origin
  | _, _ => []

theorem Instruction.created_of_ne {setup : Setup} {instruction : Instruction} {before after : Scene}
    (h : instruction.opcode ≠ .new) : instruction.created setup before after = [] := by
  unfold created
  split
  · next new _ => exact absurd new h
  · rfl

/-- New objects that are all of the class that `new` names. -/
theorem Instruction.created_of_new {setup : Setup} {instruction : Instruction}
    {before after : Scene} {catalog : Catalog} {origins more : List ClassId}
    (h : instruction.opcode = .new)
    (named : ∀ origin ∈ more,
      (setup.program.moduleOf before.thread.moduleId).classRef instruction.index = .ok origin)
    (heap : before.world.store.heap.Intact catalog origins)
    (heap' : after.world.store.heap.Intact catalog (origins ++ more)) :
    instruction.created setup before after = more := by
  have count : after.world.store.heap.objects.size - before.world.store.heap.objects.size =
      more.length := by
    rw [heap.size, heap'.size, List.length_append]
    omega
  unfold created
  rw [h, count]
  cases found : (setup.program.moduleOf before.thread.moduleId).classRef instruction.index with
  | ok origin =>
      symm
      rw [List.eq_replicate_iff]
      refine ⟨rfl, fun other member => ?_⟩
      exact Except.ok.inj ((named other member).symm.trans found)
  | error fault =>
      cases more with
      | nil => rfl
      | cons other rest => cases (named other List.mem_cons_self).symm.trans found

namespace Step

variable {setup : Setup} {origins : List ClassId} {scene : Scene}

/-- Whether a part of an instruction comes to an intact scene just if something is the case, or
fails with an intact store. -/
def Reaches (catalog : Catalog) (origins : Scene → List ClassId) (good : Prop) :
    EStateM.Result Fault Scene α → Prop
  | .ok _ next => next.Intact catalog (origins next) ↔ good
  | .error _ next => next.world.store.Intact catalog (origins next)

theorem Keeps.reaches {step : Step α} (h : Keeps setup origins step)
    (intact : scene.Intact setup.program.catalog origins) :
    Reaches setup.program.catalog (fun _ => origins) True (step setup scene) := by
  have kept := h scene intact
  cases done : step setup scene with
  | ok answer next =>
      rw [done] at kept
      exact iff_of_true kept.2 trivial
  | error fault next =>
      rw [done] at kept
      exact kept

theorem Reaches.proceed {catalog : Catalog} {origins : Scene → List ClassId} {good : Prop}
    {step : Step Unit} (h : Reaches catalog origins good (step setup scene)) :
    Reaches catalog origins good ((do step; pure Signal.proceed : Step Signal) setup scene) := by
  cases done : step setup scene with
  | ok answer next =>
      rw [bind_of_ok done]
      rw [done] at h
      exact h
  | error fault next =>
      rw [bind_of_error done]
      rw [done] at h
      exact h

/-- A value on the stack is as good as the scene that it leads to. -/
theorem push_reaches (intact : scene.Intact setup.program.catalog origins) {value : Value}
    {good : Prop} (fits : value.Faithful setup.program.catalog origins ↔ good) :
    Reaches setup.program.catalog (fun _ => origins) good (push value setup scene) := by
  cases pushed : push value setup scene with
  | error fault next =>
      show next.world.store.Intact setup.program.catalog origins
      rw [onStack_error_world pushed]
      exact intact.store
  | ok answer next =>
      rw [← fits]
      constructor
      · intro kept
        obtain ⟨stack, onto, rfl⟩ := onStack_eq_ok_iff.mp pushed
        obtain ⟨-, rfl⟩ := Stack.push_eq_ok onto
        exact kept.thread.stack value (Array.mem_push.mpr (.inr rfl))
      · intro faithful
        have keeps := Yields.of_push faithful scene intact
        rw [pushed] at keeps
        exact keeps.2

/-- `super` goes astray only over an object. -/
theorem not_strays_of_top {value : Value} {catalog : Catalog}
    (top : scene.thread.stack.slots.back? = some value) (plain : value.isObject = false) :
    ¬ scene.Strays catalog origins := by
  rintro ⟨view, id, declaring, parent, origin, object, -⟩
  cases top.symm.trans object
  cases plain

/-- `super` does not go astray over an object that is seen as a class which descends from the one
whose code is being executed. -/
theorem not_strays_of_descends {catalog : Catalog} (intact : scene.Intact catalog origins)
    {view declaring : ClassId} {id : ObjectId}
    (top : scene.thread.stack.slots.back? = some (.object view id))
    (own : scene.thread.frame.declaring? = some declaring)
    (descends : catalog.Descends view declaring) : ¬ scene.Strays catalog origins := by
  rintro ⟨_, _, _, parent, origin, top', own', above, created, apart⟩
  cases top.symm.trans top'
  cases own.symm.trans own'
  obtain ⟨other, there, seen⟩ :=
    Value.faithful_object_iff.mp (intact.thread.stack _ (Array.mem_of_back? top))
  cases there.symm.trans created
  exact apart ((seen.trans descends).tail above)

theorem asParent_reaches (intact : scene.Intact setup.program.catalog origins) :
    Reaches setup.program.catalog (fun _ => origins)
      (¬ scene.Strays setup.program.catalog origins) (asParent setup scene) := by
  have popped := Yields.of_pop scene intact
  unfold asParent
  cases done : pop setup scene with
  | error fault middle =>
      rw [bind_of_error done]
      rw [done] at popped
      exact popped
  | ok value middle =>
      rw [bind_of_ok done]
      rw [done] at popped
      obtain ⟨faithful, kept⟩ := popped
      obtain ⟨stack, taken, same⟩ := onStack_eq_ok_iff.mp done
      obtain ⟨-, top, -⟩ := Stack.pop_eq_ok taken
      have frame : middle.thread.frame = scene.thread.frame := by rw [same]
      rw [bind_of_ok (program_eq_ok_iff.mpr ⟨rfl, rfl⟩), ofThread_bind, frame]
      cases own : scene.thread.frame.declaring? with
      | none => exact kept.store
      | some declaring =>
          dsimp only
          cases above : (setup.program.catalog.get declaring).parent with
          | none => exact kept.store
          | some parent =>
              cases value with
              | null => exact kept.store
              | classRef id =>
                  have plain : (Value.classRef parent).isObject = false := rfl
                  exact push_reaches kept (iff_of_true (Value.faithful_of_not_isObject plain)
                    (not_strays_of_top top rfl))
              | object view id =>
                  apply push_reaches kept
                  obtain ⟨origin, created, -⟩ := Value.faithful_object_iff.mp faithful
                  constructor
                  · rintro seen ⟨_, _, _, _, _, top', own', above', created', strays⟩
                    cases top.symm.trans top'
                    cases own.symm.trans own'
                    cases above.symm.trans above'
                    obtain ⟨other, there, descends⟩ := Value.faithful_object_iff.mp seen
                    cases there.symm.trans created'
                    exact strays descends
                  · intro stays
                    refine Value.faithful_object_iff.mpr ⟨origin, created, ?_⟩
                    by_contra strays
                    exact stays
                      ⟨view, id, declaring, parent, origin, top, own, above, created, strays⟩
              | _ => exact kept.store

section

variable {facades : List Facade} (laid : setup.program.catalog.Laid facades)
  (honest : ∀ facade ∈ facades, facade.Honest)

include laid honest

/-- Where `new` leads to there may be one more object, of the class that it names. -/
theorem new_reaches (intact : scene.Intact setup.program.catalog origins) (index : UInt32) :
    ∃ more, (∀ origin ∈ more,
      (setup.program.moduleOf scene.thread.moduleId).classRef index = .ok origin) ∧
      Reaches setup.program.catalog (fun _ => origins ++ more) True (new index setup scene) := by
  have record : moduleRecord setup scene =
      .ok (setup.program.moduleOf scene.thread.moduleId) scene := rfl
  unfold new
  rw [bind_of_ok record]
  cases found : (setup.program.moduleOf scene.thread.moduleId).classRef index with
  | error fault =>
      refine ⟨[], by simp, ?_⟩
      rw [List.append_nil]
      exact intact.store
  | ok id =>
      have given : require (.ok id) setup scene = .ok id scene := rfl
      rw [bind_of_ok given, bind_of_ok (program_eq_ok_iff.mpr ⟨rfl, rfl⟩)]
      dsimp only
      have thread := intact.thread.append [id]
      cases native : (setup.program.catalog.get id).facade with
      | none =>
          obtain ⟨store, seen⟩ := intact.store.newFields native
          exact ⟨[id], by simp, (Yields.of_push seen).reaches ⟨thread, store⟩⟩
      | some facade =>
          dsimp only
          have known := honest facade (laid.native id facade native)
          cases done : scene.world.store.newNative facade with
          | error problem =>
              refine ⟨[], by simp, ?_⟩
              rw [bind_of_error (native_of_error done), List.append_nil]
              exact intact.store
          | ok made =>
              obtain ⟨store, seen⟩ := intact.store.newNative known native done
              rw [bind_of_ok (native_of_ok done)]
              exact ⟨[id], by simp, (Yields.of_push seen).reaches ⟨thread, store⟩⟩

/-- **What one instruction does.** An instruction leaves every object in the layout of the class
that it was created of and all references faithful, unless it is a `super` that strays. Whatever the
instruction is, the store is intact if it fails. -/
theorem execute_reaches (intact : scene.Intact setup.program.catalog origins)
    (instruction : Instruction) :
    Reaches setup.program.catalog
      (fun next => origins ++ instruction.created setup scene next)
      (¬ (instruction.opcode = .super ∧ scene.Strays setup.program.catalog origins))
      (execute instruction setup scene) := by
  by_cases creates : instruction.opcode = .new
  · have calm : ¬ (instruction.opcode = .super ∧ scene.Strays setup.program.catalog origins) := by
      simp [creates]
    have same : execute instruction setup scene =
        (do new instruction.index; pure Signal.proceed : Step Signal) setup scene := by
      unfold execute
      rw [creates]
    obtain ⟨more, named, reached⟩ := new_reaches laid honest intact instruction.index
    have reached := reached.proceed
    rw [← same] at reached
    cases done : execute instruction setup scene with
    | ok signal next =>
        rw [done] at reached
        have kept := reached.mpr trivial
        have made := Instruction.created_of_new creates named intact.store.heap kept.store.heap
        refine iff_of_true ?_ calm
        show next.Intact _ (origins ++ instruction.created setup scene next)
        rw [made]
        exact kept
    | error fault next =>
        rw [done] at reached
        have made := Instruction.created_of_new creates named intact.store.heap reached.heap
        show next.world.store.Intact _ (origins ++ instruction.created setup scene next)
        rw [made]
        exact reached
  · have none :
        (fun next => origins ++ instruction.created setup scene next) = fun _ => origins := by
      funext next
      rw [Instruction.created_of_ne creates, List.append_nil]
    rw [none]
    by_cases views : instruction.opcode = .super
    · have same : execute instruction setup scene =
          (do asParent; pure Signal.proceed : Step Signal) setup scene := by
        unfold execute
        rw [views]
      rw [same]
      simpa [views] using (asParent_reaches intact).proceed
    · simpa [views] using (Yields.of_execute laid honest creates views).reaches intact

end

end Step

end ObjectMachine
