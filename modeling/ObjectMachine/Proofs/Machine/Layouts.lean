import ObjectMachine.Proofs.Machine.Origins
import ObjectMachine.Proofs.Machine.Stacks

/-!
# What instructions do to references

An instruction takes its values off the stack, out of arrays, fields and records of try constructs,
and puts them there again. All but `new` and `super` make no reference to an object: they keep every
reference faithful and every object in its layout, whatever they do and even if they fail.
-/

namespace ObjectMachine

/-! ## Computed values -/

namespace Value

variable {result : Value}

theorem isObject_of_map {f : α → Value} {computed : Except Fault α}
    (plain : ∀ value, (f value).isObject = false) (h : f <$> computed = .ok result) :
    result.isObject = false := by
  cases computed with
  | error fault => cases h
  | ok value =>
      cases h
      exact plain value

theorem isObject_of_arithmetic {op : ArithmeticOp} {a b : Value}
    (h : Value.arithmetic op a b = .ok result) : result.isObject = false := by
  unfold Value.arithmetic at h
  split at h
  · exact isObject_of_map (fun _ => rfl) h
  · exact isObject_of_map (fun _ => rfl) h
  · exact isObject_of_map (fun _ => rfl) h
  · exact isObject_of_map (fun _ => rfl) h
  · exact isObject_of_map (fun _ => rfl) h
  · cases h
    rfl
  · cases h

theorem isObject_of_negate {value : Value} (h : value.negate = .ok result) :
    result.isObject = false := by
  cases value <;> cases h <;> rfl

theorem isObject_of_complement {value : Value} (h : value.complement = .ok result) :
    result.isObject = false := by
  cases value <;> cases h <;> rfl

theorem isObject_of_read {kind : Kind} {trimmed : List Char}
    (h : read? kind trimmed = some result) : result.isObject = false := by
  have mapped {β : Type} {f : β → Value} {read : Option β}
      (plain : ∀ value, (f value).isObject = false) (h : read.map f = some result) :
      result.isObject = false := by
    obtain ⟨value, -, rfl⟩ := Option.map_eq_some_iff.mp h
    exact plain value
  cases kind with
  | bool =>
      unfold read? at h
      dsimp only at h
      split at h
      · cases h
        rfl
      · split at h
        · cases h
          rfl
        · cases h
  | string => cases h
  | _ => exact mapped (fun _ => rfl) h

theorem isObject_of_convert {heap : Heap} {kind : Kind} {value : Value}
    (h : value.convert heap kind = .ok result) : result.isObject = false := by
  unfold convert at h
  dsimp only at h
  split at h
  · split at h
    · cases h
      rfl
    · split at h
      · next converted read =>
          cases h
          exact isObject_of_read read
      · cases h
  · split at h
    · cases h
    · cases kind with
      | double | bool =>
          dsimp only at h
          split at h <;> cases h <;> rfl
      | _ =>
          cases h
          rfl

end Value

def ExitAction.value? : ExitAction → Option Value
  | retValue value => some value
  | rethrow exception => some exception
  | _ => none

def TryPhase.value? : TryPhase → Option Value
  | inTry => none
  | inCatch exception => some exception
  | inFinally exit => exit.value?

structure Thread.Intact (catalog : Catalog) (origins : List ClassId) (thread : Thread) : Prop where
  stack : ∀ value ∈ thread.stack.slots, value.Faithful catalog origins
  handlers : ∀ record ∈ thread.handlers, ∀ value ∈ record.phase.value?,
    value.Faithful catalog origins

structure Scene.Intact (catalog : Catalog) (origins : List ClassId) (scene : Scene) : Prop where
  thread : scene.thread.Intact catalog origins
  store : scene.world.store.Intact catalog origins

/-! ## Stacks -/

namespace Stack

/-- Whether an operation on faithful values leaves faithful values, with answers of a kind. -/
def Keeps (catalog : Catalog) (origins : List ClassId) (answers : α → Prop)
    (operation : Operation α) : Prop :=
  ∀ stack answer after, operation stack = .ok answer after →
    (∀ value ∈ stack.slots, value.Faithful catalog origins) →
      answers answer ∧ ∀ value ∈ after.slots, value.Faithful catalog origins

variable {catalog : Catalog} {origins : List ClassId}

theorem keeps_push {value : Value} (faithful : value.Faithful catalog origins) :
    Keeps catalog origins (fun _ => True) (push value) := by
  intro stack _ after done each
  obtain ⟨-, rfl⟩ := push_eq_ok done
  refine ⟨trivial, ?_⟩
  intro other member
  rcases Array.mem_push.mp member with old | rfl
  · exact each other old
  · exact faithful

theorem keeps_pop : Keeps catalog origins (Value.Faithful catalog origins) pop := by
  intro stack value after done each
  obtain ⟨-, top, rfl⟩ := pop_eq_ok done
  refine ⟨each value (Array.mem_of_back? top), ?_⟩
  intro other member
  exact each other (mem_of_mem_pop member)

theorem keeps_popMany (count : Nat) :
    Keeps catalog origins (fun values => ∀ value ∈ values, value.Faithful catalog origins)
      (popMany count) := by
  intro stack values after done each
  unfold popMany at done
  dsimp only at done
  split at done
  · cases done
  · cases done
    constructor
    · intro value member
      obtain ⟨place, inside, rfl⟩ := Array.mem_extract_iff_getElem.mp member
      exact each _ (Array.getElem_mem _)
    · intro value member
      exact each value (mem_of_mem_shrink member)

theorem keeps_peek (below : Nat) :
    Keeps catalog origins (Value.Faithful catalog origins) (peek below) := by
  intro stack value after done each
  obtain rfl := peek_eq_ok done
  unfold peek at done
  split at done
  · next found there =>
      split at done
      · cases done
        exact ⟨each value (Array.mem_of_getElem? there), each⟩
      · cases done
  · cases done

theorem keeps_put (place : Nat) {value : Value} (faithful : value.Faithful catalog origins) :
    Keeps catalog origins (fun _ => True) (put place value) := by
  intro stack _ after done each
  obtain rfl := put_eq_ok done
  refine ⟨trivial, ?_⟩
  intro other member
  rcases Array.mem_or_eq_of_mem_setIfInBounds member with old | rfl
  · exact each other old
  · exact faithful

theorem keeps_truncate (depth : Nat) :
    Keeps catalog origins (fun _ => True) (modify (·.truncate depth)) := by
  intro stack _ after done each
  cases done
  exact ⟨trivial, fun value member => each value (mem_of_mem_shrink member)⟩

/-- Locals are null at first. -/
theorem keeps_reserve (count : Nat) :
    Keeps catalog origins (fun _ => True) (reserve count) := by
  intro stack _ after done each
  unfold reserve at done
  dsimp only at done
  split at done
  · cases done
  · cases done
    refine ⟨trivial, ?_⟩
    intro value member
    rcases Array.mem_append.mp member with old | new
    · exact each value (mem_of_mem_shrink old)
    · rw [(Array.mem_replicate.mp new).2]
      exact Value.faithful_of_not_isObject rfl

end Stack

/-! ## Registers -/

namespace Thread.Intact

variable {catalog : Catalog} {origins : List ClassId} {thread : Thread}

/-- A thread that has dropped values and try constructs. -/
theorem of_subset (h : thread.Intact catalog origins) {after : Thread}
    (stack : ∀ value ∈ after.stack.slots, value ∈ thread.stack.slots)
    (handlers : after.handlers ⊆ thread.handlers) : after.Intact catalog origins :=
  ⟨fun value member => h.stack value (stack value member),
    fun record member => h.handlers record (handlers member)⟩

theorem append (h : thread.Intact catalog origins) (more : List ClassId) :
    thread.Intact catalog (origins ++ more) :=
  ⟨fun value member => (h.stack value member).append more,
    fun record member value kept => (h.handlers record member value kept).append more⟩

theorem withPhase {record : TryRecord} {outer : List TryRecord} {phase : TryPhase}
    (h : thread.Intact catalog origins) (same : thread.handlers = record :: outer)
    (faithful : ∀ value ∈ phase.value?, value.Faithful catalog origins) :
    Intact catalog origins { thread with handlers := { record with phase } :: outer } where
  stack := h.stack
  handlers := by
    intro other member
    rcases List.mem_cons.mp member with rfl | old
    · exact faithful
    · exact h.handlers other (same ▸ List.mem_cons_of_mem _ old)

theorem enterFinally (h : thread.Intact catalog origins) {exit : ExitAction}
    (faithful : ∀ value ∈ exit.value?, value.Faithful catalog origins) :
    (thread.enterFinally exit).Intact catalog origins := by
  unfold Thread.enterFinally
  split
  · next record outer same =>
      have kept : ∀ value ∈ (TryPhase.inFinally exit).value?, value.Faithful catalog origins :=
        faithful
      have changed := h.withPhase same kept
      exact changed.of_subset (fun _ => mem_of_mem_shrink) (List.Subset.refl _)
  · exact h

theorem branchTo (h : thread.Intact catalog origins) (target : Nat) :
    (thread.branchTo target).Intact catalog origins := by
  unfold Thread.branchTo
  split
  · split
    · exact ⟨h.stack, h.handlers⟩
    · exact h.enterFinally nofun
  · exact ⟨h.stack, h.handlers⟩

theorem rewind (h : thread.Intact catalog origins) (record : TryRecord) :
    (thread.rewind record).Intact catalog origins :=
  h.of_subset (fun _ => mem_of_mem_shrink) (List.Subset.refl _)

theorem popCall (h : thread.Intact catalog origins) : thread.popCall.Intact catalog origins :=
  h.of_subset (fun _ member => member) (List.dropWhile_sublist _).subset

theorem currentTry (h : thread.Intact catalog origins) {record : TryRecord}
    (current : thread.currentTry? = some record) :
    ∀ value ∈ record.phase.value?, value.Faithful catalog origins := by
  unfold currentTry? at current
  split at current
  · next innermost outer same =>
      split at current
      · cases current
        exact h.handlers record (same ▸ List.mem_cons_self)
      · cases current
  · cases current

end Thread.Intact

/-! ## Parts of instructions -/

namespace Step

/-- Whether a part of an instruction leaves an intact scene intact, with answers of a kind, and the
store even if it fails. -/
def Yields (setup : Setup) (origins : List ClassId) (answers : α → Prop) (step : Step α) : Prop :=
  ∀ scene, scene.Intact setup.program.catalog origins →
    match step setup scene with
    | .ok answer next => answers answer ∧ next.Intact setup.program.catalog origins
    | .error _ next => next.world.store.Intact setup.program.catalog origins

abbrev Keeps (setup : Setup) (origins : List ClassId) (step : Step α) : Prop :=
  Yields setup origins (fun _ => True) step

namespace Yields

variable {setup : Setup} {origins : List ClassId} {answers : α → Prop}

theorem of_pure {answer : α} (h : answers answer) : Yields setup origins answers (pure answer) :=
  fun _ intact => ⟨h, intact⟩

theorem of_throw (fault : Fault) : Yields setup origins answers (throw fault : Step α) :=
  fun _ intact => intact.store

/-- Nothing follows a fault. -/
theorem of_throw_bind (fault : Fault) {following : γ → Step α} :
    Yields setup origins answers ((throw fault : Step γ) >>= following) :=
  fun _ intact => intact.store

theorem bind {answers' : β → Prop} {step : Step α} {following : α → Step β}
    (h : Yields setup origins answers step)
    (hn : ∀ answer, answers answer → Yields setup origins answers' (following answer)) :
    Yields setup origins answers' (step >>= following) := by
  intro scene intact
  have first := h scene intact
  change match EStateM.bind (step setup) (fun answer => following answer setup) scene with
    | .ok answer next => answers' answer ∧ next.Intact setup.program.catalog origins
    | .error _ next => next.world.store.Intact setup.program.catalog origins
  unfold EStateM.bind
  cases done : step setup scene with
  | ok answer middle =>
      rw [done] at first
      exact hn answer first.1 middle first.2
  | error fault middle =>
      rw [done] at first
      exact first

theorem map {step : Step β} {f : β → α} (h : Keeps setup origins step)
    (each : ∀ answer, answers (f answer)) : Yields setup origins answers (f <$> step) := by
  rw [← bind_pure_comp]
  exact h.bind fun answer _ => of_pure (each answer)

theorem of_require {result : Except Fault α} (h : ∀ value, result = .ok value → answers value) :
    Yields setup origins answers (require result) := by
  cases result with
  | ok value => exact of_pure (h value rfl)
  | error fault => exact of_throw fault

theorem of_get : Yields setup origins (Scene.Intact setup.program.catalog origins) get :=
  fun _ intact => ⟨intact, intact⟩

theorem of_read : Keeps setup origins read :=
  fun _ intact => ⟨trivial, intact⟩

theorem of_program : Yields setup origins (· = setup.program) program :=
  fun _ intact => ⟨rfl, intact⟩

theorem of_ofThread {part : Thread → α}
    (h : ∀ thread, thread.Intact setup.program.catalog origins → answers (part thread)) :
    Yields setup origins answers (ofThread part) :=
  fun scene intact => ⟨h scene.thread intact.thread, intact⟩

theorem of_register (part : Thread → α) : Keeps setup origins (ofThread part) :=
  of_ofThread fun _ _ => trivial

theorem of_heap : Yields setup origins (Heap.Intact setup.program.catalog origins) heap :=
  fun _ intact => ⟨intact.store.heap, intact⟩

theorem of_moduleRecord : Keeps setup origins moduleRecord :=
  fun _ intact => ⟨trivial, intact⟩

theorem of_describe (value : Value) : Keeps setup origins (describe value) :=
  fun _ intact => ⟨trivial, intact⟩

theorem of_onThread {change : Thread → Thread}
    (h : ∀ thread, thread.Intact setup.program.catalog origins →
      (change thread).Intact setup.program.catalog origins) :
    Keeps setup origins (onThread change) :=
  fun scene intact => ⟨trivial, h scene.thread intact.thread, intact.store⟩

theorem of_onStore {change : Store → Store}
    (h : ∀ store, store.Intact setup.program.catalog origins →
      (change store).Intact setup.program.catalog origins) :
    Keeps setup origins (onStore change) :=
  fun scene intact => ⟨trivial, intact.thread, h scene.world.store intact.store⟩

theorem of_onHeld (change : List MonitorKey → List MonitorKey) :
    Keeps setup origins (onHeld change) :=
  fun _ intact => ⟨trivial, intact.thread, intact.store⟩

theorem of_onStack {operation : Stack.Operation α}
    (h : Stack.Keeps setup.program.catalog origins answers operation) :
    Yields setup origins answers (onStack operation) := by
  intro scene intact
  unfold onStack
  dsimp only
  cases done : operation scene.thread.stack with
  | ok answer stack =>
      obtain ⟨good, each⟩ := h _ _ _ done intact.thread.stack
      exact ⟨good, ⟨each, intact.thread.handlers⟩, intact.store⟩
  | error fault stack => exact intact.store

theorem of_forM {step : β → Step Unit} {items : List β}
    (h : ∀ item ∈ items, Keeps setup origins (step item)) :
    Keeps setup origins (items.forM step) := by
  induction items with
  | nil => exact of_pure trivial
  | cons item rest ih =>
      obtain ⟨first, others⟩ := List.forall_mem_cons.mp h
      exact first.bind fun _ _ => ih others

theorem of_forM_array {step : β → Step Unit} {items : Array β}
    (h : ∀ item ∈ items, Keeps setup origins (step item)) :
    Keeps setup origins (items.forM step) := by
  cases items with | mk items
  rw [Array.forM_eq_forM, List.forM_toArray]
  exact of_forM fun item member => h item (List.mem_toArray.mpr member)

theorem of_push {value : Value} (faithful : value.Faithful setup.program.catalog origins) :
    Keeps setup origins (push value) :=
  of_onStack (Stack.keeps_push faithful)

/-- A value that is no reference to an object. -/
theorem of_pushPlain {value : Value} (h : value.isObject = false) :
    Keeps setup origins (push value) :=
  of_push (Value.faithful_of_not_isObject h)

theorem of_pop : Yields setup origins (Value.Faithful setup.program.catalog origins) pop :=
  of_onStack Stack.keeps_pop

theorem of_truncate (depth : Nat) : Keeps setup origins (truncate depth) :=
  of_onStack (Stack.keeps_truncate depth)

theorem of_pushArray {items : Array Value}
    (h : ∀ value ∈ items, value.Faithful setup.program.catalog origins) :
    Keeps setup origins (pushArray items) := by
  have create : Keeps setup origins (modifyGet fun scene =>
      let created := scene.world.store.heap.newArray items
      (created.1, { scene with world :=
        { scene.world with store := { scene.world.store with heap := created.2 } } })) := by
    intro scene intact
    exact ⟨trivial, intact.thread, intact.store.withHeap (intact.store.heap.newArray h)⟩
  exact create.bind fun id _ => of_pushPlain rfl

theorem of_pushTexts (items : List String) : Keeps setup origins (pushTexts items) := by
  refine of_pushArray fun value member => ?_
  obtain ⟨text, -, rfl⟩ := List.mem_map.mp (List.mem_toArray.mp member)
  exact Value.faithful_of_not_isObject rfl

/-! ## Values, locals and arithmetic -/

theorem of_dup : Keeps setup origins dup :=
  (of_onStack (Stack.keeps_peek 0)).bind fun _ => of_push

theorem of_swap : Keeps setup origins swap :=
  of_pop.bind fun _ upper => of_pop.bind fun _ lower => (of_push upper).bind fun _ _ =>
    of_push lower

theorem of_pushString (index : UInt32) : Keeps setup origins (pushString index) :=
  of_moduleRecord.bind fun _ _ => (of_require fun _ _ => trivial).bind fun _ _ => of_pushPlain rfl

theorem of_loadLocal (slot : UInt32) : Keeps setup origins (loadLocal slot) := by
  have local' : Yields setup origins (fun found => ∀ value ∈ found,
      Value.Faithful setup.program.catalog origins value)
      (ofThread fun thread => thread.stack.get? (thread.dp + slot.toNat)) :=
    of_ofThread fun thread intact value found => intact.stack value (Array.mem_of_getElem? found)
  refine local'.bind fun found faithful => ?_
  cases found with
  | none => exact of_throw _
  | some value => exact of_push (faithful value rfl)

theorem of_storeLocal (slot : UInt32) : Keeps setup origins (storeLocal slot) := by
  refine of_pop.bind fun value faithful => (of_register _).bind fun dp _ => ?_
  refine (of_onStack (Stack.keeps_put _ faithful)).bind fun stored _ => ?_
  cases stored with
  | true => exact of_pure trivial
  | false => exact of_throw _

/-- An operation whose result is no reference to an object. -/
theorem of_binary {operation : Value → Value → Step Value}
    (h : ∀ a b, Yields setup origins (fun value => value.isObject = false) (operation a b)) :
    Keeps setup origins (binary operation) :=
  of_pop.bind fun b _ => of_pop.bind fun a _ => (h a b).bind fun _ => of_pushPlain

theorem of_arithmetic (op : ArithmeticOp) : Keeps setup origins (arithmetic op) := by
  have number (op : ArithmeticOp) (a b : Value) :
      Yields setup origins (fun value => value.isObject = false)
        (require (Value.arithmetic op a b)) :=
    of_require fun _ => Value.isObject_of_arithmetic
  refine of_binary fun a b => ?_
  cases op with
  | add =>
      have text : Yields setup origins (fun value => value.isObject = false)
          (do pure (.text ((← describe a) ++ (← describe b))) : Step Value) :=
        (of_describe a).bind fun _ _ => (of_describe b).bind fun _ _ => of_pure rfl
      show Yields setup origins _ (sum a b)
      unfold sum
      split
      · exact text
      · exact text
      · exact number .add a b
  | _ => exact number _ a b

theorem of_compare (op : ComparisonOp) : Keeps setup origins (compare op) :=
  of_binary fun _ _ => (of_require fun _ _ => trivial).map fun _ => rfl

theorem of_negate : Keeps setup origins negate :=
  of_pop.bind fun _ _ => (of_require fun _ => Value.isObject_of_negate).bind fun _ => of_pushPlain

theorem of_complement : Keeps setup origins complement :=
  of_pop.bind fun _ _ => (of_require fun _ => Value.isObject_of_complement).bind fun _ =>
    of_pushPlain

theorem of_convert (code : UInt8) : Keeps setup origins (convert code) := by
  unfold convert
  split
  · exact of_throw _
  · exact of_pop.bind fun value _ => (of_describe value).bind fun _ _ => of_pushPlain rfl
  · exact of_pop.bind fun value _ => of_heap.bind fun heap _ =>
      (of_require fun _ => Value.isObject_of_convert).bind fun _ => of_pushPlain

/-! ## Arrays -/

theorem of_integer (purpose : String) (value : Value) :
    Keeps setup origins (integer purpose value) := by
  unfold integer
  split
  · exact of_pure trivial
  · exact of_throw _

theorem of_arrayFor (operation : String) (value : Value) :
    Keeps setup origins (arrayFor operation value) := by
  unfold arrayFor
  split
  · exact of_pure trivial
  · exact of_throw _
  · exact of_throw _

theorem of_itemPlace (index : Int64) (length : Nat) :
    Keeps setup origins (itemPlace index length) := by
  unfold itemPlace
  split
  · exact of_pure trivial
  · exact of_throw _

theorem of_newArray : Keeps setup origins newArray := by
  refine of_pop.bind fun value _ => (of_integer _ value).bind fun length _ => ?_
  split
  · exact of_throw_bind _
  · refine of_read.bind fun setup _ => ?_
    split
    · exact of_throw_bind _
    · refine of_pushArray fun item member => ?_
      rw [(Array.mem_replicate.mp member).2]
      exact Value.faithful_of_not_isObject rfl

theorem of_makeArray (count : Nat) : Keeps setup origins (makeArray count) :=
  (of_onStack (Stack.keeps_popMany count)).bind fun _ => of_pushArray

theorem of_arrayLoad : Keeps setup origins arrayLoad := by
  refine of_pop.bind fun index _ => of_pop.bind fun value _ =>
    (of_arrayFor _ value).bind fun id _ => (of_integer _ index).bind fun _ _ =>
      of_heap.bind fun heap intact => (of_itemPlace _ _).bind fun place _ => of_push ?_
  rw [Array.getD_eq_getD_getElem?]
  cases found : (heap.items id)[place]? with
  | none => exact Value.faithful_of_not_isObject rfl
  | some item => exact intact.items id item (Array.mem_of_getElem? found)

theorem of_arrayStore : Keeps setup origins arrayStore :=
  of_pop.bind fun _ faithful => of_pop.bind fun index _ => of_pop.bind fun value _ =>
    (of_arrayFor _ value).bind fun id _ => (of_integer _ index).bind fun _ _ =>
      of_heap.bind fun _ _ => (of_itemPlace _ _).bind fun place _ =>
        of_onStore fun _ intact => intact.withHeap (intact.heap.setItem id place faithful)

theorem of_arrayLength : Keeps setup origins arrayLength :=
  of_pop.bind fun value _ => (of_arrayFor _ value).bind fun _ _ => of_heap.bind fun _ _ =>
    of_pushPlain rfl

/-! ## Members -/

/-- A member belongs to the class that an object is seen as. -/
theorem of_memberClass (member : String) (target : Value) :
    Yields setup origins (fun id => ∀ view object, target = .object view object → id = view)
      (memberClass member target) := by
  unfold memberClass
  split
  · exact of_pure (by rintro _ _ ⟨⟩; rfl)
  · exact of_pure nofun
  · exact of_throw _
  · exact (of_describe _).bind fun _ _ => of_throw _

theorem of_nativeTarget (target : Value) : Keeps setup origins (nativeTarget target) := by
  unfold nativeTarget
  split
  · exact of_heap.bind fun heap _ => of_pure trivial
  · exact of_pure trivial

theorem of_native {facade : Facade} {operation : Store → Except String (α × Store)}
    (h : ∀ store, store.Intact setup.program.catalog origins → ∀ answer after,
      operation store = .ok (answer, after) →
        answers answer ∧ after.Intact setup.program.catalog origins) :
    Yields setup origins answers (native facade operation) := by
  refine of_get.bind fun scene intact => ?_
  dsimp only
  split
  · next answer after done =>
      obtain ⟨good, kept⟩ := h _ intact.store _ _ done
      exact (of_onStore fun _ _ => kept).bind fun _ _ => of_pure good
  · exact of_throw _

/-- A field that is not static is one of an object. -/
theorem of_fieldSlot (info : ClassDef) (target : Value) (name : Symbol) :
    Yields setup origins (fun field => info.field? name = some field)
      (fieldSlot info target name) := by
  refine of_program.bind fun program _ => ?_
  split
  · exact of_throw _
  · next field found =>
      split
      · exact of_pure found
      · exact of_pure found
      · exact of_throw _

theorem of_memberName (operation : String) (name : Value) :
    Keeps setup origins (memberName operation name) := by
  unfold memberName
  split
  · exact of_pure trivial
  · exact of_throw _

theorem of_fieldSymbol (info : ClassDef) (name : Value) :
    Keeps setup origins (fieldSymbol info name) := by
  refine (of_memberName _ name).bind fun text _ => of_program.bind fun program _ => ?_
  split
  · exact of_pure trivial
  · exact of_throw _

theorem of_instanceOf (index : UInt32) : Keeps setup origins (instanceOf index) := by
  refine of_moduleRecord.bind fun record _ => (of_require fun _ _ => trivial).bind fun id _ =>
    of_pop.bind fun value _ => ?_
  split
  · exact of_program.bind fun _ _ => of_pushPlain rfl
  · exact of_pushPlain rfl
  · exact (of_describe _).bind fun _ _ => of_throw _

theorem of_hierarchy : Keeps setup origins hierarchy :=
  of_pop.bind fun target _ => (of_memberClass _ target).bind fun _ _ =>
    of_program.bind fun _ _ => of_pushTexts _

theorem of_methods : Keeps setup origins methods :=
  of_pop.bind fun target _ => of_program.bind fun _ _ => (of_memberClass _ target).bind fun _ _ =>
    of_pushTexts _

theorem of_fields : Keeps setup origins fields := by
  refine of_pop.bind fun target _ => of_program.bind fun program _ =>
    (of_memberClass _ target).bind fun id _ => ?_
  dsimp only
  split
  · exact of_pushTexts _
  · exact of_pushTexts _

section

variable {facades : List Facade} (laid : setup.program.catalog.Laid facades)
  (honest : ∀ facade ∈ facades, facade.Honest)

include laid honest

theorem of_readField {target : Value} (seen : target.Faithful setup.program.catalog origins)
    (name : Symbol) :
    Yields setup origins (Value.Faithful setup.program.catalog origins)
      (readField target name) := by
  refine of_program.bind fun program same => ?_
  subst same
  refine (of_memberClass _ target).bind fun id view => ?_
  dsimp only
  split
  · next facade native =>
      have get := (honest facade (laid.native id facade native)).get
      refine (of_nativeTarget target).bind fun object _ => of_native fun store intact => ?_
      exact fun _ _ => intact.operate (honest facade (laid.native id facade native))
        (get _ (fun _ => Value.faithful_of_not_isObject) _)
  · refine (of_fieldSlot _ target name).bind fun field _ => ?_
    split
    · next object _ =>
        exact of_heap.bind fun heap intact => of_pure (intact.field object field.slot)
    · exact of_get.bind fun scene intact => of_pure (intact.store.value id field.slot)

theorem of_writeField {target value : Value} (seen : target.Faithful setup.program.catalog origins)
    (faithful : value.Faithful setup.program.catalog origins) (name : Symbol) :
    Keeps setup origins (writeField target name value) := by
  refine of_program.bind fun program same => ?_
  subst same
  refine (of_memberClass _ target).bind fun id view => ?_
  dsimp only
  split
  · next facade native =>
      have set := (honest facade (laid.native id facade native)).set
      refine (of_nativeTarget target).bind fun object _ => of_native fun store intact => ?_
      exact fun _ _ => intact.operate (honest facade (laid.native id facade native))
        (set _ (fun _ => Value.faithful_of_not_isObject) _ _ value faithful)
  · refine (of_fieldSlot _ target name).bind fun field found => ?_
    split
    · next other object instanceField =>
        obtain rfl := view _ _ rfl
        obtain ⟨front, back, listed, -⟩ := List.lookup_eq_some_iff.mp found
        have inside := laid.tight id (name, field) (by rw [listed]; simp) instanceField
        exact of_onStore fun store intact =>
          intact.withHeap (intact.heap.setField laid seen inside faithful)
    · exact of_onStore fun store intact => intact.setStatic id field.slot faithful

theorem of_loadField (index : UInt32) : Keeps setup origins (loadField index) :=
  of_moduleRecord.bind fun _ _ => (of_require fun _ _ => trivial).bind fun name _ =>
    of_pop.bind fun _ seen => (of_readField laid honest seen name).bind fun _ => of_push

theorem of_storeField (index : UInt32) : Keeps setup origins (storeField index) :=
  of_moduleRecord.bind fun _ _ => (of_require fun _ _ => trivial).bind fun name _ =>
    of_pop.bind fun _ faithful => of_pop.bind fun _ seen =>
      of_writeField laid honest seen faithful name

theorem of_getField : Keeps setup origins getField :=
  of_pop.bind fun name _ => of_pop.bind fun target seen => of_program.bind fun _ _ =>
    (of_memberClass _ target).bind fun _ _ => (of_fieldSymbol _ name).bind fun symbol _ =>
      (of_readField laid honest seen symbol).bind fun _ => of_push

theorem of_setField : Keeps setup origins setField :=
  of_pop.bind fun _ faithful => of_pop.bind fun name _ => of_pop.bind fun target seen =>
    of_program.bind fun _ _ => (of_memberClass _ target).bind fun _ _ =>
      (of_fieldSymbol _ name).bind fun symbol _ => of_writeField laid honest seen faithful symbol

end

/-! ## Calls -/

theorem of_enterFrame (key : MethodKey) (entry : MethodEntry) (address : Nat)
    (localCount : UInt16) (kind : FrameKind) (returnIp : Nat) :
    Keeps setup origins (enterFrame key entry address localCount kind returnIp) := by
  refine of_read.bind fun found _ => (of_register _).bind fun size _ => ?_
  split
  · exact of_throw_bind _
  · refine (of_register _).bind fun depth _ => ?_
    dsimp only
    split
    · exact of_throw_bind _
    · refine bind (of_onThread fun _ intact => ?_) fun _ _ =>
        (of_onStack (Stack.keeps_reserve _)).bind fun _ _ => of_onThread fun _ intact => ?_
      · exact ⟨intact.stack, intact.handlers⟩
      · exact ⟨intact.stack, intact.handlers⟩

theorem of_storeConstants (id : ClassId) (info : ClassDef) :
    Keeps setup origins (storeConstants id info) := by
  refine of_forM fun constant _ => ?_
  dsimp only
  split
  · exact of_onStore fun _ intact =>
      intact.setStatic id _ (Value.faithful_of_not_isObject rfl)
  · exact of_pure trivial

theorem of_initializeClass (id : ClassId) (resumeIp : Nat) :
    Keeps setup origins (initializeClass id resumeIp) := by
  refine of_get.bind fun scene _ => ?_
  split
  · exact of_pure trivial
  · refine of_program.bind fun program _ =>
      (of_onStore fun _ intact => intact.beginInitialization id).bind fun _ _ =>
        (of_storeConstants id _).bind fun _ _ => ?_
    split
    · exact of_pure trivial
    · exact (of_pushPlain rfl).bind fun _ _ => (of_enterFrame _ _ _ _ _ _).bind fun _ _ =>
        of_pure trivial

theorem of_loadClass (index : UInt32) (offset : Nat) :
    Keeps setup origins (loadClass index offset) := by
  refine of_moduleRecord.bind fun record _ => (of_require fun _ _ => trivial).bind fun id _ =>
    (of_initializeClass id _).bind fun entered _ => ?_
  split
  · exact of_pure trivial
  · exact of_pushPlain rfl

theorem of_callNative {info : ClassDef} (honest : ∀ facade ∈ info.facade, facade.Honest)
    (receiver : Value) (key : MethodKey) : Keeps setup origins (callNative info receiver key) := by
  unfold callNative
  split
  · exact of_throw _
  · next facade native =>
      have honest := honest facade native
      refine (of_onStack (Stack.keeps_popMany _)).bind fun args faithful => of_pop.bind fun _ _ =>
        (of_nativeTarget receiver).bind fun object _ => of_program.bind fun _ _ => ?_
      refine bind (of_native fun store intact _ _ => intact.operate honest
        (honest.call _ (fun _ => Value.faithful_of_not_isObject) _ _ args.toList ?_)) fun _ =>
          of_push
      exact fun value member => faithful value (Array.mem_toList_iff.mp member)

section

variable {facades : List Facade} (laid : setup.program.catalog.Laid facades)
  (honest : ∀ facade ∈ facades, facade.Honest)

include laid honest

theorem of_callMethod (key : MethodKey) (kind : FrameKind) :
    Keeps setup origins (callMethod key kind) := by
  refine of_program.bind fun program same =>
    (of_onStack (Stack.keeps_peek _)).bind fun receiver _ =>
      (of_memberClass _ receiver).bind fun id _ => ?_
  subst same
  dsimp only
  split
  · exact of_throw _
  · split
    · exact of_throw _
    · unfold enterMethod
      split
      · exact of_callNative (fun facade native => honest facade (laid.native id facade native)) _ _
      · exact (of_register _).bind fun _ _ => of_enterFrame _ _ _ _ _ _

theorem of_invoke : Keeps setup origins invoke := by
  refine of_pop.bind fun args _ => of_pop.bind fun name _ => of_pop.bind fun target seen => ?_
  split
  · refine of_heap.bind fun heap intact => of_program.bind fun program _ =>
      (of_memberClass _ target).bind fun _ _ => (of_memberName _ name).bind fun method _ => ?_
    dsimp only
    split
    · exact of_throw_bind _
    · split
      · exact of_throw _
      · exact (of_push seen).bind fun _ _ =>
          (of_forM_array fun item member => of_push (intact.items _ item member)).bind fun _ _ =>
            of_callMethod laid honest _ _
  · exact of_throw _

end

/-! ## Branches and exceptions -/

theorem of_jump (target : Nat) : Keeps setup origins (jump target) :=
  of_onThread fun _ intact => intact.branchTo target

theorem of_jumpIf (opcode : Opcode) (wanted : Bool) (target : Nat) :
    Keeps setup origins (jumpIf opcode wanted target) := by
  refine of_pop.bind fun value _ => ?_
  split
  · split
    · exact of_jump target
    · exact of_pure trivial
  · exact of_throw _

theorem of_jumpIfCompare (op : ComparisonOp) (target : Nat) :
    Keeps setup origins (jumpIfCompare op target) := by
  refine of_pop.bind fun b _ => of_pop.bind fun a _ =>
    (of_require fun _ _ => trivial).bind fun holds _ => ?_
  split
  · exact of_jump target
  · exact of_pure trivial

theorem of_jumpByCase (instruction : Instruction) :
    Keeps setup origins (jumpByCase instruction) := by
  refine of_pop.bind fun value _ => ?_
  split
  · exact of_throw _
  · split
    · split
      · split
        · exact of_jump _
        · exact of_pure trivial
      · exact of_pure trivial
    · exact of_pure trivial

theorem of_enterTry (instruction : Instruction) : Keeps setup origins (enterTry instruction) := by
  rw [Thread.enterTry_eq_entered]
  refine of_onThread fun thread intact => ⟨intact.stack, fun record member => ?_⟩
  rcases List.mem_cons.mp member with rfl | old
  · exact nofun
  · exact intact.handlers record old

theorem of_handlers :
    Yields setup origins (fun handlers => ∀ record ∈ handlers, ∀ value ∈ record.phase.value?,
      value.Faithful setup.program.catalog origins) (ofThread (·.handlers)) :=
  of_ofThread fun _ intact => intact.handlers

theorem of_currentTry :
    Yields setup origins (fun current => ∀ record ∈ current, ∀ value ∈ record.phase.value?,
      value.Faithful setup.program.catalog origins) (ofThread (·.currentTry?)) :=
  of_ofThread fun _ intact _ => intact.currentTry

theorem of_raise {exception : Value} (faithful : exception.Faithful setup.program.catalog origins) :
    Keeps setup origins (raise exception) := by
  have kept : ∀ value ∈ some exception, value.Faithful setup.program.catalog origins := by
    rintro _ ⟨⟩
    exact faithful
  refine bind (of_onThread fun _ intact =>
    intact.of_subset (fun _ member => member) (List.dropWhile_sublist _).subset) fun _ _ => ?_
  refine of_handlers.bind fun handlers each => ?_
  split
  · exact (of_describe _).bind fun _ _ => of_throw _
  · next record outer =>
      refine (of_onThread fun _ intact => intact.rewind record).bind fun _ _ => ?_
      split
      · refine bind (of_onThread fun _ intact => ⟨intact.stack, fun other member => ?_⟩) fun _ _ =>
          (of_push faithful).bind fun _ _ => of_onThread fun _ intact =>
            ⟨intact.stack, intact.handlers⟩
        rcases List.mem_cons.mp member with rfl | old
        · exact kept
        · exact each other (List.mem_cons_of_mem _ old)
      · exact of_onThread fun _ intact => intact.enterFinally kept

theorem of_currentPhase :
    Yields setup origins (fun phase? => ∀ phase ∈ phase?, ∀ value ∈ phase.value?,
      value.Faithful setup.program.catalog origins) currentPhase := by
  refine of_ofThread fun thread intact phase found => ?_
  obtain ⟨record, current, rfl⟩ := Option.map_eq_some_iff.mp found
  exact intact.currentTry current

theorem of_leaveTry : Keeps setup origins leaveTry := by
  refine of_currentPhase.bind fun phase _ => ?_
  split
  · exact of_onThread fun _ intact => intact.enterFinally nofun
  · exact of_throw _

theorem of_leaveCatch : Keeps setup origins leaveCatch := by
  refine of_currentPhase.bind fun phase _ => ?_
  split
  · exact of_onThread fun _ intact => intact.enterFinally nofun
  · exact of_throw _

theorem of_reraise : Keeps setup origins reraise := by
  refine of_currentTry.bind fun current kept => ?_
  split
  · next record =>
      split
      · next exception phase =>
          refine of_onThread fun _ intact => (intact.rewind record).enterFinally ?_
          simpa [phase, TryPhase.value?, ExitAction.value?] using kept record rfl
      · exact of_throw _
  · exact of_throw _

theorem of_leaveFrame (kind : FrameKind) {form : ReturnForm} (dp : Nat)
    (faithful : ∀ value ∈ form.exit.value?, value.Faithful setup.program.catalog origins) :
    Keeps setup origins (leaveFrame kind form dp) := by
  unfold leaveFrame
  split
  · exact of_truncate _
  · exact of_truncate _
  · exact of_truncate _
  · exact (of_truncate _).bind fun _ _ => of_push (faithful _ rfl)
  · exact (of_truncate _).bind fun _ _ => of_pushPlain rfl
  · exact of_truncate _

theorem of_returnFrom {form : ReturnForm}
    (faithful : ∀ value ∈ form.exit.value?, value.Faithful setup.program.catalog origins) :
    Keeps setup origins (returnFrom form) := by
  refine (of_register _).bind fun interceptor _ => ?_
  split
  · exact (of_onThread fun _ intact => intact.enterFinally faithful).bind fun _ _ => of_pure trivial
  · refine (of_register _).bind fun top _ => ?_
    split
    · exact of_pure trivial
    · refine (of_register _).bind fun _ _ => (of_register _).bind fun _ _ =>
        (of_onThread fun _ intact => intact.popCall).bind fun _ _ =>
          (of_leaveFrame _ _ faithful).bind fun _ _ =>
            bind (of_onThread fun _ intact => ?_) fun _ _ => of_pure trivial
      exact ⟨intact.stack, intact.handlers⟩

theorem of_carryOut {exit : ExitAction}
    (faithful : ∀ value ∈ exit.value?, value.Faithful setup.program.catalog origins) :
    Keeps setup origins (carryOut exit) := by
  cases exit with
  | fallThrough => exact of_pure trivial
  | ret => exact of_returnFrom nofun
  | retValue value => exact of_returnFrom faithful
  | retConstructor => exact of_returnFrom nofun
  | branch target => exact (of_jump target).bind fun _ _ => of_pure trivial
  | rethrow exception => exact (of_raise (faithful exception rfl)).bind fun _ _ => of_pure trivial

theorem of_leaveFinally : Keeps setup origins leaveFinally := by
  refine of_currentPhase.bind fun phase kept => ?_
  split
  · refine bind (of_onThread fun _ intact => ?_) fun _ _ => of_carryOut (kept _ rfl)
    exact intact.of_subset (fun _ member => member) (List.tail_sublist _).subset
  · exact of_throw _

/-! ## Threads and monitors -/

theorem of_setState (state : ThreadState) : Keeps setup origins (setState state) :=
  of_onThread fun _ intact => ⟨intact.stack, intact.handlers⟩

theorem of_join : Keeps setup origins join := by
  refine of_pop.bind fun value _ => ?_
  split
  · exact (of_describe value).bind fun _ _ => of_throw _
  · refine (of_register _).bind fun own _ => ?_
    split
    · exact of_throw_bind _
    · exact of_pure trivial

theorem of_sleep : Keeps setup origins sleep := by
  refine of_pop.bind fun value _ => ?_
  split
  · exact of_throw _
  · exact of_get.bind fun _ _ => (of_setState _).bind fun _ _ => of_pure trivial

theorem of_monitorKey (operation : String) (target : Value) :
    Keeps setup origins (monitorKey operation target) := by
  unfold monitorKey
  split
  · exact of_pure trivial
  · exact of_pure trivial
  · exact of_pure trivial
  · exact (of_describe _).bind fun _ _ => of_throw _

theorem of_wait : Keeps setup origins wait := by
  refine of_pop.bind fun target _ => (of_monitorKey _ target).bind fun key _ =>
    of_get.bind fun scene _ => ?_
  split
  · exact (of_setState _).bind fun _ _ => of_pure trivial
  · exact (of_onHeld _).bind fun _ _ => of_pure trivial

theorem of_signal : Keeps setup origins signal := by
  refine of_pop.bind fun target _ => (of_monitorKey _ target).bind fun key _ =>
    of_get.bind fun scene _ => ?_
  split
  · exact of_onHeld _
  · exact (of_describe _).bind fun _ _ => of_throw _

/-- A part that asks nothing of the scheduler. -/
theorem proceed {step : Step Unit} (h : Keeps setup origins step) :
    Keeps setup origins (do step; pure Signal.proceed) :=
  h.bind fun _ _ => of_pure trivial

/-! ## Instructions -/

theorem isObject_constant (instruction : Instruction) : instruction.constant.isObject = false := by
  unfold Instruction.constant
  split <;> rfl

section

variable {facades : List Facade} (laid : setup.program.catalog.Laid facades)
  (honest : ∀ facade ∈ facades, facade.Honest)

include laid honest

/-- All instructions but `new` and `super` keep references faithful and objects in their layouts. -/
theorem of_execute {instruction : Instruction} (creates : instruction.opcode ≠ .new)
    (views : instruction.opcode ≠ .super) : Keeps setup origins (execute instruction) := by
  unfold execute
  dsimp only
  cases hop : instruction.opcode with
  | new => exact absurd hop creates
  | super => exact absurd hop views
  | nop | fork | exit => exact of_pure trivial
  | pop => exact of_pop.bind fun _ _ => of_pure trivial
  | dup => exact proceed of_dup
  | swap => exact proceed of_swap
  | pushNull | pushTrue | pushFalse => exact proceed (of_pushPlain rfl)
  | pushByte | pushChar | pushShort | pushInt | pushLong | pushDouble =>
      exact proceed (of_pushPlain (isObject_constant instruction))
  | pushString => exact proceed (of_pushString _)
  | loadLocal => exact proceed (of_loadLocal _)
  | storeLocal => exact proceed (of_storeLocal _)
  | add | sub | mul | div | mod => exact proceed (of_arithmetic _)
  | neg => exact proceed of_negate
  | not => exact proceed of_complement
  | convert => exact proceed (of_convert _)
  | ce | cne | cl | cle | cg | cge => exact proceed (of_compare _)
  | jmp => exact proceed (of_jump _)
  | jt | jf => exact proceed (of_jumpIf _ _ _)
  | jce | jcne | jcl | jcle | jcg | jcge => exact proceed (of_jumpIfCompare _ _)
  | caseOf => exact proceed (of_jumpByCase _)
  | ret | retCtor => exact of_returnFrom nofun
  | retVal =>
      refine of_pop.bind fun value faithful => of_returnFrom ?_
      rintro _ ⟨⟩
      exact faithful
  | loadClass => exact proceed (of_loadClass _ _)
  | call =>
      exact proceed (of_moduleRecord.bind fun _ _ => (of_require fun _ _ => trivial).bind fun _ _ =>
        of_callMethod laid honest _ _)
  | loadField => exact proceed (of_loadField laid honest _)
  | storeField => exact proceed (of_storeField laid honest _)
  | instanceOf => exact proceed (of_instanceOf _)
  | enterTry => exact proceed (of_enterTry _)
  | leaveTry => exact proceed of_leaveTry
  | leaveCatch => exact proceed of_leaveCatch
  | leaveFinally => exact of_leaveFinally
  | raise => exact of_pop.bind fun _ faithful => proceed (of_raise faithful)
  | reraise => exact proceed of_reraise
  | newArray => exact proceed of_newArray
  | arrayLoad => exact proceed of_arrayLoad
  | arrayStore => exact proceed of_arrayStore
  | arrayLength => exact proceed of_arrayLength
  | makeArray => exact proceed (of_makeArray _)
  | join => exact of_join
  | nice => exact (of_setState _).bind fun _ _ => of_pure trivial
  | sleep => exact of_sleep
  | wait => exact of_wait
  | signal => exact proceed of_signal
  | threadId => exact proceed ((of_register _).bind fun _ _ => of_pushPlain rfl)
  | hierarchy => exact proceed of_hierarchy
  | methods => exact proceed of_methods
  | fields => exact proceed of_fields
  | getField => exact proceed (of_getField laid honest)
  | setField => exact proceed (of_setField laid honest)
  | invoke => exact proceed (of_invoke laid honest)

end

end Yields

end Step

end ObjectMachine
