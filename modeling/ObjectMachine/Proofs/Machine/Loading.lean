import ObjectMachine.Proofs.Machine.Calls
import ObjectMachine.Proofs.Machine.Ordinary
import ObjectMachine.Proofs.Program.Fresh

/-!
# Loading classes

The first `loadclass` of a class marks it, stores its constants and enters its own static
initializer, if it has one. Any other `loadclass` of the class pushes it. No other instruction marks
classes, and no other enters a frame of an initializer.
-/

namespace ObjectMachine

namespace Heap

variable {slots : Array Value} {slot other : UInt32} {value : Value}

theorem readSlot_writeSlot_self (some : slot ≠ 0) :
    readSlot (writeSlot slots slot value) slot = value := by
  unfold readSlot writeSlot placeOf
  rw [if_neg some]
  dsimp only
  split
  · next inside => simp [Array.getD_eq_getD_getElem?, inside]
  · next outside =>
      rw [Array.getD_eq_getD_getElem?, Array.getElem?_push, if_pos]
      · rfl
      · simp
        omega

theorem readSlot_writeSlot_of_ne (apart : other ≠ slot) :
    readSlot (writeSlot slots slot value) other = readSlot slots other := by
  unfold readSlot writeSlot placeOf
  by_cases none : other = 0
  · rw [if_pos none]
  · rw [if_neg none]
    by_cases none' : slot = 0
    · rw [if_pos none']
    · rw [if_neg none']
      have places : other.toNat - 1 ≠ slot.toNat - 1 := by
        have := UInt32.toNat_inj.not.mpr apart
        have := UInt32.toNat_inj.not.mpr none
        have := UInt32.toNat_inj.not.mpr none'
        simp only [UInt32.toNat_zero] at *
        omega
      dsimp only
      split
      · next inside =>
          simp only [Array.getD_eq_getD_getElem?, Array.getElem?_setIfInBounds]
          rw [if_neg places.symm]
      · next outside =>
          simp only [Array.getD_eq_getD_getElem?, Array.getElem?_push, Array.getElem?_append,
            Array.getElem?_replicate]
          grind

end Heap

/-! ## Marks and constants -/

namespace Store

variable {store : Store} {id : ClassId}

def IsMarked (store : Store) (id : ClassId) : Prop :=
  (store.staticsOf id).initialized = true

instance (store : Store) (id : ClassId) : Decidable (store.IsMarked id) :=
  inferInstanceAs (Decidable (_ = true))

theorem isMarked_iff : store.IsMarked id ↔ store.latches[id.index]? = some true := by
  unfold IsMarked staticsOf latches
  rw [Array.getD_eq_getD_getElem?, Array.getElem?_map]
  cases store.statics[id.index]? with
  | none => simp [show (default : ClassStatics).initialized = false from rfl]
  | some statics => simp

theorem size_latches (store : Store) : store.latches.size = store.statics.size :=
  Array.size_map

def withConstant (id : ClassId) (info : ClassDef) (store : Store) (constant : Symbol × Int32) :
    Store :=
  match info.field? constant.1 with
  | some field => store.setStatic id field.slot (.int constant.2)
  | none => store

/-- The store after the first load of a class: the class is marked, and its constants are in its
static fields. -/
def loaded (store : Store) (id : ClassId) (info : ClassDef) : Store :=
  info.enumValues.foldl (withConstant id info) (store.beginInitialization id)

theorem latches_withConstant (id : ClassId) (info : ClassDef) (store : Store)
    (constant : Symbol × Int32) :
    (withConstant id info store constant).latches = store.latches := by
  unfold withConstant
  split
  · exact store.latches_setStatic id _ _
  · rfl

theorem latches_beginInitialization (store : Store) (id : ClassId) :
    (store.beginInitialization id).latches = store.latches.setIfInBounds id.index true := by
  apply Array.ext_getElem?
  intro place
  simp only [latches, beginInitialization, Array.getElem?_map, Array.getElem?_modify,
    Array.getElem?_setIfInBounds, Array.size_map]
  split
  · next same =>
      subst same
      cases found : store.statics[id.index]? with
      | none =>
          have outside := Array.getElem?_eq_none_iff.mp found
          rw [if_neg (Nat.not_lt.mpr outside)]
          rfl
      | some statics =>
          rw [if_pos (Array.getElem?_eq_some_iff.mp found).1]
          rfl
  · rfl

theorem latches_foldl_withConstant (id : ClassId) (info : ClassDef) (store : Store)
    (constants : List (Symbol × Int32)) :
    (constants.foldl (withConstant id info) store).latches = store.latches := by
  induction constants generalizing store with
  | nil => rfl
  | cons constant rest ih =>
      rw [List.foldl_cons, ih]
      exact latches_withConstant id info store constant

/-- The first load marks the class and no other one. -/
theorem latches_loaded (store : Store) (id : ClassId) (info : ClassDef) :
    (store.loaded id info).latches = store.latches.setIfInBounds id.index true :=
  (latches_foldl_withConstant id info _ _).trans (store.latches_beginInitialization id)

def static (store : Store) (id : ClassId) (slot : UInt32) : Value :=
  (store.staticsOf id).value slot

theorem staticsOf_setStatic (inside : id.index < store.statics.size) (slot : UInt32)
    (value : Value) :
    (store.setStatic id slot value).staticsOf id = (store.staticsOf id).set slot value := by
  simp [staticsOf, setStatic, Array.getD_eq_getD_getElem?, inside, Array.getElem_modify_self]

theorem static_setStatic_self (inside : id.index < store.statics.size) {slot : UInt32}
    (some : slot ≠ 0) (value : Value) : (store.setStatic id slot value).static id slot = value := by
  rw [static, staticsOf_setStatic inside]
  exact Heap.readSlot_writeSlot_self some

theorem static_setStatic_of_ne (inside : id.index < store.statics.size) {slot other : UInt32}
    (apart : other ≠ slot) (value : Value) :
    (store.setStatic id slot value).static id other = store.static id other := by
  rw [static, staticsOf_setStatic inside]
  exact Heap.readSlot_writeSlot_of_ne apart

/-- Constants whose fields are numbered in order do not get into each other's way. -/
theorem static_foldl_withConstant {info : ClassDef} {constants : List (Symbol × Int32)}
    (before : Nat) (store : Store)
    (numbered : ∀ place name value, constants[place]? = some (name, value) →
      info.field? name = some ⟨UInt32.ofNat (before + place + 1), true⟩)
    (few : before + constants.length < UInt32.size) (inside : id.index < store.statics.size) :
    (∀ place name value, constants[place]? = some (name, value) →
      (constants.foldl (withConstant id info) store).static id
        (UInt32.ofNat (before + place + 1)) = .int value) ∧
    ∀ slot, slot.toNat ≤ before →
      (constants.foldl (withConstant id info) store).static id slot = store.static id slot := by
  induction constants generalizing before store with
  | nil => exact ⟨nofun, fun _ _ => rfl⟩
  | cons constant rest ih =>
      obtain ⟨name, value⟩ := constant
      rw [List.length_cons] at few
      have first : withConstant id info store (name, value) =
          store.setStatic id (UInt32.ofNat (before + 1)) (.int value) := by
        unfold withConstant
        rw [numbered 0 name value rfl]
      have number : (UInt32.ofNat (before + 1)).toNat = before + 1 :=
        UInt32.toNat_ofNat_of_lt' (by omega)
      have numbered' (place : Nat) (name : Symbol) (value : Int32)
          (listed : rest[place]? = some (name, value)) :
          info.field? name = some ⟨UInt32.ofNat (before + 1 + place + 1), true⟩ := by
        rw [Nat.add_right_comm before 1 place]
        exact numbered (place + 1) name value listed
      obtain ⟨later, kept⟩ := ih (before + 1)
        (store.setStatic id (UInt32.ofNat (before + 1)) (.int value)) numbered' (by omega)
        (by simpa [setStatic] using inside)
      rw [List.foldl_cons, first]
      refine ⟨fun place other constant listed => ?_, fun slot below => ?_⟩
      · cases place with
        | zero =>
            cases listed
            rw [kept _ (Nat.le_of_eq number)]
            refine static_setStatic_self inside (fun none => ?_) _
            rw [Nat.add_zero, none] at number
            exact absurd number (Nat.succ_ne_zero before).symm
        | succ place =>
            have there := later place other constant listed
            rwa [Nat.add_right_comm before 1 place] at there
      · rw [kept slot (by omega)]
        refine static_setStatic_of_ne inside (fun same => ?_) _
        rw [same, number] at below
        omega

/-- The first load of an enumeration stores each constant in its own static field. -/
theorem static_loaded {info : ClassDef} (enumerates : info.Enumerates)
    (few : info.enumValues.length < UInt32.size) (inside : id.index < store.statics.size)
    {name : Symbol} {value : Int32} (constant : (name, value) ∈ info.enumValues) :
    ∃ slot, info.field? name = some ⟨slot, true⟩ ∧
      (store.loaded id info).static id slot = .int value := by
  obtain ⟨place, listed⟩ := List.getElem?_of_mem constant
  have numbered (place : Nat) (name : Symbol) (value : Int32)
      (listed : info.enumValues[place]? = some (name, value)) :
      info.field? name = some ⟨UInt32.ofNat (0 + place + 1), true⟩ := by
    rw [Nat.zero_add]
    exact enumerates place name value listed
  refine ⟨_, numbered place name value listed, ?_⟩
  refine (static_foldl_withConstant 0 _ numbered (by omega) ?_).1 place name value listed
  simpa [beginInitialization] using inside

end Store

/-! ## Instructions -/

def Instruction.loads? (program : Program) (instruction : Instruction) (thread : Thread) :
    Option ClassId :=
  match instruction.opcode, (program.moduleOf thread.moduleId).classRef instruction.index with
  | .loadClass, .ok id => some id
  | _, _ => none

theorem Instruction.loads?_congr {program : Program} {instruction : Instruction}
    {thread other : Thread} (same : other.moduleId = thread.moduleId) :
    instruction.loads? program other = instruction.loads? program thread := by
  rw [loads?, loads?, same]

def Thread.entersInitializerOf? (before after : Thread) : Option ClassId :=
  match after.frame with
  | .method declaring _ .initializer =>
    if before.calls.size < after.calls.size then some declaring else none
  | _ => none

def Thread.withClass (id : ClassId) (thread : Thread) : Thread :=
  { thread with stack := { thread.stack with slots := thread.stack.slots.push (.classRef id) } }

namespace Step

variable {setup : Setup} {scene next : Scene}

theorem moduleRecord_eq_ok :
    moduleRecord setup scene = .ok (setup.program.moduleOf scene.thread.moduleId) scene :=
  rfl

theorem require_eq_ok {result : Except Fault α} {value : α}
    (h : require result setup scene = .ok value next) : result = .ok value ∧ scene = next := by
  cases result with
  | error fault => exact absurd h throw_ne_ok
  | ok found =>
      obtain ⟨rfl, rfl⟩ := pure_eq_ok_iff.mp h
      exact ⟨rfl, rfl⟩

/-- The class of an initializer is the one that declares it. -/
theorem declaring_of_initializerOf {program : Program} {id : ClassId} {key : MethodKey}
    {entry : MethodEntry} {address : Nat} {localCount : UInt16}
    (h : initializerOf program id = some (key, entry, address, localCount)) :
    entry.declaring = id := by
  obtain ⟨name, -, h⟩ := Option.bind_eq_some_iff.mp h
  obtain ⟨found, -, h⟩ := Option.bind_eq_some_iff.mp h
  split at h
  · split at h
    · next own =>
        obtain ⟨-, rfl, -⟩ := by simpa using h
        exact own
    · cases h
  · cases h

theorem storeConstants_eq_ok {id : ClassId} {info : ClassDef} {answer : Unit}
    (h : storeConstants id info setup scene = .ok answer next) :
    next = { scene with world := { scene.world with
      store := info.enumValues.foldl (Store.withConstant id info) scene.world.store } } := by
  unfold storeConstants at h
  generalize info.enumValues = constants at h ⊢
  induction constants generalizing scene with
  | nil =>
      obtain ⟨-, rfl⟩ := pure_eq_ok_iff.mp h
      rfl
  | cons constant rest ih =>
      obtain ⟨_, middle, first, h⟩ := bind_eq_ok_iff.mp h
      have stored : middle = { scene with world := { scene.world with
          store := Store.withConstant id info scene.world.store constant } } := by
        obtain ⟨name, value⟩ := constant
        dsimp only at first
        unfold Store.withConstant
        cases found : info.field? name with
        | some field =>
            rw [found] at first
            cases first
            rfl
        | none =>
            rw [found] at first
            cases first
            rfl
      rw [ih h, stored]
      rfl

inductive Loads (setup : Setup) (scene : Scene) (id : ClassId) (next : Scene) : Prop
  /-- The class has been loaded before. -/
  | again :
      scene.world.store.IsMarked id →
      next = { scene with thread := scene.thread.withClass id } →
      Loads setup scene id next
  /-- The class has no static initializer of its own. -/
  | first :
      ¬ scene.world.store.IsMarked id → initializerOf setup.program id = none →
      next.thread = scene.thread.withClass id →
      next.world.store = scene.world.store.loaded id (setup.program.catalog.get id) →
      Loads setup scene id next
  | enters {key : MethodKey} :
      ¬ scene.world.store.IsMarked id → (initializerOf setup.program id).isSome →
      next.thread.calls.size = scene.thread.calls.size + 1 →
      next.thread.frame = .method id key .initializer →
      next.world.store = scene.world.store.loaded id (setup.program.catalog.get id) →
      Loads setup scene id next

theorem initializeClass_eq_ok {id : ClassId} {resumeIp : Nat} {entered : Bool}
    (h : initializeClass id resumeIp setup scene = .ok entered next) :
    (entered = false ∧ scene.world.store.IsMarked id ∧ next = scene) ∨
    ¬ scene.world.store.IsMarked id ∧
      next.world.store = scene.world.store.loaded id (setup.program.catalog.get id) ∧
      ((entered = false ∧ initializerOf setup.program id = none ∧
          next.thread = scene.thread) ∨
        (entered = true ∧ (initializerOf setup.program id).isSome ∧
          next.thread.calls.size = scene.thread.calls.size + 1 ∧
          ∃ key, next.thread.frame = .method id key .initializer)) := by
  obtain ⟨_, _, hg, h⟩ := bind_eq_ok_iff.mp h
  obtain ⟨rfl, rfl⟩ := get_eq_ok_iff.mp hg
  split at h
  · next marked =>
      obtain ⟨rfl, rfl⟩ := pure_eq_ok_iff.mp h
      exact .inl ⟨rfl, marked, rfl⟩
  · next unmarked =>
      obtain ⟨_, _, hp, h⟩ := bind_eq_ok_iff.mp h
      obtain ⟨rfl, rfl⟩ := program_eq_ok_iff.mp hp
      obtain ⟨_, _, hs, h⟩ := bind_eq_ok_iff.mp h
      cases hs
      obtain ⟨_, middle, hc, h⟩ := bind_eq_ok_iff.mp h
      have stored := storeConstants_eq_ok hc
      refine .inr ⟨unmarked, ?_⟩
      cases hi : initializerOf setup.program id with
      | none =>
          rw [hi] at h
          obtain ⟨rfl, rfl⟩ := pure_eq_ok_iff.mp h
          rw [stored]
          exact ⟨rfl, .inl ⟨rfl, rfl, rfl⟩⟩
      | some initializer =>
          obtain ⟨key, entry, address, localCount⟩ := initializer
          rw [hi] at h
          obtain ⟨_, _, hv, h⟩ := bind_eq_ok_iff.mp h
          obtain ⟨room, rfl⟩ := push_eq_ok hv
          obtain ⟨_, _, he, h⟩ := bind_eq_ok_iff.mp h
          obtain ⟨rfl, rfl⟩ := pure_eq_ok_iff.mp h
          obtain ⟨-, enough, stack, reserved, rfl⟩ := enterFrame_eq_ok he
          rw [stored, declaring_of_initializerOf hi]
          exact ⟨rfl, .inr ⟨rfl, rfl, Array.size_push _, key, rfl⟩⟩

theorem loadClass_eq_ok {index : UInt32} {offset : Nat} {answer : Unit}
    (h : loadClass index offset setup scene = .ok answer next) :
    ∃ id, (setup.program.moduleOf scene.thread.moduleId).classRef index = .ok id ∧
      Loads setup scene id next := by
  unfold loadClass at h
  rw [bind_of_ok moduleRecord_eq_ok] at h
  obtain ⟨id, _, hr, h⟩ := bind_eq_ok_iff.mp h
  obtain ⟨named, rfl⟩ := require_eq_ok hr
  obtain ⟨entered, middle, hi, pushed⟩ := bind_eq_ok_iff.mp h
  refine ⟨id, named, ?_⟩
  rcases initializeClass_eq_ok hi with ⟨rfl, marked, rfl⟩ |
    ⟨unmarked, stored, ⟨rfl, none, same⟩ | ⟨rfl, some, size, key, frame⟩⟩
  · obtain ⟨-, rfl⟩ := push_eq_ok pushed
    exact .again marked rfl
  · obtain ⟨-, rfl⟩ := push_eq_ok pushed
    exact .first unmarked none (by rw [← same]; rfl) stored
  · obtain ⟨-, rfl⟩ := pure_eq_ok_iff.mp pushed
    exact .enters unmarked some size frame stored

/-- An instruction that loads a class does one of three things. -/
theorem execute_loads {instruction : Instruction} {signal : Signal}
    (h : execute instruction setup scene = .ok signal next)
    (loads : instruction.opcode = .loadClass) :
    ∃ id, instruction.loads? setup.program scene.thread = some id ∧
      Loads setup scene id next := by
  unfold execute at h
  rw [loads] at h
  obtain ⟨_, _, ran, asked⟩ := bind_eq_ok_iff.mp h
  obtain ⟨rfl, rfl⟩ := pure_eq_ok_iff.mp asked
  obtain ⟨id, found, loaded⟩ := loadClass_eq_ok ran
  refine ⟨id, ?_, loaded⟩
  unfold Instruction.loads?
  rw [loads, found]

theorem opcode_of_loads? {program : Program} {instruction : Instruction} {thread : Thread}
    {id : ClassId} (h : instruction.loads? program thread = some id) :
    instruction.opcode = .loadClass := by
  unfold Instruction.loads? at h
  split at h
  · next loads _ => exact loads
  · cases h

/-- The first load of a class stores its constants. -/
theorem execute_stores {instruction : Instruction} {signal : Signal} {id : ClassId}
    (h : execute instruction setup scene = .ok signal next)
    (loads : instruction.loads? setup.program scene.thread = some id)
    (unmarked : ¬ scene.world.store.IsMarked id) :
    next.world.store = scene.world.store.loaded id (setup.program.catalog.get id) := by
  obtain ⟨other, found, loaded⟩ := execute_loads h (opcode_of_loads? loads)
  obtain rfl := Option.some.inj (loads.symm.trans found)
  cases loaded with
  | again marked _ => exact absurd marked unmarked
  | first _ _ _ stored => exact stored
  | enters _ _ _ _ stored => exact stored

/-- A class that has been loaded before is pushed if there is room for it. -/
theorem execute_of_isMarked {instruction : Instruction} {id : ClassId}
    (loads : instruction.loads? setup.program scene.thread = some id)
    (marked : scene.world.store.IsMarked id)
    (room : scene.thread.stack.depth < scene.thread.stack.limit) :
    execute instruction setup scene =
      .ok .proceed { scene with thread := scene.thread.withClass id } := by
  have opcode := opcode_of_loads? loads
  unfold Instruction.loads? at loads
  rw [opcode] at loads
  split at loads
  · next named _ found =>
      cases loads
      have resolves : require ((setup.program.moduleOf scene.thread.moduleId).classRef
          instruction.index) setup scene = .ok id scene := by
        rw [found]
        rfl
      have skips : initializeClass id instruction.offset setup scene = .ok false scene := by
        refine (bind_of_ok (get_eq_ok_iff.mpr ⟨rfl, rfl⟩)).trans ?_
        exact congrFun (congrFun (if_pos marked) setup) scene
      have pushes : push (.classRef id) setup scene =
          .ok () { scene with thread := scene.thread.withClass id } := by
        exact onStack_eq_ok_iff.mpr ⟨_, if_neg (Nat.not_le.mpr room), rfl⟩
      have runs : loadClass instruction.index instruction.offset setup scene =
          .ok () { scene with thread := scene.thread.withClass id } := by
        unfold loadClass
        rw [bind_of_ok (moduleRecord_eq_ok), bind_of_ok resolves, bind_of_ok skips]
        exact pushes
      unfold execute
      rw [opcode]
      exact bind_of_ok runs
  · cases loads

/-! ## Marks -/

def MarksNone (step : Step α) : Prop :=
  ∀ (setup : Setup) (scene next : Scene) (answer : α), step setup scene = .ok answer next →
    next.world.store.latches = scene.world.store.latches

namespace MarksNone

theorem of_pure (value : α) : MarksNone (pure value) := by
  intro setup scene next answer h
  obtain ⟨-, rfl⟩ := pure_eq_ok_iff.mp h
  rfl

theorem of_throw (fault : Fault) : MarksNone (throw fault : Step α) :=
  fun _ _ _ _ h => absurd h throw_ne_ok

theorem bind {step : Step α} {following : α → Step β} (h : MarksNone step)
    (hf : ∀ value, MarksNone (following value)) : MarksNone (step >>= following) := by
  intro setup scene next answer hr
  obtain ⟨value, middle, hs, hr⟩ := bind_eq_ok_iff.mp hr
  exact (hf value _ _ _ _ hr).trans (h _ _ _ _ hs)

theorem of_native (facade : Facade) (operation : Store → Except String (α × Store))
    (keeps : ∀ store answer after, operation store = .ok (answer, after) →
      after.latches = store.latches) : MarksNone (native facade operation) := by
  intro setup scene next answer hr
  unfold native at hr
  obtain ⟨_, _, hg, hr⟩ := bind_eq_ok_iff.mp hr
  obtain ⟨rfl, rfl⟩ := get_eq_ok_iff.mp hg
  cases done : operation scene.world.store with
  | ok answered =>
      rw [done] at hr
      cases hr
      exact keeps _ _ _ done
  | error problem =>
      rw [done] at hr
      cases hr

theorem of_ordinary {step : Step α} (h : Ordinary step) : MarksNone step := by
  induction h with
  | of_pure value => exact of_pure value
  | of_throw fault => exact of_throw fault
  | bind _ _ ih ihn => exact bind ih ihn
  | of_native facade operation keeps => exact of_native facade operation keeps
  | of_onStack operation =>
      intro setup scene next answer hr
      obtain ⟨stack, -, rfl⟩ := onStack_eq_ok_iff.mp hr
      rfl
  | of_change change keeps =>
      intro setup scene next answer hr
      cases hr
      exact keeps scene.world.store
  | of_read | of_ofThread | of_ofStore | of_onThread =>
      intro setup scene next answer hr
      cases hr
      rfl

theorem of_get : MarksNone get := by
  intro setup scene next answer hr
  cases hr
  rfl

theorem of_onHeld (change : List MonitorKey → List MonitorKey) : MarksNone (onHeld change) := by
  intro setup scene next answer hr
  cases hr
  rfl

theorem of_setState (state : ThreadState) : MarksNone (setState state) :=
  of_ordinary (.of_onThread _)

theorem of_sleep : MarksNone sleep := by
  refine bind (of_ordinary .of_pop) fun value => ?_
  split
  · exact of_throw _
  · exact of_get.bind fun scene => (of_setState _).bind fun _ => of_pure _

theorem of_wait : MarksNone wait := by
  refine bind (of_ordinary .of_pop) fun target =>
    (of_ordinary (.of_monitorKey _ target)).bind fun key => of_get.bind fun scene => ?_
  split
  · exact (of_setState _).bind fun _ => of_pure _
  · exact (of_onHeld _).bind fun _ => of_pure _

theorem of_signal : MarksNone signal := by
  refine bind (of_ordinary .of_pop) fun target =>
    (of_ordinary (.of_monitorKey _ target)).bind fun key => of_get.bind fun scene => ?_
  split
  · exact of_onHeld _
  · exact bind (of_ordinary (.of_describe _)) fun _ => of_throw _

/-- Only `loadclass` marks classes. -/
theorem of_execute {instruction : Instruction} (other : instruction.opcode ≠ .loadClass) :
    MarksNone (execute instruction) := by
  cases ordinary : instruction.opcode.isOrdinary with
  | true => exact of_ordinary (.of_execute ordinary)
  | false =>
      unfold execute
      dsimp only
      cases opcode : instruction.opcode with
      | loadClass => exact absurd opcode other
      | sleep => exact of_sleep
      | wait => exact of_wait
      | signal => exact of_signal.bind fun _ => of_pure _
      | _ =>
          rw [opcode] at ordinary
          cases ordinary

end MarksNone

theorem setIfInBounds_of_getElem? {items : Array α} {place : Nat} {item : α}
    (there : items[place]? = some item) : items.setIfInBounds place item = items := by
  apply Array.ext_getElem?
  intro other
  rw [Array.getElem?_setIfInBounds]
  split
  · next same => rw [← same, there, if_pos (Array.getElem?_eq_some_iff.mp there).1]
  · rfl

/-- An instruction marks the class that it loads. -/
theorem execute_latches {instruction : Instruction} {signal : Signal}
    (h : execute instruction setup scene = .ok signal next) :
    next.world.store.latches =
      match instruction.loads? setup.program scene.thread with
      | some id => scene.world.store.latches.setIfInBounds id.index true
      | none => scene.world.store.latches := by
  by_cases loads : instruction.opcode = .loadClass
  · obtain ⟨id, found, loaded⟩ := execute_loads h loads
    rw [found]
    cases loaded with
    | again marked same =>
        rw [same]
        exact (setIfInBounds_of_getElem? (Store.isMarked_iff.mp marked)).symm
    | first _ _ _ stored => exact stored ▸ Store.latches_loaded _ _ _
    | enters _ _ _ _ stored => exact stored ▸ Store.latches_loaded _ _ _
  · rw [MarksNone.of_execute loads _ _ _ _ h]
    split
    · next id found => exact absurd (opcode_of_loads? found) loads
    · rfl

end Step

/-! ## Frames of initializers -/

namespace Thread

variable {thread : Thread}

theorem calls_enterFinally (exit : ExitAction) :
    (thread.enterFinally exit).calls = thread.calls := by
  unfold enterFinally
  split <;> rfl

theorem calls_branchTo (target : Nat) : (thread.branchTo target).calls = thread.calls := by
  unfold branchTo
  split
  · split
    · rfl
    · exact calls_enterFinally _
  · rfl

theorem calls_branched (target : Option Nat) : (thread.branched target).calls = thread.calls := by
  cases target with
  | none => rfl
  | some target => exact calls_branchTo target

theorem Returns.calls_size {form : ReturnForm} {after : Registers} {signal : Signal}
    (h : thread.Returns form after signal) : after.calls.size ≤ thread.calls.size := by
  cases h with
  | deferred _ => exact Nat.le_of_eq (congrArg Array.size (calls_enterFinally _))
  | left _ _ => exact Nat.le_refl _
  | popped _ _ =>
      change thread.calls.pop.size ≤ _
      rw [Array.size_pop]
      exact Nat.sub_le _ _

theorem calls_size_rewind (record : TryRecord) :
    (thread.rewind record).calls.size ≤ thread.calls.size := by
  change (thread.calls.shrink record.callDepth).size ≤ _
  rw [Array.size_shrink]
  exact Nat.min_le_right _ _

theorem Raises.calls_size {exception : Value} {after : Registers}
    (h : thread.Raises exception after) : after.calls.size ≤ thread.calls.size := by
  cases h with
  | caught _ _ _ => exact calls_size_rewind _
  | passed _ _ => exact calls_size_rewind _

theorem CarriesOut.calls_size {exit : ExitAction} {after : Registers} {signal : Signal}
    (h : thread.CarriesOut exit after signal) : after.calls.size ≤ thread.calls.size := by
  cases exit with
  | fallThrough => exact h.1 ▸ Nat.le_refl _
  | ret | retValue | retConstructor => exact Returns.calls_size h
  | branch target => exact h.1 ▸ Nat.le_of_eq (congrArg Array.size (calls_branchTo target))
  | rethrow exception => exact h.1.calls_size

/-- Only calls make the calls deeper. -/
theorem Moves.calls_size {setup : Setup} {instruction : Instruction} {after : Registers}
    {signal : Signal} (h : thread.Moves setup instruction after signal)
    (deeper : thread.calls.size < after.calls.size) :
    instruction.opcode = .call ∨ instruction.opcode = .invoke ∨
      instruction.opcode = .loadClass := by
  by_contra other
  refine absurd deeper (Nat.not_lt.mpr ?_)
  unfold Moves at h
  cases opcode : instruction.opcode with
  | call | invoke | loadClass =>
      rw [opcode] at other
      exact absurd (by decide) other
  | jmp | jt | jf | jce | jcne | jcl | jcle | jcg | jcge | caseOf =>
      rw [opcode] at h
      rw [h]
      exact Nat.le_of_eq (congrArg Array.size (calls_branched _))
  | ret | retCtor =>
      rw [opcode] at h
      exact Returns.calls_size h
  | retVal =>
      rw [opcode] at h
      obtain ⟨value, returns⟩ := h
      exact returns.calls_size
  | leaveTry | leaveCatch =>
      rw [opcode] at h
      obtain ⟨record, -, -, rfl⟩ := h
      exact Nat.le_of_eq (congrArg Array.size (calls_enterFinally _))
  | leaveFinally =>
      rw [opcode] at h
      obtain ⟨record, exit, -, -, out⟩ := h
      have left := CarriesOut.calls_size out
      exact left
  | raise =>
      rw [opcode] at h
      obtain ⟨exception, raises⟩ := h
      exact raises.calls_size
  | reraise =>
      rw [opcode] at h
      obtain ⟨record, exception, current, phase, rfl⟩ := h
      exact (raises_of_reraise current phase).calls_size
  | _ =>
      rw [opcode] at h
      rw [h]
      exact Nat.le_refl _

end Thread

namespace Step

variable {setup : Setup} {scene next : Scene}

theorem entersInitializerOf?_eq_some {before after : Thread} {id : ClassId}
    (h : before.entersInitializerOf? after = some id) :
    before.calls.size < after.calls.size ∧ ∃ key, after.frame = .method id key .initializer := by
  unfold Thread.entersInitializerOf? at h
  split at h
  · next declaring key frame =>
      split at h
      · next deeper =>
          cases h
          exact ⟨deeper, key, frame⟩
      · cases h
  · cases h

theorem callKind_ne_initializer (symbols : SymbolTable) (key : MethodKey) :
    callKind symbols key .normal ≠ .initializer := by
  unfold callKind
  dsimp only
  split <;> nofun

/-- Only a `loadclass` enters an initializer, which is that of the class. -/
theorem opcode_of_entersInitializerOf? {instruction : Instruction} {signal : Signal} {id : ClassId}
    (h : execute instruction setup scene = .ok signal next)
    (behind : scene.thread.ip = instruction.offset + instruction.size)
    (enters : scene.thread.entersInitializerOf? next.thread = some id) :
    instruction.opcode = .loadClass := by
  obtain ⟨deeper, key, frame⟩ := entersInitializerOf?_eq_some enters
  have calls := (execute_moves h).2.calls_size deeper
  obtain ⟨-, ⟨-, same⟩ | ⟨base, height, key', kind, convention, called⟩⟩ :=
    execute_called h behind calls
  · rw [same] at deeper
    exact absurd deeper (Nat.lt_irrefl _)
  · cases called with
    | native same =>
        have same : next.thread.calls = scene.thread.calls := congrArg Registers.calls same
        rw [same] at deeper
        exact absurd deeper (Nat.lt_irrefl _)
    | entered _ _ registers =>
        have current := congrArg Registers.frame registers
        change next.thread.frame = _ at current
        rw [frame] at current
        injection current with _ _ kind
        cases convention with
        | call => exact absurd kind.symm (callKind_ne_initializer _ _)
        | invoke => cases kind
        | loadClass loads => exact loads

/-- An instruction enters the initializer of a class if it is the first to load the class, and the
class has an initializer of its own. -/
theorem execute_entersInitializerOf? {instruction : Instruction} {signal : Signal}
    (h : execute instruction setup scene = .ok signal next)
    (behind : scene.thread.ip = instruction.offset + instruction.size) (id : ClassId) :
    scene.thread.entersInitializerOf? next.thread = some id ↔
      instruction.loads? setup.program scene.thread = some id ∧
        ¬ scene.world.store.IsMarked id ∧ (initializerOf setup.program id).isSome := by
  have stays {other : ClassId} (same : next.thread = scene.thread.withClass other) :
      scene.thread.entersInitializerOf? next.thread ≠ some id := by
    intro enters
    have deeper := (entersInitializerOf?_eq_some enters).1
    rw [same] at deeper
    exact Nat.lt_irrefl _ deeper
  by_cases loads : instruction.opcode = .loadClass
  · obtain ⟨other, found, loaded⟩ := execute_loads h loads
    rw [found]
    cases loaded with
    | again marked same =>
        refine ⟨fun enters => absurd enters (stays (by rw [same])), ?_⟩
        rintro ⟨wanted, unmarked, -⟩
        exact absurd (Option.some.inj wanted ▸ marked) unmarked
    | first unmarked none same stored =>
        refine ⟨fun enters => absurd enters (stays same), ?_⟩
        rintro ⟨wanted, -, some⟩
        rw [← Option.some.inj wanted, none] at some
        cases some
    | @enters key unmarked some size frame stored =>
        have entered : scene.thread.entersInitializerOf? next.thread = .some other := by
          unfold Thread.entersInitializerOf?
          rw [frame]
          exact if_pos (by omega)
        rw [entered]
        refine ⟨fun same => ?_, fun ⟨same, _⟩ => same⟩
        obtain rfl := Option.some.inj same
        exact ⟨rfl, unmarked, some⟩
  · refine ⟨fun enters => absurd (opcode_of_entersInitializerOf? h behind enters) loads, ?_⟩
    rintro ⟨found, -⟩
    exact absurd (opcode_of_loads? found) loads

end Step

end ObjectMachine
