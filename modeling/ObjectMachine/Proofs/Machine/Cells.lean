import ObjectMachine.Proofs.Machine.Invocations
import ObjectMachine.Proofs.Machine.Loading
import ObjectMachine.Proofs.Machine.Views
import ObjectMachine.Proofs.Program.Placement

/-!
# Cells of fields

A field of a class that is not native is kept in a cell: a slot of an object, or a slot that a class
has for itself. Reading a field reads its cell and writing it writes the cell, which changes no
other one. In a linked program the cells of different fields are different.
-/

namespace ObjectMachine

inductive Cell
  | ofObject (id : ObjectId) (slot : UInt32)
  | ofClass (id : ClassId) (slot : UInt32)
deriving DecidableEq, Repr

namespace Cell

def slot : Cell → UInt32
  | ofObject _ slot => slot
  | ofClass _ slot => slot

def get (store : Store) : Cell → Value
  | ofObject id slot => store.heap.field id slot
  | ofClass id slot => store.static id slot

def set (store : Store) (value : Value) : Cell → Store
  | ofObject id slot => { store with heap := store.heap.setField id slot value }
  | ofClass id slot => store.setStatic id slot value

def Inside (store : Store) : Cell → Prop
  | ofObject id _ => ∃ slots, store.heap.content? id = some (.fields slots)
  | ofClass id _ => id.index < store.statics.size

end Cell

/-! ## Reading and writing -/

namespace Heap

variable {heap : Heap} {id : ObjectId} {slots : Array Value}

theorem content?_setField (there : heap.content? id = some (.fields slots)) (slot : UInt32)
    (value : Value) :
    (heap.setField id slot value).content? id = some (.fields (writeSlot slots slot value)) := by
  simp only [content?] at there
  simp [content?, setField, Array.getElem?_modify, there]

theorem content?_setField_of_ne {other : ObjectId} (apart : other ≠ id) (slot : UInt32)
    (value : Value) : (heap.setField id slot value).content? other = heap.content? other := by
  have places : id.index ≠ other.index := fun same => apart (congrArg ObjectId.mk same.symm)
  simp [content?, setField, Array.getElem?_modify, places]

end Heap

namespace Store

theorem static_setStatic_of_ne_class (store : Store) {id other : ClassId} (apart : other ≠ id)
    (slot : UInt32) (value : Value) :
    (store.setStatic id slot value).staticsOf other = store.staticsOf other := by
  have places : id.index ≠ other.index := fun same => apart (congrArg ClassId.mk same.symm)
  simp [staticsOf, setStatic, Array.getD_eq_getD_getElem?, Array.getElem?_modify, places]

end Store

namespace Cell

variable {store : Store} {cell other : Cell}

theorem get_set_self (inside : cell.Inside store) (some : cell.slot ≠ 0) (value : Value) :
    cell.get (cell.set store value) = value := by
  cases cell with
  | ofObject id slot =>
      obtain ⟨slots, there⟩ := inside
      have after := Heap.content?_setField there slot value
      show (store.heap.setField id slot value).field id slot = value
      rw [Heap.field, after]
      exact Heap.readSlot_writeSlot_self some
  | ofClass id slot => exact Store.static_setStatic_self inside some value

theorem get_set_of_ne (inside : cell.Inside store) (apart : other ≠ cell) (value : Value) :
    other.get (cell.set store value) = other.get store := by
  cases cell with
  | ofObject id slot =>
      cases other with
      | ofClass => rfl
      | ofObject id' slot' =>
          obtain ⟨slots, there⟩ := inside
          show (store.heap.setField id slot value).field id' slot' = store.heap.field id' slot'
          by_cases same : id' = id
          · subst same
            have slots_apart : slot' ≠ slot := fun same => apart (same ▸ rfl)
            rw [Heap.field, Heap.content?_setField there, Heap.field, there]
            exact Heap.readSlot_writeSlot_of_ne slots_apart
          · rw [Heap.field, Heap.content?_setField_of_ne same, Heap.field]
  | ofClass id slot =>
      cases other with
      | ofObject => rfl
      | ofClass id' slot' =>
          show (store.setStatic id slot value).static id' slot' = store.static id' slot'
          by_cases same : id' = id
          · subst same
            have slots_apart : slot' ≠ slot := fun same => apart (same ▸ rfl)
            exact Store.static_setStatic_of_ne inside slots_apart value
          · rw [Store.static, Store.static, Store.static_setStatic_of_ne_class store same]

end Cell

def Scene.setStatic (scene : Scene) (id : ClassId) (slot : UInt32) (value : Value) : Scene :=
  { scene with world := { scene.world with store := scene.world.store.setStatic id slot value } }

/-- The cell of a field of a class for a value of that class. One of an instance needs an
instance. -/
def FieldSlot.cell? (field : FieldSlot) (id : ClassId) (target : Value) : Option Cell :=
  match field.isStatic, target with
  | true, _ => some (.ofClass id field.slot)
  | false, .object _ object => some (.ofObject object field.slot)
  | false, _ => none

/-- The cell of the field that a name means for a value, if its class has one and is not native. -/
def Catalog.cell? (catalog : Catalog) (target : Value) (name : Symbol) : Option Cell :=
  match target.class? with
  | none => none
  | some id =>
    if (catalog.get id).facade.isSome then none
    else ((catalog.get id).field? name).bind fun field => field.cell? id target

theorem Catalog.cell?_eq_some_iff {catalog : Catalog} {target : Value} {name : Symbol}
    {cell : Cell} : catalog.cell? target name = some cell ↔ ∃ id field,
      target.class? = some id ∧ (catalog.get id).facade = none ∧
        (catalog.get id).field? name = some field ∧ field.cell? id target = some cell := by
  unfold Catalog.cell?
  cases target.class? with
  | none => simp
  | some id =>
      cases native : (catalog.get id).facade with
      | some facade => simp [native]
      | none => simp [native, Option.bind_eq_some_iff]

namespace Step

def answer (step : Step α) (setup : Setup) (scene : Scene) : Except Fault α :=
  match step setup scene with
  | .ok result _ => .ok result
  | .error fault _ => .error fault

variable {setup : Setup} {target : Value} {name : Symbol} {cell : Cell}

theorem answer_of_ok {step : Step α} {scene next : Scene} {result : α}
    (h : step setup scene = .ok result next) : answer step setup scene = .ok result := by
  rw [answer, h]

theorem program_eq (setup : Setup) (scene : Scene) :
    program setup scene = .ok setup.program scene :=
  rfl

theorem memberClass_eq_ok {id : ClassId} (h : target.class? = some id) (text : String)
    (scene : Scene) : memberClass text target setup scene = .ok id scene := by
  rw [memberClass_of_class? h]
  rfl

theorem fieldSlot_of_cell? {info : ClassDef} {field : FieldSlot}
    (found : info.field? name = some field) {id : ClassId} (h : field.cell? id target = some cell)
    (scene : Scene) : fieldSlot info target name setup scene = .ok field scene := by
  unfold fieldSlot
  rw [found]
  dsimp only
  unfold FieldSlot.cell? at h
  split at h
  · next static =>
      rw [static]
      rfl
  · next own =>
      rw [own]
      rfl
  · cases h

theorem readField_of_cell? (h : setup.program.catalog.cell? target name = some cell)
    (scene : Scene) :
    readField target name setup scene = .ok (cell.get scene.world.store) scene := by
  obtain ⟨id, field, seen, plain, found, own⟩ := Catalog.cell?_eq_some_iff.mp h
  unfold readField
  refine (bind_of_ok (program_eq setup scene)).trans
    ((bind_of_ok (memberClass_eq_ok seen _ scene)).trans ?_)
  rw [plain]
  refine (bind_of_ok (fieldSlot_of_cell? found own scene)).trans ?_
  unfold FieldSlot.cell? at own
  split at own
  · next static =>
      cases own
      rw [static]
      rfl
  · next instanceField =>
      cases own
      rw [instanceField]
      rfl
  · cases own

theorem writeField_of_cell? (h : setup.program.catalog.cell? target name = some cell)
    (value : Value) (scene : Scene) :
    writeField target name value setup scene = .ok ()
      { scene with world := { scene.world with store := cell.set scene.world.store value } } := by
  obtain ⟨id, field, seen, plain, found, own⟩ := Catalog.cell?_eq_some_iff.mp h
  unfold writeField
  refine (bind_of_ok (program_eq setup scene)).trans
    ((bind_of_ok (memberClass_eq_ok seen _ scene)).trans ?_)
  rw [plain]
  refine (bind_of_ok (fieldSlot_of_cell? found own scene)).trans ?_
  unfold FieldSlot.cell? at own
  split at own
  · next static =>
      cases own
      rw [static]
      rfl
  · next instanceField =>
      cases own
      rw [instanceField]
      rfl
  · cases own

theorem answer_bind_of_ok {step : Step α} {following : α → Step β} {scene next : Scene}
    {result : α} (h : step setup scene = .ok result next) :
    answer (step >>= following) setup scene = answer (following result) setup next := by
  rw [answer, answer, bind_of_ok h]

theorem answer_native {facade : Facade} {operation : Store → Except String (α × Store)}
    {scene : Scene} : answer (native facade operation) setup scene =
      match operation scene.world.store with
      | .ok (result, _) => .ok result
      | .error problem => .error (.facade facade.typeName problem) := by
  have looks : (get : Step Scene) setup scene = .ok scene scene := rfl
  unfold native
  refine (answer_bind_of_ok looks).trans ?_
  dsimp only
  cases operation scene.world.store <;> rfl

/-- What a native class answers does not depend on the static fields of other classes. -/
theorem answer_operate_setStatic {facade : Facade} {object : Option ObjectId}
    {operation : Native α} {scene : Scene} (id : ClassId) (slot : UInt32) (value : Value) :
    answer (native facade fun store => store.operate facade object operation) setup
      (scene.setStatic id slot value) =
      answer (native facade fun store => store.operate facade object operation) setup scene := by
  rw [answer_native, answer_native]
  show (match (scene.world.store.setStatic id slot value).operate facade object operation with
    | .ok (result, _) => Except.ok result
    | .error problem => .error (Fault.facade facade.typeName problem)) = _
  have scope : (scene.world.store.setStatic id slot value).scopeOf facade object =
      scene.world.store.scopeOf facade object := rfl
  unfold Store.operate
  dsimp only
  rw [scope]
  cases scene.world.store.scopeOf facade object with
  | error problem => rfl
  | ok known =>
      simp only [bind, Except.bind]
      cases operation.run known <;> rfl

/-- A field of a class is found or missing whatever the scene is. -/
theorem fieldSlot_total (setup : Setup) (info : ClassDef) (target : Value) (name : Symbol) :
    (∃ field, ∀ scene, fieldSlot info target name setup scene = .ok field scene) ∨
      ∃ fault, ∀ scene, fieldSlot info target name setup scene = .error fault scene := by
  unfold fieldSlot
  cases info.field? name with
  | none => exact .inr ⟨_, fun _ => rfl⟩
  | some field =>
      obtain ⟨slot, isStatic⟩ := field
      cases isStatic with
      | true => exact .inl ⟨_, fun _ => rfl⟩
      | false =>
          cases target with
          | object => exact .inl ⟨_, fun _ => rfl⟩
          | _ => exact .inr ⟨_, fun _ => rfl⟩

def readMember (program : Program) (id : ClassId) (target : Value) (name : Symbol) : Step Value :=
  match (program.catalog.get id).facade with
  | some facade => do
    let object ← nativeTarget target
    native facade fun store => store.readNative facade object (program.symbols.name name)
  | none => do
    let field ← fieldSlot (program.catalog.get id) target name
    match field.isStatic, target with
    | false, .object _ object => pure ((← heap).field object field.slot)
    | _, _ => pure (((← get).world.store.staticsOf id).value field.slot)

theorem answer_readField {id : ClassId} (seen : target.class? = some id) (scene : Scene) :
    answer (readField target name) setup scene =
      answer (readMember setup.program id target name) setup scene :=
  (answer_bind_of_ok (program_eq setup scene)).trans
    (answer_bind_of_ok (memberClass_eq_ok seen _ scene))

/-- A write of a static field of a class changes nothing that is read through another class. -/
theorem answer_readField_setStatic {id other : ClassId} (seen : target.class? = some other)
    (apart : other ≠ id) (slot : UInt32) (value : Value) (scene : Scene) :
    answer (readField target name) setup (scene.setStatic id slot value) =
      answer (readField target name) setup scene := by
  rw [answer_readField seen, answer_readField seen, readMember]
  split
  · next facade native =>
      have looks : ∃ object, nativeTarget target setup scene = .ok object scene ∧
          nativeTarget target setup (scene.setStatic id slot value) =
            .ok object (scene.setStatic id slot value) := by
        cases target <;> exact ⟨_, rfl, rfl⟩
      obtain ⟨object, here, there⟩ := looks
      rw [answer_bind_of_ok here, answer_bind_of_ok there]
      exact answer_operate_setStatic id slot value
  · rcases fieldSlot_total setup (setup.program.catalog.get other) target name with
      ⟨field, found⟩ | ⟨fault, missing⟩
    · rw [answer_bind_of_ok (found _), answer_bind_of_ok (found _)]
      split
      · rfl
      · have same := Store.static_setStatic_of_ne_class scene.world.store apart slot value
        show Except.ok (((scene.world.store.setStatic id slot value).staticsOf other).value
          field.slot) = _
        rw [same]
        rfl
    · rw [answer, answer, bind_of_error (missing _), bind_of_error (missing _)]

end Step

/-! ## Fields of a linked program -/

/-- Whether a store has the static fields of all classes of a program, and an object with the slots
of one of the classes. -/
structure Store.Holds (program : Program) (origin : ClassId) (id : ObjectId) (store : Store) :
    Prop where
  statics : store.statics.size = program.catalog.classes.size
  object : ∃ slots, store.heap.content? id = some (.fields slots) ∧
    slots.size = (program.catalog.get origin).instanceFieldCount.toNat

namespace Store.Holds

variable {program : Program} {origin : ClassId} {id : ObjectId} {store : Store}

theorem newFields (program : Program) (origin : ClassId)
    (statics : store.statics.size = program.catalog.classes.size) :
    let count := (program.catalog.get origin).instanceFieldCount.toNat
    Holds program origin (store.heap.newFields count).1
      { store with heap := (store.heap.newFields count).2 } := by
  intro count
  refine ⟨statics, Array.replicate count .null, ?_, Array.size_replicate⟩
  simp [Heap.newFields, Heap.newObject, Heap.content?]

/-- Objects of a heap that is laid out as their classes say have the slots of their classes. -/
theorem of_intact {origins : List ClassId} (intact : store.heap.Intact program.catalog origins)
    (statics : store.statics.size = program.catalog.classes.size)
    (created : origins[id.index]? = some origin)
    (plain : (program.catalog.get origin).facade = none) : store.Holds program origin id := by
  have inside : id.index < store.heap.objects.size := by
    rw [intact.size]
    exact (List.getElem?_eq_some_iff.mp created).1
  have there := Array.getElem?_eq_getElem inside
  have houses := intact.objects id.index origin _ created there
  cases content : store.heap.objects[id.index] with
  | fields slots =>
      rw [content] at houses there
      exact ⟨statics, slots, there, houses.2.1⟩
  | native typeName slots =>
      rw [content] at houses
      obtain ⟨⟨facade, native, -⟩, -⟩ := houses
      rw [plain] at native
      cases native

end Store.Holds

namespace Step

variable {setup : Setup} {scene next : Scene}

/-- An object that is created is left on the stack, with the slots of its class. -/
theorem holds_of_new {index : UInt32} {origin : ClassId}
    (plain : (setup.program.catalog.get origin).facade = none)
    (statics : scene.world.store.statics.size = setup.program.catalog.classes.size)
    (named : (setup.program.moduleOf scene.thread.moduleId).classRef index = .ok origin)
    (creates : new index setup scene = .ok () next) :
    ∃ object, next.thread.stack.slots = scene.thread.stack.slots.push (.object origin object) ∧
      next.world.store.Holds setup.program origin object := by
  have given : require (.ok origin) setup scene = .ok origin scene := rfl
  unfold new at creates
  rw [bind_of_ok moduleRecord_eq_ok, named, bind_of_ok given, bind_of_ok (program_eq setup scene),
    plain] at creates
  obtain ⟨object, middle, makes, pushes⟩ := bind_eq_ok_iff.mp creates
  cases makes
  obtain ⟨-, rfl⟩ := push_eq_ok pushes
  exact ⟨_, rfl, .newFields setup.program origin statics⟩

/-- No instruction makes room for the static fields of another class. -/
theorem size_statics_of_execute {instruction : Instruction} {signal : Signal}
    (h : execute instruction setup scene = .ok signal next) :
    next.world.store.statics.size = scene.world.store.statics.size := by
  have size (store : Store) : store.latches.size = store.statics.size := Array.size_map
  rw [← size, ← size, execute_latches h]
  split
  · exact Array.size_setIfInBounds
  · rfl

/-- Whatever the instructions of a run do, the objects that they have created have the slots of
their classes, as long as no `super` strays. -/
theorem holds_of_execute {facades : List Facade} {origins : List ClassId}
    {instruction : Instruction} {signal : Signal} {id : ObjectId} {origin : ClassId}
    (laid : setup.program.catalog.Laid facades) (honest : ∀ facade ∈ facades, facade.Honest)
    (intact : scene.Intact setup.program.catalog origins)
    (statics : scene.world.store.statics.size = setup.program.catalog.classes.size)
    (runs : execute instruction setup scene = .ok signal next)
    (follows : ¬ (instruction.opcode = .super ∧ scene.Strays setup.program.catalog origins))
    (created : (origins ++ instruction.created setup scene next)[id.index]? = some origin)
    (plain : (setup.program.catalog.get origin).facade = none) :
    next.world.store.Holds setup.program origin id := by
  have reached := execute_reaches laid honest intact instruction
  rw [runs] at reached
  exact .of_intact (reached.mpr follows).store.heap ((size_statics_of_execute runs).trans statics)
    created plain

end Step

namespace Catalog

theorem hierarchyOnto_moveMethods (catalog : Catalog)
    (moved : MethodKey × MethodEntry → MethodKey × MethodEntry) (bound : Nat) (id : ClassId)
    (known : List ClassId) :
    (catalog.moveMethods moved).hierarchyOnto bound id known =
      catalog.hierarchyOnto bound id known := by
  induction bound generalizing id known with
  | zero => rfl
  | succ bound ih =>
      rw [hierarchyOnto, hierarchyOnto, get_moveMethods]
      dsimp only
      cases (catalog.get id).parent with
      | none => rfl
      | some parent =>
          dsimp only
          rw [ih]

theorem field?_moveMethods (catalog : Catalog)
    (moved : MethodKey × MethodEntry → MethodKey × MethodEntry) (id : ClassId) (name : Symbol) :
    ((catalog.moveMethods moved).get id).field? name = (catalog.get id).field? name := by
  rw [get_moveMethods]
  rfl

theorem owner?_moveMethods (catalog : Catalog)
    (moved : MethodKey × MethodEntry → MethodKey × MethodEntry) (name : Symbol) (id : ClassId) :
    (catalog.moveMethods moved).owner? name id = catalog.owner? name id := by
  have size : (catalog.moveMethods moved).classes.size = catalog.classes.size := Array.size_map
  simp only [owner?, hierarchy, size, hierarchyOnto_moveMethods, field?_moveMethods]

end Catalog

/-- Whether the fields of a class of a program are kept apart, and those that are seen through its
ancestors, the classes having been registered with fields of their own. -/
structure Program.KeepsApart (program : Program) (declared : Catalog) (origin : ClassId) :
    Prop where
  apart : ∀ name name' field field',
    (program.catalog.get origin).field? name = some field →
    (program.catalog.get origin).field? name' = some field' →
    name ≠ name' → field.isStatic = field'.isStatic → field.slot ≠ field'.slot
  within : ∀ name field, (program.catalog.get origin).field? name = some field →
    field.slot ≠ 0 ∧ field.slot.toNat ≤ if field.isStatic then
      (program.catalog.get origin).statics.slots.size
    else (program.catalog.get origin).instanceFieldCount.toNat
  /-- Two names mean one cell if and only if they mean one field. A class has all static fields of
  its ancestors for itself. -/
  eq_iff : ∀ view view' name name' object cell cell',
    program.catalog.Descends origin view → program.catalog.Descends origin view' →
    program.catalog.cell? (.object view object) name = some cell →
    program.catalog.cell? (.object view' object) name' = some cell' →
    (cell = cell' ↔ name = name' ∧ declared.owner? name view = declared.owner? name' view' ∧
      ∀ slot, cell = .ofClass view slot → view = view')
  inherited : ∀ view view' name object slot,
    program.catalog.Descends origin view' → program.catalog.Descends view' view →
    (∀ between, program.catalog.Descends view' between → program.catalog.Descends between view →
      between ≠ view → (declared.get between).field? name = none) →
    program.catalog.cell? (.object view object) name = some (.ofObject object slot) →
    program.catalog.cell? (.object view' object) name = some (.ofObject object slot)
  redeclared : ∀ view view' between name object cell cell',
    program.catalog.Descends origin view' → program.catalog.Descends view' between →
    program.catalog.Descends between view → between ≠ view →
    (declared.get between).field? name ≠ none →
    program.catalog.cell? (.object view object) name = some cell →
    program.catalog.cell? (.object view' object) name = some cell' → cell ≠ cell'
  created : ∀ (setup : Setup) (scene next : Scene) index, setup.program = program →
    scene.world.store.statics.size = program.catalog.classes.size →
    (program.moduleOf scene.thread.moduleId).classRef index = .ok origin →
    Step.new index setup scene = .ok () next →
    ∃ object, next.thread.stack.slots = scene.thread.stack.slots.push (.object origin object) ∧
      next.world.store.Holds program origin object
  written : ∀ (setup : Setup) (scene : Scene) view object name cell value,
    setup.program = program → scene.world.store.Holds program origin object →
    program.catalog.Descends origin view →
    program.catalog.cell? (.object view object) name = some cell →
    ∃ next, Step.writeField (.object view object) name value setup scene = .ok () next ∧
      next.world.store.Holds program origin object ∧
      (Step.readField (.object view object) name).answer setup next = .ok value ∧
      ∀ view' name' cell', program.catalog.Descends origin view' →
        program.catalog.cell? (.object view' object) name' = some cell' → cell' ≠ cell →
        (Step.readField (.object view' object) name').answer setup next =
          (Step.readField (.object view' object) name').answer setup scene

namespace Program

section

variable {notInherited : List Symbol} {start : Catalog} {program : Program}
  (inherited : start.Inherited notInherited program.catalog) (orderly : start.Orderly)
  (fit : program.catalog.SlotsFit) {facades : List Facade}
  (laid : program.catalog.Laid facades) {origin : ClassId}
  (inside : origin.index < start.classes.size)
  (plain : (program.catalog.get origin).facade = none)

include laid plain in
theorem plain_of_descends {view : ClassId} (descends : program.catalog.Descends origin view) :
    (program.catalog.get view).facade = none := by
  induction descends with
  | refl => exact plain
  | tail _ next _ => exact (laid.parents _ _ next).2.2

theorem exists_field_of_cell? {view : ClassId} {object : ObjectId} {name : Symbol} {cell : Cell}
    (h : program.catalog.cell? (.object view object) name = some cell) :
    ∃ field, (program.catalog.get view).field? name = some field ∧
      cell = if field.isStatic then .ofClass view field.slot else .ofObject object field.slot := by
  obtain ⟨id, field, seen, -, found, own⟩ := Catalog.cell?_eq_some_iff.mp h
  cases seen
  refine ⟨field, found, ?_⟩
  unfold FieldSlot.cell? at own
  cases kind : field.isStatic with
  | true =>
      rw [kind] at own
      exact (Option.some.inj own).symm
  | false =>
      rw [kind] at own
      exact (Option.some.inj own).symm

include inherited orderly fit laid inside plain

/-- Two fields that are seen through ancestors are in one cell if and only if they are one field,
and seen through the same class if it is static. -/
theorem cell_eq_iff {view view' : ClassId} {object : ObjectId} {name name' : Symbol}
    {cell cell' : Cell} (descends : program.catalog.Descends origin view)
    (descends' : program.catalog.Descends origin view')
    (here : program.catalog.cell? (.object view object) name = some cell)
    (there : program.catalog.cell? (.object view' object) name' = some cell') :
    cell = cell' ↔ name = name' ∧ start.owner? name view = start.owner? name' view' ∧
      ∀ slot, cell = .ofClass view slot → view = view' := by
  obtain ⟨field, found, rfl⟩ := exists_field_of_cell? here
  obtain ⟨field', found', rfl⟩ := exists_field_of_cell? there
  have each (other : ClassId) (descends : program.catalog.Descends origin other) :=
    plain_of_descends laid plain descends
  have slots := inherited.slot_eq_iff orderly fit inside each descends descends' found found'
  obtain ⟨owner, -, own, places⟩ := inherited.exists_places orderly fit inside descends found
  obtain ⟨owner', -, own', places'⟩ := inherited.exists_places orderly fit inside descends' found'
  constructor
  · intro same
    cases kind : field.isStatic with
    | true =>
        cases kind' : field'.isStatic with
        | true =>
            rw [kind, kind', if_pos rfl, if_pos rfl, Cell.ofClass.injEq] at same
            obtain ⟨name, owner⟩ := (slots (kind.trans kind'.symm)).mp same.2
            exact ⟨name, owner, fun _ _ => same.1⟩
        | false => simp [kind, kind'] at same
    | false =>
        cases kind' : field'.isStatic with
        | true => simp [kind, kind'] at same
        | false =>
            simp only [kind, kind', Bool.false_eq_true, if_false, Cell.ofObject.injEq,
              true_and] at same
            obtain ⟨name, owner⟩ := (slots (kind.trans kind'.symm)).mp same
            exact ⟨name, owner, by simp⟩
  · rintro ⟨rfl, same, alike⟩
    have kinds : field.isStatic = field'.isStatic := by
      rw [own, own', Option.some.injEq] at same
      subst same
      exact places.kind_eq places'
    have slot := (slots kinds).mpr ⟨rfl, same⟩
    rw [← kinds, slot]
    cases kind : field.isStatic with
    | true =>
        rw [if_pos rfl, if_pos rfl, alike field.slot (by rw [kind, if_pos rfl])]
    | false => rfl

theorem cell_inside {view : ClassId} {object : ObjectId} {name : Symbol} {cell : Cell}
    (descends : program.catalog.Descends origin view)
    (here : program.catalog.cell? (.object view object) name = some cell) {store : Store}
    (holds : store.Holds program origin object) :
    cell.Inside store ∧ cell.slot ≠ 0 ∧
      ∀ value, (cell.set store value).Holds program origin object := by
  obtain ⟨field, found, rfl⟩ := exists_field_of_cell? here
  have within := inherited.lt_size_of_descends orderly inside descends
  obtain ⟨positive, room⟩ := inherited.slot_within orderly fit within
    (fun other beneath => plain_of_descends laid plain (descends.trans beneath)) found
  obtain ⟨statics, slots, there, size⟩ := holds
  cases kind : field.isStatic with
  | true =>
      rw [if_pos rfl]
      refine ⟨?_, positive, fun value => ⟨?_, slots, there, size⟩⟩
      · show view.index < store.statics.size
        rw [statics, inherited.size]
        exact within
      · exact Array.size_modify.trans statics
  | false =>
      rw [kind, if_neg Bool.false_ne_true] at room
      rw [if_neg Bool.false_ne_true]
      have count := UInt32.le_iff_toNat_le.mp (laid.count_le descends)
      refine ⟨⟨slots, there⟩, positive, fun value =>
        ⟨statics, _, Heap.content?_setField there field.slot value, ?_⟩⟩
      rw [Heap.size_writeSlot (by omega) value]
      exact size

/-- A field that no class below an ancestor declares again is in the same cell there. -/
theorem cell?_of_undeclared {view view' : ClassId} {object : ObjectId} {name : Symbol}
    {slot : UInt32} (descends : program.catalog.Descends origin view')
    (beneath : program.catalog.Descends view' view)
    (undeclared : ∀ between, program.catalog.Descends view' between →
      program.catalog.Descends between view → between ≠ view →
      (start.get between).field? name = none)
    (here : program.catalog.cell? (.object view object) name = some (.ofObject object slot)) :
    program.catalog.cell? (.object view' object) name = some (.ofObject object slot) := by
  have within := inherited.lt_size_of_descends orderly inside descends
  have same := inherited.field?_eq_of_undeclared orderly fit within beneath undeclared
  obtain ⟨id, field, seen, -, found, own⟩ := Catalog.cell?_eq_some_iff.mp here
  cases seen
  refine Catalog.cell?_eq_some_iff.mpr ⟨view', field, rfl, plain_of_descends laid plain descends,
    same.trans found, ?_⟩
  unfold FieldSlot.cell? at own ⊢
  cases kind : field.isStatic with
  | true =>
      rw [kind] at own
      cases own
  | false =>
      rw [kind] at own
      exact own

theorem cell_ne_of_declared {view view' between : ClassId} {object : ObjectId} {name : Symbol}
    {cell cell' : Cell} (descends : program.catalog.Descends origin view')
    (above : program.catalog.Descends view' between)
    (beneath : program.catalog.Descends between view) (apart : between ≠ view)
    (declared : (start.get between).field? name ≠ none)
    (here : program.catalog.cell? (.object view object) name = some cell)
    (there : program.catalog.cell? (.object view' object) name = some cell') : cell ≠ cell' := by
  have within := inherited.lt_size_of_descends orderly inside descends
  have owners := inherited.owner?_ne_of_declared orderly within (above.trans beneath) above beneath
    apart declared
  intro same
  have one := (cell_eq_iff inherited orderly fit laid inside plain
    (descends.trans (above.trans beneath)) descends here there).mp same
  exact owners one.2.1.symm

theorem keepsApart : program.KeepsApart start origin := by
  have each (other : ClassId) (descends : program.catalog.Descends origin other) :=
    plain_of_descends laid plain descends
  refine ⟨?apart, ?within, ?eq_iff, ?inherited, ?redeclared, ?created, ?written⟩
  case apart =>
    intro name name' field field' found found' apart kind same
    exact apart ((inherited.slot_eq_iff orderly fit inside each .refl .refl found found' kind).mp
      same).1
  case within =>
    intro name field found
    exact inherited.slot_within orderly fit inside each found
  case eq_iff =>
    intro view view' name name' object cell cell' descends descends' here there
    exact cell_eq_iff inherited orderly fit laid inside plain descends descends' here there
  case inherited =>
    intro view view' name object slot descends beneath undeclared here
    exact cell?_of_undeclared inherited orderly fit laid inside plain descends beneath undeclared
      here
  case redeclared =>
    intro view view' between name object cell cell' descends above beneath apart declared here there
    exact cell_ne_of_declared inherited orderly fit laid inside plain descends above beneath apart
      declared here there
  case created =>
    rintro setup scene next index rfl statics named creates
    exact Step.holds_of_new plain statics named creates
  case written =>
    rintro setup scene view object name cell value rfl holds descends here
    obtain ⟨cell_in, positive, keeps⟩ :=
      cell_inside inherited orderly fit laid inside plain descends here holds
    refine ⟨_, Step.writeField_of_cell? here value scene, keeps value, ?_, ?_⟩
    · rw [Step.answer_of_ok (Step.readField_of_cell? here _)]
      exact congrArg Except.ok (Cell.get_set_self cell_in positive value)
    · intro view' name' cell' descends' there apart
      rw [Step.answer_of_ok (Step.readField_of_cell? there _),
        Step.answer_of_ok (Step.readField_of_cell? there _)]
      exact congrArg Except.ok (Cell.get_set_of_ne cell_in apart value)

end

theorem KeepsApart.of_moveMethods {program : Program} {declared : Catalog} {origin : ClassId}
    {moved : MethodKey × MethodEntry → MethodKey × MethodEntry}
    (h : program.KeepsApart (declared.moveMethods moved) origin) :
    program.KeepsApart declared origin where
  apart := h.apart
  within := h.within
  eq_iff := by simpa only [Catalog.owner?_moveMethods] using h.eq_iff
  inherited := by simpa only [Catalog.field?_moveMethods] using h.inherited
  redeclared := by simpa only [Catalog.field?_moveMethods] using h.redeclared
  created := h.created
  written := h.written

/-- **Fields have cells of their own.** In a linked program whose slots are numbers that fit in a
word, the fields of a class that is not native are kept apart, whichever of its ancestors an object
is seen as. Whatever instruction is executed, objects that have been created keep the slots of their
classes, unless a `super` strays. A static field that is written through one class is not seen
through another one. -/
theorem fields_keep_apart {facades : List Facade} {optimize : Bool} {units : List LoadedUnit}
    {program : Program}
    (read : ∀ unit ∈ units, ∃ records, Metadata.ofRecords records = .ok unit.view)
    (few : ∀ unit ∈ units, ∀ info ∈ unit.view.enums, info.members.length < UInt32.size)
    (linked : link facades optimize units = .ok program) (fit : program.catalog.SlotsFit) :
    (∃ assembly linkage, Link.assemble facades units ⟨.empty, .empty⟩ = .ok assembly linkage ∧
      ∀ origin, origin.index < program.catalog.classes.size →
        (program.catalog.get origin).facade = none →
        program.KeepsApart linkage.catalog origin) ∧
    ((∀ facade ∈ facades, facade.Honest) →
      ∀ (setup : Setup) (scene next : Scene) (instruction : Instruction) (signal : Signal)
        (origins : List ClassId), setup.program = program →
        scene.Intact program.catalog origins →
        scene.world.store.statics.size = program.catalog.classes.size →
        Step.execute instruction setup scene = .ok signal next →
        ¬ (instruction.opcode = .super ∧ scene.Strays program.catalog origins) →
        ∀ id origin, (origins ++ instruction.created setup scene next)[id.index]? = some origin →
          (program.catalog.get origin).facade = none →
          next.world.store.Holds program origin id) ∧
    ∀ (setup : Setup) (scene next : Scene) target target' id other slot name name' value,
      setup.program = program → program.catalog.cell? target name = some (.ofClass id slot) →
      target'.class? = some other → other ≠ id →
      Step.writeField target name value setup scene = .ok () next →
      (Step.readField target' name').answer setup next =
        (Step.readField target' name').answer setup scene := by
  have laid := laid_of_link linked fit.instances
  refine ⟨?_, ?_, ?_⟩
  · have numbers : ∀ unit ∈ units, unit.view.Numbers := by
      intro unit member
      obtain ⟨records, found⟩ := read unit member
      exact Metadata.numbers_of_ofRecords found (few unit member)
    obtain ⟨assembly, linkage, moved, symbols, run, orderly, inherited⟩ :=
      inherits_of_link numbers linked
    refine ⟨assembly, linkage, run, fun origin inside plain => ?_⟩
    exact KeepsApart.of_moveMethods (keepsApart inherited (orderly.moveMethods moved) fit laid
      (inherited.size ▸ inside) plain)
  · rintro honest setup scene next instruction signal origins rfl intact statics runs follows id
      origin created plain
    exact Step.holds_of_execute laid honest intact statics runs follows created plain
  · rintro setup scene next target target' id other slot name name' value rfl here seen apart writes
    rw [Step.writeField_of_cell? here] at writes
    cases writes
    exact Step.answer_readField_setStatic seen apart slot value scene

theorem Except.eq_ok_of_toOption {result : Except ε α} {value : α}
    (h : result.toOption = some value) : result = .ok value := by
  cases result with
  | error fault => cases h
  | ok other =>
      cases h
      rfl

/-- A module with a class that declares a field of its parent again. -/
def redeclaring : List MetaRecord := [
  .moduleHeader "app" 0 0 0 0,
  .classHeader ⟨"A", "", 0, 1, 0, .plain⟩,
  .field ⟨"x", 1, false⟩,
  .classHeader ⟨"B", "A", 0, 1, 0, .plain⟩,
  .field ⟨"x", 1, false⟩,
  .classHeader ⟨"Main", "", 0, 0, 1, .plain⟩,
  .method ⟨"main", 1, 0, true, 0, 0, true⟩,
  .finish]

/-- An object of the class has the two fields in different cells. -/
theorem fields_keep_apart_redeclaring :
    ∃ view program, Metadata.ofRecords redeclaring = .ok view ∧
      link [] false [⟨[], view⟩] = .ok program ∧ program.catalog.SlotsFit ∧
      (program.catalog.get ⟨1⟩).parent = some ⟨0⟩ ∧
      (program.catalog.get ⟨1⟩).field? ⟨0⟩ = some ⟨2, false⟩ ∧
      ∃ assembly linkage, Link.assemble [] [⟨[], view⟩] ⟨.empty, .empty⟩ = .ok assembly linkage ∧
        program.KeepsApart linkage.catalog ⟨1⟩ := by
  have runs : (Metadata.ofRecords redeclaring).toOption.any fun view =>
      decide (view.enums = #[]) && (link [] false [⟨[], view⟩]).toOption.any fun program =>
        decide (program.catalog.Grows ∧
          (∀ info ∈ program.catalog.classes, info.statics.slots.size < UInt32.size) ∧
          program.catalog.classes.size = 3 ∧ (program.catalog.get ⟨1⟩).facade.isNone ∧
          (program.catalog.get ⟨1⟩).parent = some ⟨0⟩ ∧
          (program.catalog.get ⟨1⟩).field? ⟨0⟩ = some ⟨2, false⟩) := by
    decide +kernel
  obtain ⟨view, read, runs⟩ := (Option.any_eq_true _ _).mp runs
  obtain ⟨enums, runs⟩ := Bool.and_eq_true_iff.mp runs
  obtain ⟨program, linked, found⟩ := (Option.any_eq_true _ _).mp runs
  obtain ⟨grows, statics, size, plain, parent, field⟩ := of_decide_eq_true found
  have read := Except.eq_ok_of_toOption read
  have linked := Except.eq_ok_of_toOption linked
  have each : ∀ unit ∈ [(⟨[], view⟩ : LoadedUnit)],
      ∃ records, Metadata.ofRecords records = .ok unit.view := by
    intro unit member
    rw [List.mem_singleton.mp member]
    exact ⟨redeclaring, read⟩
  have few : ∀ unit ∈ [(⟨[], view⟩ : LoadedUnit)], ∀ info ∈ unit.view.enums,
      info.members.length < UInt32.size := by
    intro unit member info listed
    rw [List.mem_singleton.mp member, of_decide_eq_true enums] at listed
    simp at listed
  obtain ⟨⟨assembly, linkage, assembled, apart⟩, -⟩ :=
    fields_keep_apart each few linked ⟨grows, statics⟩
  exact ⟨view, program, read, linked, ⟨grows, statics⟩, parent, field, assembly, linkage, assembled,
    apart ⟨1⟩ (by rw [size]; decide) (Option.isNone_iff_eq_none.mp plain)⟩

end Program

end ObjectMachine
