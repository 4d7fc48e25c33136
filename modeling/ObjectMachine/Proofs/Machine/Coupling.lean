import ObjectMachine.Machine.Step
import ObjectMachine.Proofs.Coupled

/-!
# Coupled scenes

Two programs that differ only in where their code lies are run side by side. What the registers
of the two threads have to do with each other is up to the coupling; the values a thread works on
are the same on both sides. Most instructions do not look at code addresses, and one lemma about
each of them then serves every coupling: the one of a program with itself, where it says that the
registers stay as they are, and the one of a program with its shrunk form.
-/

namespace ObjectMachine

/-! ## Programs up to addresses -/

section Similar

variable (Address : Nat → Nat → Prop)

/-- Whether two methods differ in their addresses at most, and these correspond. -/
def MethodBody.Similar : MethodBody → MethodBody → Prop
  | bytecode address localCount, bytecode address' localCount' =>
    Address address address' ∧ localCount = localCount'
  | native, native => True
  | _, _ => False

structure MethodEntry.Similar (entry entry' : MethodEntry) : Prop where
  moduleId : entry.moduleId = entry'.moduleId
  argCount : entry.argCount = entry'.argCount
  isStatic : entry.isStatic = entry'.isStatic
  declaring : entry.declaring = entry'.declaring
  body : entry.body.Similar Address entry'.body

def MethodsSimilar (methods methods' : List (MethodKey × MethodEntry)) : Prop :=
  List.Forall₂ (fun (method method' : MethodKey × MethodEntry) =>
    method.1 = method'.1 ∧ method.2.Similar Address method'.2) methods methods'

structure ClassDef.Similar (info info' : ClassDef) : Prop where
  rest : { info with methods := [] } = { info' with methods := [] }
  methods : MethodsSimilar Address info.methods info'.methods

def Catalog.Similar (catalog catalog' : Catalog) : Prop :=
  List.Forall₂ (ClassDef.Similar Address) catalog.classes.toList catalog'.classes.toList

structure Program.Similar (program program' : Program) : Prop where
  modules : program.modules = program'.modules
  symbols : program.symbols = program'.symbols
  catalog : program.catalog.Similar Address program'.catalog

structure Setup.Similar (setup setup' : Setup) : Prop where
  limits : setup.limits = setup'.limits
  program : setup.program.Similar Address setup'.program

end Similar

section

variable {Address : Nat → Nat → Prop}

namespace ClassDef.Similar

variable {info info' : ClassDef} (h : info.Similar Address info')

include h

theorem qualified : info.qualified = info'.qualified := by
  simpa using congrArg ClassDef.qualified h.rest

theorem parent : info.parent = info'.parent := by
  simpa using congrArg ClassDef.parent h.rest

theorem fields : info.fields = info'.fields := by
  simpa using congrArg ClassDef.fields h.rest

theorem facade : info.facade = info'.facade := by
  simpa using congrArg ClassDef.facade h.rest

theorem enumValues : info.enumValues = info'.enumValues := by
  simpa using congrArg ClassDef.enumValues h.rest

theorem instanceFieldCount : info.instanceFieldCount = info'.instanceFieldCount := by
  simpa using congrArg ClassDef.instanceFieldCount h.rest

theorem field? (name : Symbol) : info.field? name = info'.field? name := by
  rw [ClassDef.field?, ClassDef.field?, h.fields]

theorem keys : info.methods.map (·.1) = info'.methods.map (·.1) := by
  have methods := h.methods
  unfold MethodsSimilar at methods
  generalize info.methods = ms at methods
  generalize info'.methods = ms' at methods
  induction methods with
  | nil => rfl
  | cons first _ ih => rw [List.map_cons, List.map_cons, first.1, ih]

theorem method? (key : MethodKey) :
    Option.Rel (MethodEntry.Similar Address) (info.method? key) (info'.method? key) := by
  have methods := h.methods
  unfold MethodsSimilar at methods
  unfold ClassDef.method?
  generalize info.methods = ms at methods
  generalize info'.methods = ms' at methods
  induction methods with
  | nil => exact .none
  | @cons first first' _ _ same _ ih =>
      rw [List.lookup_cons, List.lookup_cons, ← same.1]
      cases key == first.1 with
      | true => exact .some same.2
      | false => exact ih

end ClassDef.Similar

namespace Catalog.Similar

variable {catalog catalog' : Catalog} (h : catalog.Similar Address catalog')

include h

theorem size : catalog.classes.size = catalog'.classes.size := List.Forall₂.length_eq h

theorem get (id : ClassId) : (catalog.get id).Similar Address (catalog'.get id) := by
  have size := h.size
  unfold Catalog.get
  rw [Array.getD_eq_getD_getElem?, Array.getD_eq_getD_getElem?]
  by_cases inside : id.index < catalog.classes.size
  · have inside' : id.index < catalog'.classes.size := size ▸ inside
    rw [Array.getElem?_eq_getElem inside, Array.getElem?_eq_getElem inside']
    exact List.Forall₂.get h inside inside'
  · rw [Array.getElem?_eq_none (Nat.le_of_not_lt inside),
      Array.getElem?_eq_none (size ▸ Nat.le_of_not_lt inside)]
    exact ⟨rfl, .nil⟩

theorem name (id : ClassId) : catalog.name id = catalog'.name id :=
  (h.get id).qualified

theorem hierarchy (id : ClassId) : catalog.hierarchy id = catalog'.hierarchy id := by
  have onto (bound : Nat) (id : ClassId) (chain : List ClassId) :
      catalog.hierarchyOnto bound id chain = catalog'.hierarchyOnto bound id chain := by
    induction bound generalizing id chain with
    | zero => rfl
    | succ bound ih =>
        rw [hierarchyOnto, hierarchyOnto, (h.get id).parent]
        simp only [ih]
  rw [Catalog.hierarchy, Catalog.hierarchy, h.size, onto]

theorem isSubclass (id ancestor : ClassId) :
    catalog.isSubclass id ancestor = catalog'.isSubclass id ancestor := by
  rw [Catalog.isSubclass, Catalog.isSubclass, h.hierarchy]

end Catalog.Similar

namespace Program.Similar

variable {program program' : Program} (h : program.Similar Address program')

include h

theorem describe (heap : Heap) (value : Value) :
    program.describe heap value = program'.describe heap value := by
  have scalar : program.describeScalar = program'.describeScalar := by
    funext value
    cases value <;> simp only [describeScalar, h.catalog.name]
  rw [Program.describe, Program.describe, scalar]

theorem moduleOf (id : ModuleId) : program.moduleOf id = program'.moduleOf id := by
  rw [Program.moduleOf, Program.moduleOf, h.modules]

end Program.Similar

end

/-! ## Scenes -/

/-- What a thread keeps beside its stack: where it is, and where it will go on. -/
structure Registers where
  calls : Array CallRecord
  handlers : List TryRecord
  dp : Nat
  ip : Nat
  moduleId : ModuleId
  frame : Frame

def Thread.registers (thread : Thread) : Registers :=
  ⟨thread.calls, thread.handlers, thread.dp, thread.ip, thread.moduleId, thread.frame⟩

namespace Scene

/-- Whether two scenes look the same to an instruction that does not look at code addresses. -/
structure Alike (scene scene' : Scene) : Prop where
  id : scene.thread.id = scene'.thread.id
  state : scene.thread.state = scene'.thread.state
  stack : scene.thread.stack = scene'.thread.stack
  dp : scene.thread.dp = scene'.thread.dp
  moduleId : scene.thread.moduleId = scene'.thread.moduleId
  declaring : scene.thread.frame.declaring? = scene'.thread.frame.declaring?
  world : scene.world = scene'.world

structure Rests (next scene : Scene) : Prop where
  id : next.thread.id = scene.thread.id
  registers : next.thread.registers = scene.thread.registers

/-- The registers are those of the scenes before, and the rest of the scenes is the same. -/
theorem Alike.of_rests {scene scene' next next' : Scene} (h : scene.Alike scene')
    (rests : next.Rests scene) (rests' : next'.Rests scene')
    (state : next.thread.state = next'.thread.state)
    (stack : next.thread.stack = next'.thread.stack) (world : next.world = next'.world) :
    next.Alike next' where
  id := by rw [rests.id, rests'.id, h.id]
  state := state
  stack := stack
  dp := (congrArg Registers.dp rests.registers).trans
    (h.dp.trans (congrArg Registers.dp rests'.registers).symm)
  moduleId := (congrArg Registers.moduleId rests.registers).trans
    (h.moduleId.trans (congrArg Registers.moduleId rests'.registers).symm)
  declaring := (congrArg (·.frame.declaring?) rests.registers).trans
    (h.declaring.trans (congrArg (·.frame.declaring?) rests'.registers).symm)
  world := world

end Scene

/-- A correspondence between the scenes of two runs. Scenes that correspond look alike, and they
go on corresponding while both threads keep their registers. -/
structure Coupling where
  left : Setup
  right : Setup
  Address : Nat → Nat → Prop
  similar : left.Similar Address right
  Kept : Scene → Scene → Prop
  alike : ∀ {scene scene'}, Kept scene scene' → scene.Alike scene'
  rebuild : ∀ {scene scene' next next'}, Kept scene scene' → next.Rests scene →
    next'.Rests scene' → next.Alike next' → Kept next next'

namespace Coupling

/-- Whether a part of an instruction does the same on both sides. -/
def Agree (c : Coupling) (tie : α → β → Prop) (step : Step α) (step' : Step β) : Prop :=
  Coupled c.Kept tie (step c.left) (step' c.right)

variable {c : Coupling}

/-- A change of both scenes that leaves the registers alone. -/
theorem kept_of_rests {scene scene' next next' : Scene} (h : c.Kept scene scene')
    (rests : next.Rests scene) (rests' : next'.Rests scene')
    (state : next.thread.state = next'.thread.state)
    (stack : next.thread.stack = next'.thread.stack) (world : next.world = next'.world) :
    c.Kept next next' :=
  c.rebuild h rests rests' ((c.alike h).of_rests rests rests' state stack world)

namespace Agree

variable {tie : α → β → Prop}

theorem of_pure {value : α} {value' : β} (h : tie value value') :
    c.Agree tie (pure value) (pure value') :=
  Coupled.of_pure h

theorem of_throw (fault : Fault) : c.Agree tie (throw fault) (throw fault) :=
  Coupled.of_throw fault

/-- Nothing follows a fault. -/
theorem of_throw_bind (fault : Fault) {next : γ → Step α} {next' : δ → Step β} :
    c.Agree tie (throw fault >>= next) (throw fault >>= next') :=
  fun _ _ hs => ⟨rfl, hs⟩

theorem bindWith {tie' : γ → δ → Prop} {step : Step α} {step' : Step β} {next : α → Step γ}
    {next' : β → Step δ} (h : c.Agree tie step step')
    (hn : ∀ value value', tie value value' → c.Agree tie' (next value) (next' value')) :
    c.Agree tie' (step >>= next) (step' >>= next') :=
  Coupled.bindWith h hn

theorem bind {tie' : γ → δ → Prop} {step step' : Step α} {next : α → Step γ}
    {next' : α → Step δ} (h : c.Agree Eq step step')
    (hn : ∀ value, c.Agree tie' (next value) (next' value)) :
    c.Agree tie' (step >>= next) (step' >>= next') :=
  Coupled.bind h hn

theorem map {tie' : γ → δ → Prop} {step : Step α} {step' : Step β} {f : α → γ} {g : β → δ}
    (h : c.Agree tie step step')
    (hf : ∀ value value', tie value value' → tie' (f value) (g value')) :
    c.Agree tie' (f <$> step) (g <$> step') :=
  Coupled.map h hf

theorem of_require (result : Except Fault α) :
    c.Agree Eq (Step.require result) (Step.require result) := by
  cases result with
  | ok value => exact of_pure rfl
  | error fault => exact of_throw fault

theorem of_get : c.Agree c.Kept get get :=
  Coupled.of_get

theorem of_read : c.Agree (Setup.Similar c.Address) read read :=
  fun _ _ hs => ⟨c.similar, hs⟩

theorem of_ofThread {part : Thread → α} {part' : Thread → β}
    (h : ∀ {scene scene'}, c.Kept scene scene' → tie (part scene.thread) (part' scene'.thread)) :
    c.Agree tie (Step.ofThread part) (Step.ofThread part') :=
  of_get.bindWith fun _ _ hs => of_pure (h hs)

theorem of_onThread {change change' : Thread → Thread}
    (h : ∀ {scene scene'}, c.Kept scene scene' →
      c.Kept { scene with thread := change scene.thread }
        { scene' with thread := change' scene'.thread }) :
    c.Agree Eq (Step.onThread change) (Step.onThread change') :=
  Coupled.of_modify fun _ _ hs => h hs

/-! ## Parts of instructions that look at no address -/

theorem of_onStack (operation : Stack.Operation α) :
    c.Agree Eq (Step.onStack operation) (Step.onStack operation) := by
  intro scene scene' hs
  have alike := c.alike hs
  unfold Step.onStack
  rw [alike.stack]
  dsimp only
  cases operation scene'.thread.stack with
  | ok value stack =>
      exact ⟨rfl, kept_of_rests hs ⟨rfl, rfl⟩ ⟨rfl, rfl⟩ alike.state rfl alike.world⟩
  | error fault stack =>
      exact ⟨rfl, kept_of_rests hs ⟨rfl, rfl⟩ ⟨rfl, rfl⟩ alike.state rfl alike.world⟩

theorem of_push (value : Value) : c.Agree Eq (Step.push value) (Step.push value) :=
  of_onStack _

theorem of_pop : c.Agree Eq Step.pop Step.pop :=
  of_onStack _

theorem of_truncate (depth : Nat) : c.Agree Eq (Step.truncate depth) (Step.truncate depth) :=
  of_onStack _

/-- A change of what all threads share. -/
theorem of_modifyWorld (change : World → World) :
    c.Agree Eq (modify fun scene => { scene with world := change scene.world })
      (modify fun scene => { scene with world := change scene.world }) :=
  Coupled.of_modify fun _ _ hs =>
    have alike := c.alike hs
    kept_of_rests hs ⟨rfl, rfl⟩ ⟨rfl, rfl⟩ alike.state alike.stack (congrArg change alike.world)

theorem of_onStore (change : Store → Store) :
    c.Agree Eq (Step.onStore change) (Step.onStore change) :=
  of_modifyWorld fun world => { world with store := change world.store }

/-- A change of what all threads share, with an answer. -/
theorem of_modifyGetWorld (change : World → α × World) :
    c.Agree Eq
      (modifyGet fun scene =>
        ((change scene.world).1, { scene with world := (change scene.world).2 }))
      (modifyGet fun scene =>
        ((change scene.world).1, { scene with world := (change scene.world).2 })) :=
  Coupled.of_modifyGet fun _ _ hs =>
    have alike := c.alike hs
    ⟨congrArg (fun world => (change world).1) alike.world,
      kept_of_rests hs ⟨rfl, rfl⟩ ⟨rfl, rfl⟩ alike.state alike.stack
        (congrArg (fun world => (change world).2) alike.world)⟩

theorem of_setState (state : ThreadState) :
    c.Agree Eq (Step.onThread fun thread => { thread with state })
      (Step.onThread fun thread => { thread with state }) :=
  of_onThread fun hs =>
    have alike := c.alike hs
    kept_of_rests hs ⟨rfl, rfl⟩ ⟨rfl, rfl⟩ rfl alike.stack alike.world

theorem of_heap : c.Agree Eq Step.heap Step.heap :=
  of_get.bindWith fun _ _ hs => of_pure (by rw [(c.alike hs).world])

theorem of_program : c.Agree (Program.Similar c.Address) Step.program Step.program :=
  of_read.bindWith fun _ _ hs => of_pure hs.program

theorem of_moduleRecord : c.Agree Eq Step.moduleRecord Step.moduleRecord :=
  of_program.bindWith fun _ _ hp =>
    (of_ofThread fun hs => (c.alike hs).moduleId).bind fun id => of_pure (hp.moduleOf id)

theorem of_describe (value : Value) : c.Agree Eq (Step.describe value) (Step.describe value) :=
  of_program.bindWith fun _ _ hp => of_heap.bind fun heap => of_pure (hp.describe heap value)

theorem of_pushArray (items : Array Value) :
    c.Agree Eq (Step.pushArray items) (Step.pushArray items) :=
  bind (of_modifyGetWorld fun world =>
    let created := world.store.heap.newArray items
    (created.1, { world with store := { world.store with heap := created.2 } })) fun id =>
      of_push (.array id)

theorem of_pushTexts (items : List String) :
    c.Agree Eq (Step.pushTexts items) (Step.pushTexts items) :=
  of_pushArray _

end Agree

end Coupling

end ObjectMachine
