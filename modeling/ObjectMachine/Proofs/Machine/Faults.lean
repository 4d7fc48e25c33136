import ObjectMachine.Proofs.Machine.Moves

/-!
# How instructions fail

An instruction fails over the values that it works on, or because its number is not in a table of
the module whose code is being executed. It never fails over code, and whatever it does, the thread
keeps its number; its state is changed only if it then asks to be replaced.
-/

namespace ObjectMachine

namespace Fault

/-- Whether a fault is about the values that a thread works on, not about code or scheduling. -/
def aboutData : Fault → Bool
  | invalidInstruction _ _ | unresolvedReference _ _ _ | tooManyThreads _ | deadlock _ => false
  | _ => true

end Fault

/-! ## Tables -/

namespace ModuleRecord

/-- How many entries a table has. Locals are in none. -/
def tableSize (record : ModuleRecord) : ReferenceTable → Nat
  | .locals => 0
  | .strings => record.strings.size
  | .classes => record.classRefs.size
  | .fields => record.fieldNames.size
  | .methods => record.methodCalls.size

def Has (record : ModuleRecord) (table : ReferenceTable) (index : UInt32) : Prop :=
  index ≠ 0 ∧ index.toNat ≤ record.tableSize table

theorem exists_entry_iff {record : ModuleRecord} {table : ReferenceTable} {entries : Array α}
    {index : UInt32} :
    (∃ found, record.entry table entries index = .ok found) ↔
      index ≠ 0 ∧ index.toNat ≤ entries.size := by
  unfold entry Heap.placeOf
  by_cases zero : index = 0
  · simp [zero]
  · have positive : 0 < index.toNat := by
      refine Nat.pos_of_ne_zero fun none => zero ?_
      rw [← UInt32.toNat_inj, none]
      rfl
    rw [if_neg zero, Option.bind_some]
    cases found : entries[index.toNat - 1]? with
    | none =>
        have outside := Array.getElem?_eq_none_iff.mp found
        simp only [reduceCtorEq, exists_false, false_iff]
        omega
    | some value =>
        obtain ⟨inside, -⟩ := Array.getElem?_eq_some_iff.mp found
        simp only [Except.ok.injEq, exists_eq', true_iff]
        exact ⟨zero, by omega⟩

theorem entry_eq_error {record : ModuleRecord} {table : ReferenceTable} {entries : Array α}
    {index : UInt32} {fault : Fault} (h : record.entry table entries index = .error fault) :
    fault = .unresolvedReference table index record.name ∧
      ¬(index ≠ 0 ∧ index.toNat ≤ entries.size) := by
  have missing : ¬∃ found, record.entry table entries index = .ok found := by
    rintro ⟨found, same⟩
    cases h.symm.trans same
  refine ⟨?_, fun there => missing (exists_entry_iff.mpr there)⟩
  unfold entry at h
  split at h
  · cases h
  · cases h
    rfl

end ModuleRecord

/-- Whether a fault says that an instruction's number is not in its table of a module. -/
def Instruction.Misses (instruction : Instruction) (record : ModuleRecord) (fault : Fault) : Prop :=
  ∃ table, instruction.opcode.references = some table ∧ table ≠ .locals ∧
    ¬record.Has table instruction.index ∧
    fault = .unresolvedReference table instruction.index record.name

/-! ## Values -/

namespace Value

theorem aboutData_of_wholeResult [BEq ν] [OfNat ν 0] [Add ν] [Sub ν] [Mul ν] [Div ν] [Mod ν]
    {op : ArithmeticOp} {a b : ν} {fault : Fault} (h : wholeResult op a b = .error fault) :
    fault.aboutData := by
  unfold wholeResult at h
  cases op with
  | div | mod =>
      dsimp only at h
      split at h
      · cases h
        rfl
      · cases h
  | _ => cases h

theorem aboutData_of_arithmetic {op : ArithmeticOp} {a b : Value} {fault : Fault}
    (h : arithmetic op a b = .error fault) : fault.aboutData := by
  have map {ν : Type} {make : ν → Value} {result : Except Fault ν}
      (failed : ∀ {fault}, result = .error fault → fault.aboutData)
      (h : make <$> result = .error fault) : fault.aboutData := by
    cases result with
    | ok value => cases h
    | error cause =>
        cases h
        exact failed rfl
  unfold arithmetic at h
  split at h
  · exact map aboutData_of_wholeResult h
  · exact map aboutData_of_wholeResult h
  · exact map aboutData_of_wholeResult h
  · exact map aboutData_of_wholeResult h
  · exact map aboutData_of_wholeResult h
  · cases h
  · cases h
    rfl

theorem aboutData_of_negate {value : Value} {fault : Fault} (h : value.negate = .error fault) :
    fault.aboutData := by
  cases value <;> cases h <;> rfl

theorem aboutData_of_complement {value : Value} {fault : Fault}
    (h : value.complement = .error fault) : fault.aboutData := by
  cases value <;> cases h <;> rfl

theorem aboutData_of_comparison {op : ComparisonOp} {a b : Value} {fault : Fault}
    (h : comparison op a b = .error fault) : fault.aboutData := by
  unfold comparison at h
  split at h
  · split at h <;> cases h
  · split at h
    · cases h
    · split at h
      · split at h
        · cases h
        · cases h
          rfl
      · cases h
        rfl

theorem aboutData_of_convert {heap : Heap} {kind : Kind} {value : Value} {fault : Fault}
    (h : convert heap kind value = .error fault) : fault.aboutData := by
  unfold convert at h
  dsimp only at h
  split at h
  · split at h
    · cases h
    · split at h
      · cases h
      · cases h
        rfl
  · split at h
    · cases h
      rfl
    · split at h
      all_goals first | cases h | (split at h <;> cases h)

end Value

/-! ## Threads that stay themselves -/

structure Thread.Stays (next thread : Thread) : Prop where
  id : next.id = thread.id
  state : next.state = thread.state

namespace Thread.Stays

theorem refl (thread : Thread) : thread.Stays thread := ⟨rfl, rfl⟩

theorem trans {last next thread : Thread} (h : last.Stays next) (h' : next.Stays thread) :
    last.Stays thread :=
  ⟨h.id.trans h'.id, h.state.trans h'.state⟩

theorem of_enterFinally (exit : ExitAction) (thread : Thread) :
    (thread.enterFinally exit).Stays thread := by
  unfold enterFinally
  split
  · exact ⟨rfl, rfl⟩
  · exact refl thread

theorem of_branchTo (target : Nat) (thread : Thread) : (thread.branchTo target).Stays thread := by
  unfold branchTo
  split
  · split
    · exact ⟨rfl, rfl⟩
    · exact of_enterFinally _ thread
  · exact ⟨rfl, rfl⟩

end Thread.Stays

/-- Whether a thread may be in a state when its instruction asks something of the scheduler. Only
one that gives way has left the state that it was in. -/
def Signal.Fits (before : ThreadState) : Signal → ThreadState → Prop
  | .yield, state =>
    state = .suspending ∨ (∃ wake, state = .sleeping wake) ∨ ∃ key, state = .waiting key
  | _, state => state = before

namespace Step

/-- Whether a part of an instruction, begun in a scene, keeps the thread's number, leaves the thread
in a state that fits the answer, and fails only with faults of a kind. -/
def Settles (setup : Setup) (scene : Scene) (allowed : Fault → Prop)
    (fits : α → ThreadState → Prop) (step : Step α) : Prop :=
  match step setup scene with
  | .ok answer next => next.thread.id = scene.thread.id ∧ fits answer next.thread.state
  | .error fault next => next.thread.id = scene.thread.id ∧ allowed fault

def Steady (step : Step α) : Prop :=
  ∀ setup scene, Settles setup scene (·.aboutData) (fun _ state => state = scene.thread.state) step

/-- Whether the end of an instruction keeps the thread's number, leaves it in a state that fits what
it asks, and fails only over values. -/
def Asks (step : Step Signal) : Prop :=
  ∀ setup scene, Settles setup scene (·.aboutData) (Signal.Fits scene.thread.state) step

section

variable {setup : Setup} {scene next : Scene} {allowed : Fault → Prop}
  {fits : α → ThreadState → Prop} {step : Step α}

theorem Settles.of_ok (h : Settles setup scene allowed fits step) {answer : α}
    (hr : step setup scene = .ok answer next) :
    next.thread.id = scene.thread.id ∧ fits answer next.thread.state := by
  unfold Settles at h
  rw [hr] at h
  exact h

theorem Settles.of_error (h : Settles setup scene allowed fits step) {fault : Fault}
    (hr : step setup scene = .error fault next) :
    next.thread.id = scene.thread.id ∧ allowed fault := by
  unfold Settles at h
  rw [hr] at h
  exact h

theorem Settles.mono {allowed' : Fault → Prop} (h : Settles setup scene allowed fits step)
    (weaker : ∀ fault, allowed fault → allowed' fault) :
    Settles setup scene allowed' fits step := by
  unfold Settles at *
  split at h
  · exact h
  · exact ⟨h.1, weaker _ h.2⟩

/-- What follows a part that leaves the thread alone. -/
theorem Settles.bind {first : Step γ} {following : γ → Step α} {allowed' : Fault → Prop}
    (h : Settles setup scene allowed' (fun _ state => state = scene.thread.state) first)
    (weaker : ∀ fault, allowed' fault → allowed fault)
    (hn : ∀ answer middle, first setup scene = .ok answer middle →
      middle.thread.state = scene.thread.state →
      Settles setup middle allowed fits (following answer)) :
    Settles setup scene allowed fits (first >>= following) := by
  change match EStateM.bind (first setup) (fun answer => following answer setup) scene with
    | .ok answer next => next.thread.id = scene.thread.id ∧ fits answer next.thread.state
    | .error fault next => next.thread.id = scene.thread.id ∧ allowed fault
  unfold EStateM.bind
  cases hr : first setup scene with
  | error fault middle =>
      obtain ⟨id, kind⟩ := h.of_error hr
      exact ⟨id, weaker fault kind⟩
  | ok answer middle =>
      obtain ⟨id, state⟩ := h.of_ok hr
      have rest := hn answer middle hr state
      unfold Settles at rest
      dsimp only
      split at rest
      · next same => exact ⟨rest.1.trans id, rest.2⟩
      · next same => exact ⟨rest.1.trans id, rest.2⟩

end

namespace Steady

theorem of_pure (value : α) : Steady (pure value) :=
  fun _ _ => ⟨rfl, rfl⟩

theorem of_throw {fault : Fault} (h : fault.aboutData) : Steady (throw fault : Step α) :=
  fun _ _ => ⟨rfl, h⟩

theorem bind {step : Step α} {following : α → Step β} (h : Steady step)
    (hn : ∀ value, Steady (following value)) : Steady (step >>= following) := by
  intro setup scene
  refine (h setup scene).bind (fun _ => id) fun value middle _ state => ?_
  rw [← state]
  exact hn value setup middle

/-- Nothing follows a fault. -/
theorem of_throw_bind {fault : Fault} (h : fault.aboutData) {following : γ → Step α} :
    Steady ((throw fault : Step γ) >>= following) :=
  fun _ _ => ⟨rfl, h⟩

theorem map {step : Step α} {f : α → β} (h : Steady step) : Steady (f <$> step) := by
  rw [← bind_pure_comp]
  exact h.bind fun value => of_pure (f value)

theorem of_require {result : Except Fault α}
    (h : ∀ {fault}, result = .error fault → fault.aboutData) :
    Steady (require result) := by
  cases result with
  | ok value => exact of_pure value
  | error fault => exact of_throw (h rfl)

theorem of_get : Steady get :=
  fun _ _ => ⟨rfl, rfl⟩

theorem of_read : Steady read :=
  fun _ _ => ⟨rfl, rfl⟩

theorem of_program : Steady program :=
  of_read.bind fun _ => of_pure _

theorem of_ofThread (part : Thread → α) : Steady (ofThread part) :=
  of_get.bind fun _ => of_pure _

theorem of_heap : Steady heap :=
  of_get.bind fun _ => of_pure _

theorem of_moduleRecord : Steady moduleRecord :=
  of_program.bind fun _ => (of_ofThread _).bind fun _ => of_pure _

theorem of_describe (value : Value) : Steady (describe value) :=
  of_program.bind fun _ => of_heap.bind fun _ => of_pure _

theorem of_onThread {change : Thread → Thread} (h : ∀ thread, (change thread).Stays thread) :
    Steady (onThread change) :=
  fun _ scene => ⟨(h scene.thread).id, (h scene.thread).state⟩

theorem of_modifyWorld (change : World → World) :
    Steady (modify fun scene => { scene with world := change scene.world }) :=
  fun _ _ => ⟨rfl, rfl⟩

theorem of_modifyGetWorld (change : World → α × World) :
    Steady (modifyGet fun scene =>
      ((change scene.world).1, { scene with world := (change scene.world).2 })) :=
  fun _ _ => ⟨rfl, rfl⟩

theorem of_onStore (change : Store → Store) : Steady (onStore change) :=
  of_modifyWorld fun world => { world with store := change world.store }

theorem of_onHeld (change : List MonitorKey → List MonitorKey) : Steady (onHeld change) :=
  of_modifyWorld fun world => { world with held := change world.held }

theorem of_forM {step : α → Step Unit} (h : ∀ item, Steady (step item)) (items : List α) :
    Steady (items.forM step) := by
  induction items with
  | nil => exact of_pure _
  | cons item rest ih => exact (h item).bind fun _ => ih

theorem of_forM_array {step : α → Step Unit} (h : ∀ item, Steady (step item))
    (items : Array α) : Steady (items.forM step) := by
  obtain ⟨items⟩ := items
  rw [Array.forM_eq_forM, List.forM_toArray]
  exact of_forM h items

/-! ## Stack operations -/

theorem of_onStack {operation : Stack.Operation α}
    (h : ∀ {stack fault rest}, operation stack = .error fault rest → fault.aboutData) :
    Steady (onStack operation) := by
  intro setup scene
  unfold Settles onStack
  dsimp only
  cases hr : operation scene.thread.stack with
  | ok value stack => exact ⟨rfl, rfl⟩
  | error fault stack => exact ⟨rfl, h hr⟩

theorem of_push (value : Value) : Steady (push value) := by
  refine of_onStack fun {stack fault rest} h => ?_
  unfold Stack.push at h
  split at h
  · cases h
    rfl
  · cases h

theorem of_pop : Steady pop := by
  refine of_onStack fun {stack fault rest} h => ?_
  unfold Stack.pop at h
  split at h
  · cases h
  · cases h
    rfl

theorem of_popMany (count : Nat) : Steady (onStack (Stack.popMany count)) := by
  refine of_onStack fun {stack fault rest} h => ?_
  unfold Stack.popMany at h
  dsimp only at h
  split at h
  · cases h
    rfl
  · cases h

theorem of_peek (below : Nat) : Steady (onStack (Stack.peek below)) := by
  refine of_onStack fun {stack fault rest} h => ?_
  unfold Stack.peek at h
  split at h
  · split at h
    · cases h
    · cases h
      rfl
  · cases h
    rfl

theorem of_put (place : Nat) (value : Value) : Steady (onStack (Stack.put place value)) := by
  refine of_onStack fun {stack fault rest} h => ?_
  unfold Stack.put at h
  split at h <;> cases h

theorem of_reserve (count : Nat) : Steady (onStack (Stack.reserve count)) := by
  refine of_onStack fun {stack fault rest} h => ?_
  unfold Stack.reserve at h
  dsimp only at h
  split at h
  · cases h
    rfl
  · cases h

theorem of_truncate (depth : Nat) : Steady (truncate depth) :=
  of_onStack nofun

theorem of_pushArray (items : Array Value) : Steady (pushArray items) :=
  bind (of_modifyGetWorld fun world =>
    let created := world.store.heap.newArray items
    (created.1, { world with store := { world.store with heap := created.2 } })) fun id =>
      of_push (.array id)

theorem of_pushTexts (items : List String) : Steady (pushTexts items) :=
  of_pushArray _

/-! ## Values, locals and arithmetic -/

theorem of_dup : Steady dup :=
  (of_peek 0).bind of_push

theorem of_swap : Steady swap :=
  of_pop.bind fun upper => of_pop.bind fun lower =>
    (of_push upper).bind fun _ => of_push lower

theorem of_loadLocal (slot : UInt32) : Steady (loadLocal slot) := by
  refine (of_ofThread _).bind fun found => ?_
  cases found with
  | none => exact of_throw rfl
  | some value => exact of_push value

theorem of_storeLocal (slot : UInt32) : Steady (storeLocal slot) := by
  refine of_pop.bind fun value => (of_ofThread _).bind fun dp =>
    (of_put _ value).bind fun stored => ?_
  cases stored with
  | true => exact of_pure _
  | false => exact of_throw rfl

theorem of_binary {operation : Value → Value → Step Value}
    (h : ∀ a b, Steady (operation a b)) : Steady (binary operation) :=
  of_pop.bind fun b => of_pop.bind fun a => (h a b).bind of_push

theorem of_sum (a b : Value) : Steady (sum a b) := by
  have texts : Steady (do pure (Value.text ((← describe a) ++ (← describe b)))) :=
    (of_describe a).bind fun _ => (of_describe b).bind fun _ => of_pure _
  unfold sum
  split
  · exact texts
  · exact texts
  · exact of_require Value.aboutData_of_arithmetic

theorem of_arithmetic (op : ArithmeticOp) : Steady (arithmetic op) := by
  refine of_binary fun a b => ?_
  cases op with
  | add => exact of_sum a b
  | _ => exact of_require Value.aboutData_of_arithmetic

theorem of_compare (op : ComparisonOp) : Steady (compare op) :=
  of_binary fun _ _ => (of_require Value.aboutData_of_comparison).map

theorem of_negate : Steady negate :=
  of_pop.bind fun _ => (of_require Value.aboutData_of_negate).bind of_push

theorem of_complement : Steady complement :=
  of_pop.bind fun _ => (of_require Value.aboutData_of_complement).bind of_push

theorem of_convert (code : UInt8) : Steady (convert code) := by
  unfold convert
  split
  · exact of_throw rfl
  · exact of_pop.bind fun value => (of_describe value).bind fun text => of_push (.text text)
  · exact of_pop.bind fun value => of_heap.bind fun heap =>
      (of_require Value.aboutData_of_convert).bind of_push

/-! ## Arrays -/

theorem of_integer (purpose : String) (value : Value) : Steady (integer purpose value) := by
  unfold integer
  cases value.asInteger? with
  | none => exact of_throw rfl
  | some number => exact of_pure _

theorem of_arrayFor (operation : String) (value : Value) : Steady (arrayFor operation value) := by
  cases value with
  | array id => exact of_pure _
  | _ => exact of_throw rfl

theorem of_itemPlace (index : Int64) (length : Nat) : Steady (itemPlace index length) := by
  unfold itemPlace
  split
  · exact of_pure _
  · exact of_throw rfl

theorem of_newArray : Steady newArray := by
  refine of_pop.bind fun value => (of_integer _ value).bind fun length => ?_
  split
  · exact of_throw_bind rfl
  · refine of_read.bind fun setup => ?_
    split
    · exact of_throw_bind rfl
    · exact of_pushArray _

theorem of_makeArray (count : Nat) : Steady (makeArray count) :=
  (of_popMany count).bind of_pushArray

theorem of_arrayLoad : Steady arrayLoad :=
  of_pop.bind fun index => of_pop.bind fun value => (of_arrayFor _ value).bind fun _ =>
    (of_integer _ index).bind fun _ => of_heap.bind fun _ =>
      (of_itemPlace _ _).bind fun _ => of_push _

theorem of_arrayStore : Steady arrayStore :=
  of_pop.bind fun _ => of_pop.bind fun index => of_pop.bind fun value =>
    (of_arrayFor _ value).bind fun _ => (of_integer _ index).bind fun _ =>
      of_heap.bind fun _ => (of_itemPlace _ _).bind fun _ => of_onStore _

theorem of_arrayLength : Steady arrayLength :=
  of_pop.bind fun value => (of_arrayFor _ value).bind fun _ => of_heap.bind fun _ => of_push _

/-! ## Members -/

theorem of_memberClass (member : String) (target : Value) : Steady (memberClass member target) := by
  cases target with
  | null => exact of_throw rfl
  | object view id => exact of_pure _
  | classRef id => exact of_pure _
  | _ => exact (of_describe _).bind fun _ => of_throw rfl

theorem of_nativeTarget (target : Value) : Steady (nativeTarget target) := by
  cases target with
  | object view id => exact of_heap.bind fun heap => of_pure _
  | _ => exact of_pure _

theorem of_native (facade : Facade) (operation : Store → Except String (α × Store)) :
    Steady (native facade operation) := by
  refine of_get.bind fun scene => ?_
  dsimp only
  split
  · exact (of_onStore _).bind fun _ => of_pure _
  · exact of_throw rfl

theorem of_fieldSlot (info : ClassDef) (target : Value) (name : Symbol) :
    Steady (fieldSlot info target name) := by
  refine of_program.bind fun program => ?_
  split
  · exact of_throw rfl
  · split
    · exact of_pure _
    · exact of_pure _
    · exact of_throw rfl

theorem of_readField (target : Value) (name : Symbol) : Steady (readField target name) := by
  refine of_program.bind fun program => (of_memberClass _ target).bind fun id => ?_
  dsimp only
  split
  · exact (of_nativeTarget target).bind fun object => of_native _ _
  · refine (of_fieldSlot _ target name).bind fun field => ?_
    split
    · exact of_heap.bind fun heap => of_pure _
    · exact of_get.bind fun _ => of_pure _

theorem of_writeField (target : Value) (name : Symbol) (value : Value) :
    Steady (writeField target name value) := by
  refine of_program.bind fun program => (of_memberClass _ target).bind fun id => ?_
  dsimp only
  split
  · exact (of_nativeTarget target).bind fun object => of_native _ _
  · refine (of_fieldSlot _ target name).bind fun field => ?_
    split
    · exact of_onStore _
    · exact of_onStore _

theorem of_hierarchy : Steady hierarchy :=
  of_pop.bind fun target => (of_memberClass _ target).bind fun _ => of_program.bind fun _ =>
    of_pushTexts _

theorem of_fields : Steady fields := by
  refine of_pop.bind fun target => of_program.bind fun program =>
    (of_memberClass _ target).bind fun id => ?_
  dsimp only
  split
  · exact of_pushTexts _
  · exact of_pushTexts _

theorem of_methods : Steady methods :=
  of_pop.bind fun target => of_program.bind fun _ => (of_memberClass _ target).bind fun _ =>
    of_pushTexts _

theorem of_memberName (operation : String) (name : Value) : Steady (memberName operation name) := by
  unfold memberName
  cases name.asText? with
  | none => exact of_throw rfl
  | some text => exact of_pure _

theorem of_fieldSymbol (info : ClassDef) (name : Value) : Steady (fieldSymbol info name) := by
  refine (of_memberName _ name).bind fun text => of_program.bind fun program => ?_
  split
  · exact of_pure _
  · exact of_throw rfl

theorem of_getField : Steady getField :=
  of_pop.bind fun name => of_pop.bind fun target => of_program.bind fun _ =>
    (of_memberClass _ target).bind fun _ => (of_fieldSymbol _ name).bind fun symbol =>
      (of_readField target symbol).bind of_push

theorem of_setField : Steady setField :=
  of_pop.bind fun value => of_pop.bind fun name => of_pop.bind fun target =>
    of_program.bind fun _ => (of_memberClass _ target).bind fun _ =>
      (of_fieldSymbol _ name).bind fun symbol => of_writeField target symbol value

/-! ## Calls -/

theorem of_enterFrame (key : MethodKey) (entry : MethodEntry) (address : Nat)
    (localCount : UInt16) (kind : FrameKind) (returnIp : Nat) :
    Steady (enterFrame key entry address localCount kind returnIp) := by
  refine of_read.bind fun setup => (of_ofThread _).bind fun size => ?_
  split
  · exact of_throw_bind rfl
  · refine (of_ofThread _).bind fun depth => ?_
    dsimp only
    split
    · exact of_throw_bind rfl
    · exact bind (of_onThread fun _ => ⟨rfl, rfl⟩) fun _ => (of_reserve _).bind fun _ =>
        of_onThread fun _ => ⟨rfl, rfl⟩

theorem of_callNative (info : ClassDef) (receiver : Value) (key : MethodKey) :
    Steady (callNative info receiver key) := by
  unfold callNative
  split
  · exact of_throw rfl
  · exact (of_popMany _).bind fun args => of_pop.bind fun _ =>
      (of_nativeTarget receiver).bind fun object => of_program.bind fun _ =>
        (of_native _ _).bind of_push

theorem of_enterMethod (key : MethodKey) (kind : FrameKind) (info : ClassDef) (receiver : Value)
    (entry : MethodEntry) : Steady (enterMethod key kind info receiver entry) := by
  unfold enterMethod
  split
  · exact of_callNative info receiver key
  · exact (of_ofThread _).bind fun _ => of_enterFrame _ _ _ _ _ _

theorem of_callMethod (key : MethodKey) (kind : FrameKind) : Steady (callMethod key kind) := by
  refine of_program.bind fun program => (of_peek _).bind fun receiver =>
    (of_memberClass _ receiver).bind fun id => ?_
  dsimp only
  split
  · exact of_throw rfl
  · split
    · exact of_throw rfl
    · exact of_enterMethod _ _ _ _ _

theorem of_storeConstants (id : ClassId) (info : ClassDef) : Steady (storeConstants id info) := by
  refine of_forM (fun constant => ?_) _
  obtain ⟨name, value⟩ := constant
  dsimp only
  split
  · exact of_onStore _
  · exact of_pure _

theorem of_initializeClass (id : ClassId) (resumeIp : Nat) :
    Steady (initializeClass id resumeIp) := by
  refine of_get.bind fun scene => ?_
  split
  · exact of_pure _
  · refine of_program.bind fun program => (of_onStore _).bind fun _ =>
      (of_storeConstants id _).bind fun _ => ?_
    split
    · exact of_pure _
    · exact (of_push _).bind fun _ => (of_enterFrame _ _ _ _ _ _).bind fun _ => of_pure _

theorem of_asParent : Steady asParent := by
  refine of_pop.bind fun value => of_program.bind fun program =>
    (of_ofThread _).bind fun frame => ?_
  split
  · exact of_throw rfl
  · split
    · exact of_throw rfl
    · split
      · exact of_push _
      · exact of_push _
      · exact of_throw rfl
      · exact (of_describe _).bind fun _ => of_throw rfl

theorem of_invoke : Steady invoke := by
  refine of_pop.bind fun args => of_pop.bind fun name => of_pop.bind fun target => ?_
  split
  · refine of_heap.bind fun heap => of_program.bind fun program =>
      (of_memberClass _ target).bind fun id => (of_memberName _ name).bind fun method => ?_
    dsimp only
    split
    · exact of_throw_bind rfl
    · split
      · exact of_throw rfl
      · exact (of_push target).bind fun _ => (of_forM_array of_push _).bind fun _ =>
          of_callMethod _ _
  · exact of_throw rfl

/-! ## Branches and exceptions -/

theorem of_jump (target : Nat) : Steady (jump target) :=
  of_onThread (.of_branchTo target)

theorem of_jumpIf (opcode : Opcode) (wanted : Bool) (target : Nat) :
    Steady (jumpIf opcode wanted target) := by
  refine of_pop.bind fun value => ?_
  split
  · split
    · exact of_jump target
    · exact of_pure _
  · exact of_throw rfl

theorem of_jumpIfCompare (op : ComparisonOp) (target : Nat) :
    Steady (jumpIfCompare op target) := by
  refine of_pop.bind fun b => of_pop.bind fun a =>
    (of_require Value.aboutData_of_comparison).bind fun holds => ?_
  split
  · exact of_jump target
  · exact of_pure _

theorem of_jumpByCase (instruction : Instruction) : Steady (jumpByCase instruction) := by
  refine of_pop.bind fun value => ?_
  split
  · exact of_throw rfl
  · split
    · split
      · split
        · exact of_jump _
        · exact of_pure _
      · exact of_pure _
    · exact of_pure _

theorem of_enterTry (instruction : Instruction) : Steady (enterTry instruction) := by
  rw [Thread.enterTry_eq_entered]
  exact of_onThread fun _ => ⟨rfl, rfl⟩

theorem of_raise (exception : Value) : Steady (raise exception) := by
  refine bind (of_onThread fun _ => ⟨rfl, rfl⟩) fun _ => (of_ofThread _).bind fun handlers => ?_
  split
  · exact (of_describe _).bind fun _ => of_throw rfl
  · refine bind (of_onThread fun _ => ⟨rfl, rfl⟩) fun _ => ?_
    split
    · exact bind (of_onThread fun _ => ⟨rfl, rfl⟩) fun _ => (of_push _).bind fun _ =>
        of_onThread fun _ => ⟨rfl, rfl⟩
    · exact of_onThread (.of_enterFinally _)

theorem of_leaveTry : Steady leaveTry := by
  refine bind (of_ofThread _) fun phase => ?_
  split
  · exact of_onThread (.of_enterFinally _)
  · exact of_throw rfl

theorem of_leaveCatch : Steady leaveCatch := by
  refine bind (of_ofThread _) fun phase => ?_
  split
  · exact of_onThread (.of_enterFinally _)
  · exact of_throw rfl

theorem of_reraise : Steady reraise := by
  refine (of_ofThread _).bind fun current => ?_
  split
  · split
    · exact of_onThread fun thread => (Thread.Stays.of_enterFinally _ _).trans ⟨rfl, rfl⟩
    · exact of_throw rfl
  · exact of_throw rfl

theorem of_leaveFrame (kind : FrameKind) (form : ReturnForm) (dp : Nat) :
    Steady (leaveFrame kind form dp) := by
  unfold leaveFrame
  split
  · exact of_truncate _
  · exact of_truncate _
  · exact of_truncate _
  · exact (of_truncate _).bind fun _ => of_push _
  · exact (of_truncate _).bind fun _ => of_push _
  · exact of_truncate _

theorem of_monitorKey (operation : String) (target : Value) :
    Steady (monitorKey operation target) := by
  cases target with
  | object view id => exact of_pure _
  | array id => exact of_pure _
  | classRef id => exact of_pure _
  | _ => exact (of_describe _).bind fun _ => of_throw rfl

theorem of_signal : Steady signal := by
  refine of_pop.bind fun target => (of_monitorKey _ target).bind fun key =>
    of_get.bind fun scene => ?_
  split
  · exact of_onHeld _
  · exact (of_describe _).bind fun _ => of_throw rfl

theorem of_pushThreadId : Steady pushThreadId :=
  (of_ofThread _).bind fun _ => of_push _

end Steady

/-! ## Instructions that ask something of the scheduler -/

namespace Asks

theorem of_pure {signal : Signal} (h : signal ≠ .yield) : Asks (pure signal) := by
  intro setup scene
  refine ⟨rfl, ?_⟩
  cases signal with
  | yield => exact absurd rfl h
  | _ => rfl

theorem of_throw {fault : Fault} (h : fault.aboutData) : Asks (throw fault) :=
  fun _ _ => ⟨rfl, h⟩

theorem bind {step : Step α} {following : α → Step Signal} (h : Steady step)
    (hn : ∀ value, Asks (following value)) : Asks (step >>= following) := by
  intro setup scene
  refine (h setup scene).bind (fun _ => id) fun value middle _ state => ?_
  rw [← state]
  exact hn value setup middle

/-- A part that asks nothing of the scheduler. -/
theorem proceed {step : Step Unit} (h : Steady step) :
    Asks (do step; pure Signal.proceed) :=
  bind h fun _ => of_pure nofun

/-- A thread that gives way. -/
theorem of_setState {state : ThreadState} (h : ∀ before, Signal.Fits before .yield state) :
    Asks (do setState state; pure Signal.yield) :=
  fun _ scene => ⟨rfl, h scene.thread.state⟩

theorem of_join : Asks join := by
  refine bind .of_pop fun value => ?_
  split
  · exact bind (.of_describe value) fun _ => of_throw rfl
  · refine bind (.of_ofThread _) fun own => ?_
    split
    · exact fun _ _ => ⟨rfl, rfl⟩
    · exact of_pure nofun

theorem of_nice : Asks nice :=
  of_setState fun _ => .inl rfl

theorem of_sleep : Asks sleep := by
  refine bind .of_pop fun value => ?_
  split
  · exact of_throw rfl
  · exact bind .of_get fun _ => of_setState fun _ => .inr (.inl ⟨_, rfl⟩)

theorem of_wait : Asks wait := by
  refine bind .of_pop fun target => bind (.of_monitorKey _ target) fun key =>
    bind .of_get fun scene => ?_
  split
  · exact of_setState fun _ => .inr (.inr ⟨key, rfl⟩)
  · exact bind (.of_onHeld _) fun _ => of_pure nofun

theorem of_returnFrom (form : ReturnForm) : Asks (returnFrom form) := by
  refine bind (.of_ofThread _) fun interceptor => ?_
  split
  · exact proceed (.of_onThread (.of_enterFinally _))
  · refine bind (.of_ofThread _) fun top => ?_
    split
    · exact of_pure nofun
    · exact bind (.of_ofThread _) fun frame => bind (.of_ofThread _) fun dp =>
        bind (.of_onThread fun _ => ⟨rfl, rfl⟩) fun _ => bind (.of_leaveFrame _ _ _) fun _ =>
          proceed (.of_onThread fun _ => ⟨rfl, rfl⟩)

theorem of_carryOut (exit : ExitAction) : Asks (carryOut exit) := by
  cases exit with
  | fallThrough => exact of_pure nofun
  | ret => exact of_returnFrom _
  | retValue value => exact of_returnFrom _
  | retConstructor => exact of_returnFrom _
  | branch target => exact proceed (.of_jump target)
  | rethrow exception => exact proceed (.of_raise exception)

theorem of_leaveFinally : Asks leaveFinally := by
  refine bind (.of_ofThread _) fun phase => ?_
  split
  · exact bind (.of_onThread fun _ => ⟨rfl, rfl⟩) fun _ => of_carryOut _
  · exact of_throw rfl

end Asks

/-! ## Instructions that look something up -/

section

variable {setup : Setup} {scene : Scene}

/-- A part that begins with a look into a table of its module fails over values, or because the
number is not in the table. -/
theorem settles_lookup {entries : ModuleRecord → Array α} {table : ReferenceTable}
    {instruction : Instruction} (refers : instruction.opcode.references = some table)
    (listed : table ≠ .locals) (sizes : ∀ record, (entries record).size = record.tableSize table)
    {following : α → Step Unit} (h : ∀ value, Steady (following value)) :
    Settles setup scene
      (fun fault => fault.aboutData ∨
        instruction.Misses (setup.program.moduleOf scene.thread.moduleId) fault)
      (fun _ state => state = scene.thread.state)
      (do
        let record ← moduleRecord
        following (← require (record.entry table (entries record) instruction.index))) := by
  refine (Steady.of_moduleRecord setup scene).bind (fun _ => .inl) fun record middle hr state => ?_
  obtain ⟨rfl, rfl⟩ : setup.program.moduleOf scene.thread.moduleId = record ∧ scene = middle := by
    cases hr
    exact ⟨rfl, rfl⟩
  cases found : (setup.program.moduleOf scene.thread.moduleId).entry table
      (entries (setup.program.moduleOf scene.thread.moduleId)) instruction.index with
  | ok value => exact (h value setup scene).mono fun _ => .inl
  | error fault =>
      obtain ⟨rfl, missing⟩ := ModuleRecord.entry_eq_error found
      rw [sizes] at missing
      exact ⟨rfl, .inr ⟨table, refers, listed, missing, rfl⟩⟩

theorem execute_settles (instruction : Instruction) :
    Settles setup scene
      (fun fault => fault.aboutData ∨
        instruction.Misses (setup.program.moduleOf scene.thread.moduleId) fault)
      (Signal.Fits scene.thread.state) (execute instruction) := by
  have plain {step : Step Signal} (h : Asks step) :
      Settles setup scene
        (fun fault => fault.aboutData ∨
          instruction.Misses (setup.program.moduleOf scene.thread.moduleId) fault)
        (Signal.Fits scene.thread.state) step :=
    (h setup scene).mono fun _ => .inl
  have lookup {table : ReferenceTable} (refers : instruction.opcode.references = some table)
      (listed : table ≠ .locals) {α : Type} {entries : ModuleRecord → Array α}
      (sizes : ∀ record, (entries record).size = record.tableSize table)
      {following : α → Step Unit} (h : ∀ value, Steady (following value)) :
      Settles setup scene
        (fun fault => fault.aboutData ∨
          instruction.Misses (setup.program.moduleOf scene.thread.moduleId) fault)
        (Signal.Fits scene.thread.state)
        (do
          (do
            let record ← moduleRecord
            following (← require (record.entry table (entries record) instruction.index)))
          pure Signal.proceed) :=
    (settles_lookup refers listed sizes h).bind (fun _ => id) fun _ _ _ state => ⟨rfl, state⟩
  unfold execute
  dsimp only
  cases hop : instruction.opcode with
  | nop => exact plain (.of_pure nofun)
  | pop => exact plain (.bind .of_pop fun _ => .of_pure nofun)
  | dup => exact plain (.proceed .of_dup)
  | swap => exact plain (.proceed .of_swap)
  | pushNull => exact plain (.proceed (.of_push _))
  | pushTrue => exact plain (.proceed (.of_push _))
  | pushFalse => exact plain (.proceed (.of_push _))
  | pushByte => exact plain (.proceed (.of_push _))
  | pushChar => exact plain (.proceed (.of_push _))
  | pushShort => exact plain (.proceed (.of_push _))
  | pushInt => exact plain (.proceed (.of_push _))
  | pushLong => exact plain (.proceed (.of_push _))
  | pushDouble => exact plain (.proceed (.of_push _))
  | loadLocal => exact plain (.proceed (.of_loadLocal _))
  | storeLocal => exact plain (.proceed (.of_storeLocal _))
  | add => exact plain (.proceed (.of_arithmetic _))
  | sub => exact plain (.proceed (.of_arithmetic _))
  | mul => exact plain (.proceed (.of_arithmetic _))
  | div => exact plain (.proceed (.of_arithmetic _))
  | mod => exact plain (.proceed (.of_arithmetic _))
  | neg => exact plain (.proceed .of_negate)
  | not => exact plain (.proceed .of_complement)
  | convert => exact plain (.proceed (.of_convert _))
  | ce => exact plain (.proceed (.of_compare _))
  | cne => exact plain (.proceed (.of_compare _))
  | cl => exact plain (.proceed (.of_compare _))
  | cle => exact plain (.proceed (.of_compare _))
  | cg => exact plain (.proceed (.of_compare _))
  | cge => exact plain (.proceed (.of_compare _))
  | jmp => exact plain (.proceed (.of_jump _))
  | jt => exact plain (.proceed (.of_jumpIf _ _ _))
  | jf => exact plain (.proceed (.of_jumpIf _ _ _))
  | jce => exact plain (.proceed (.of_jumpIfCompare _ _))
  | jcne => exact plain (.proceed (.of_jumpIfCompare _ _))
  | jcl => exact plain (.proceed (.of_jumpIfCompare _ _))
  | jcle => exact plain (.proceed (.of_jumpIfCompare _ _))
  | jcg => exact plain (.proceed (.of_jumpIfCompare _ _))
  | jcge => exact plain (.proceed (.of_jumpIfCompare _ _))
  | caseOf => exact plain (.proceed (.of_jumpByCase _))
  | ret => exact plain (.of_returnFrom _)
  | retVal => exact plain (.bind .of_pop fun _ => .of_returnFrom _)
  | retCtor => exact plain (.of_returnFrom _)
  | super => exact plain (.proceed .of_asParent)
  | enterTry => exact plain (.proceed (.of_enterTry _))
  | leaveTry => exact plain (.proceed .of_leaveTry)
  | leaveCatch => exact plain (.proceed .of_leaveCatch)
  | leaveFinally => exact plain .of_leaveFinally
  | raise => exact plain (.bind .of_pop fun _ => .proceed (.of_raise _))
  | reraise => exact plain (.proceed .of_reraise)
  | newArray => exact plain (.proceed .of_newArray)
  | arrayLoad => exact plain (.proceed .of_arrayLoad)
  | arrayStore => exact plain (.proceed .of_arrayStore)
  | arrayLength => exact plain (.proceed .of_arrayLength)
  | makeArray => exact plain (.proceed (.of_makeArray _))
  | fork => exact plain (.of_pure nofun)
  | join => exact plain .of_join
  | exit => exact plain (.of_pure nofun)
  | nice => exact plain .of_nice
  | sleep => exact plain .of_sleep
  | wait => exact plain .of_wait
  | signal => exact plain (.proceed .of_signal)
  | threadId => exact plain (.proceed .of_pushThreadId)
  | hierarchy => exact plain (.proceed .of_hierarchy)
  | fields => exact plain (.proceed .of_fields)
  | methods => exact plain (.proceed .of_methods)
  | getField => exact plain (.proceed .of_getField)
  | setField => exact plain (.proceed .of_setField)
  | invoke => exact plain (.proceed .of_invoke)
  | pushString =>
      exact lookup (congrArg Opcode.references hop) nofun (fun _ => rfl)
        fun text => .of_push (.text text)
  | loadField =>
      exact lookup (congrArg Opcode.references hop) nofun (fun _ => rfl) fun name =>
        .bind .of_pop fun target => (Steady.of_readField target name).bind .of_push
  | storeField =>
      exact lookup (congrArg Opcode.references hop) nofun (fun _ => rfl) fun name =>
        .bind .of_pop fun value => .bind .of_pop fun target => .of_writeField target name value
  | loadClass =>
      refine lookup (congrArg Opcode.references hop) nofun (fun _ => rfl) fun id =>
        .bind (.of_initializeClass id _) fun entered => ?_
      split
      · exact .of_pure _
      · exact .of_push _
  | new =>
      refine lookup (congrArg Opcode.references hop) nofun (fun _ => rfl) fun id =>
        .bind .of_program fun program => ?_
      dsimp only
      split
      · exact .bind (.of_native _ _) fun object => .of_push _
      · exact .bind (.of_modifyGetWorld fun world =>
          let created :=
            world.store.heap.newFields (program.catalog.get id).instanceFieldCount.toNat
          (created.1, { world with store := { world.store with heap := created.2 } }))
            fun object => .of_push _
  | instanceOf =>
      refine lookup (congrArg Opcode.references hop) nofun (fun _ => rfl) fun id =>
        .bind .of_pop fun value => ?_
      split
      · exact .bind .of_program fun _ => .of_push _
      · exact .of_push _
      · exact .bind (.of_describe _) fun _ => .of_throw rfl
  | call =>
      exact lookup (congrArg Opcode.references hop) nofun (fun _ => rfl)
        fun key => .of_callMethod key .normal

end

end Step

end ObjectMachine
