import ObjectMachine.Proofs.Machine.Registers

/-!
# Ordinary instructions

Most instructions are made of a few kinds of parts: they look at the setup, at the thread and at the
store, and change the thread and what is kept in the store. What holds of these parts, and of parts
that follow each other, holds of all such instructions. Four are different: `wait`, `signal` and
`sleep` have to do with monitors and the clock, and `loadclass` marks classes as initialized.
-/

namespace ObjectMachine

/-- Which classes are marked as initialized. -/
def Store.latches (store : Store) : Array Bool :=
  store.statics.map (·.initialized)

namespace Store

variable {store after : Store}

theorem latches_setStatic (store : Store) (id : ClassId) (slot : UInt32) (value : Value) :
    (store.setStatic id slot value).latches = store.latches := by
  apply Array.ext_getElem?
  intro place
  simp only [latches, setStatic, Array.getElem?_map, Array.getElem?_modify]
  split
  · rw [Option.map_map]
    rfl
  · rfl

theorem latches_of_operate {facade : Facade} {target : Option ObjectId} {operation : Native α}
    {answer : α} (h : store.operate facade target operation = .ok (answer, after)) :
    after.latches = store.latches := by
  obtain ⟨scope, -, h⟩ := Except.bind_eq_ok_iff.mp h
  obtain ⟨⟨result, scope⟩, -, h⟩ := Except.bind_eq_ok_iff.mp h
  cases h
  rfl

theorem latches_of_newNative {facade : Facade} {object : ObjectId}
    (h : store.newNative facade = .ok (object, after)) : after.latches = store.latches := by
  obtain ⟨⟨slots, made⟩, creates, h⟩ := Except.bind_eq_ok_iff.mp h
  have same : made.latches = store.latches := latches_of_operate creates
  cases h
  exact same

end Store

namespace Step

/-- Whether a part of an instruction is made of ordinary ones. -/
inductive Ordinary : {α : Type} → Step α → Prop
  | of_pure {α : Type} (value : α) : Ordinary (pure value)
  | of_throw {α : Type} (fault : Fault) : Ordinary (throw fault : Step α)
  | bind {α β : Type} {step : Step α} {following : α → Step β} :
      Ordinary step → (∀ value, Ordinary (following value)) → Ordinary (step >>= following)
  | of_read : Ordinary read
  | of_ofThread {α : Type} (part : Thread → α) : Ordinary (ofThread part)
  | of_ofStore {α : Type} (part : Store → α) : Ordinary (do pure (part (← get).world.store))
  | of_onThread (change : Thread → Thread) : Ordinary (onThread change)
  | of_onStack {α : Type} (operation : Stack.Operation α) : Ordinary (onStack operation)
  /-- A change of the store, with an answer, that marks no class. -/
  | of_change {α : Type} (change : Store → α × Store) :
      (∀ store, (change store).2.latches = store.latches) →
      Ordinary (modifyGet fun scene =>
        ((change scene.world.store).1,
          { scene with world := { scene.world with store := (change scene.world.store).2 } }))
  | of_native {α : Type} (facade : Facade) (operation : Store → Except String (α × Store)) :
      (∀ store answer after, operation store = .ok (answer, after) →
        after.latches = store.latches) →
      Ordinary (native facade operation)

end Step

def Opcode.isOrdinary : Opcode → Bool
  | loadClass | sleep | wait | signal => false
  | _ => true

namespace Step.Ordinary

/-- Nothing follows a fault. -/
theorem of_throw_bind {α β : Type} (fault : Fault) {following : α → Step β} :
    Ordinary ((throw fault : Step α) >>= following) :=
  of_throw fault

theorem map {α β : Type} {step : Step α} {f : α → β} (h : Ordinary step) :
    Ordinary (f <$> step) := by
  rw [← bind_pure_comp]
  exact h.bind fun value => of_pure (f value)

theorem of_require {α : Type} (result : Except Fault α) : Ordinary (require result) := by
  cases result with
  | ok value => exact of_pure value
  | error fault => exact of_throw fault

theorem of_program : Ordinary program :=
  of_read.bind fun setup => of_pure setup.program

theorem of_heap : Ordinary heap :=
  of_ofStore _

theorem of_moduleRecord : Ordinary moduleRecord :=
  of_program.bind fun program => (of_ofThread _).bind fun id => of_pure (program.moduleOf id)

theorem of_describe (value : Value) : Ordinary (describe value) :=
  of_program.bind fun program => of_heap.bind fun heap => of_pure (program.describe heap value)

theorem of_onStore (change : Store → Store) (h : ∀ store, (change store).latches = store.latches) :
    Ordinary (onStore change) :=
  of_change (fun store => ((), change store)) h

theorem of_forM {α : Type} {step : α → Step Unit} (h : ∀ item, Ordinary (step item))
    (items : List α) : Ordinary (items.forM step) := by
  induction items with
  | nil => exact of_pure _
  | cons item rest ih => exact (h item).bind fun _ => ih

theorem of_forM_array {α : Type} {step : α → Step Unit} (h : ∀ item, Ordinary (step item))
    (items : Array α) : Ordinary (items.forM step) := by
  obtain ⟨items⟩ := items
  rw [Array.forM_eq_forM, List.forM_toArray]
  exact of_forM h items

theorem of_push (value : Value) : Ordinary (push value) :=
  of_onStack _

theorem of_pop : Ordinary pop :=
  of_onStack _

theorem of_pushArray (items : Array Value) : Ordinary (pushArray items) :=
  bind (of_change (fun store =>
    let created := store.heap.newArray items
    (created.1, { store with heap := created.2 })) fun _ => rfl) fun id => of_push (.array id)

/-! ## Values, locals and arithmetic -/

theorem of_swap : Ordinary swap :=
  of_pop.bind fun upper => of_pop.bind fun lower => (of_push upper).bind fun _ => of_push lower

theorem of_loadLocal (slot : UInt32) : Ordinary (loadLocal slot) := by
  refine (of_ofThread _).bind fun found => ?_
  cases found with
  | none => exact of_throw _
  | some value => exact of_push value

theorem of_storeLocal (slot : UInt32) : Ordinary (storeLocal slot) := by
  refine of_pop.bind fun value => (of_ofThread _).bind fun dp =>
    (of_onStack _).bind fun stored => ?_
  cases stored with
  | true => exact of_pure _
  | false => exact of_throw _

theorem of_binary {operation : Value → Value → Step Value}
    (h : ∀ a b, Ordinary (operation a b)) :
    Ordinary (binary operation) :=
  of_pop.bind fun b => of_pop.bind fun a => (h a b).bind of_push

theorem of_sum (a b : Value) : Ordinary (sum a b) := by
  have text : Ordinary (do pure (.text ((← describe a) ++ (← describe b))) : Step Value) :=
    (of_describe a).bind fun _ => (of_describe b).bind fun _ => of_pure _
  unfold sum
  split
  · exact text
  · exact text
  · exact of_require _

theorem of_arithmetic (op : ArithmeticOp) : Ordinary (arithmetic op) := by
  refine of_binary fun a b => ?_
  cases op with
  | add => exact of_sum a b
  | _ => exact of_require _

theorem of_compare (op : ComparisonOp) : Ordinary (compare op) :=
  of_binary fun _ _ => (of_require _).map

theorem of_convert (code : UInt8) : Ordinary (convert code) := by
  unfold convert
  split
  · exact of_throw _
  · exact of_pop.bind fun value => (of_describe value).bind fun text => of_push (.text text)
  · exact of_pop.bind fun value => of_heap.bind fun heap => (of_require _).bind of_push

/-! ## Arrays -/

theorem of_integer (purpose : String) (value : Value) :
    Ordinary (integer purpose value) := by
  unfold integer
  split
  · exact of_pure _
  · exact of_throw _

theorem of_arrayFor (operation : String) (value : Value) :
    Ordinary (arrayFor operation value) := by
  unfold arrayFor
  split
  · exact of_pure _
  · exact of_throw _
  · exact of_throw _

theorem of_itemPlace (index : Int64) (length : Nat) :
    Ordinary (itemPlace index length) := by
  unfold itemPlace
  split
  · exact of_pure _
  · exact of_throw _

theorem of_newArray : Ordinary newArray := by
  refine of_pop.bind fun value => (of_integer _ value).bind fun length => ?_
  split
  · exact of_throw_bind _
  · refine of_read.bind fun setup => ?_
    split
    · exact of_throw_bind _
    · exact of_pushArray _

theorem of_arrayLoad : Ordinary arrayLoad :=
  of_pop.bind fun index => of_pop.bind fun value => (of_arrayFor _ value).bind fun _ =>
    (of_integer _ index).bind fun _ => of_heap.bind fun _ =>
      (of_itemPlace _ _).bind fun _ => of_push _

theorem of_arrayStore : Ordinary arrayStore :=
  of_pop.bind fun _ => of_pop.bind fun index => of_pop.bind fun value =>
    (of_arrayFor _ value).bind fun _ => (of_integer _ index).bind fun _ =>
      of_heap.bind fun _ => (of_itemPlace _ _).bind fun _ => of_onStore _ fun _ => rfl

theorem of_arrayLength : Ordinary arrayLength :=
  of_pop.bind fun value => (of_arrayFor _ value).bind fun _ => of_heap.bind fun _ => of_push _

/-! ## Members -/

theorem of_memberClass (member : String) (target : Value) :
    Ordinary (memberClass member target) := by
  unfold memberClass
  split
  · exact of_pure _
  · exact of_pure _
  · exact of_throw _
  · exact (of_describe _).bind fun _ => of_throw _

theorem of_nativeTarget (target : Value) : Ordinary (nativeTarget target) := by
  unfold nativeTarget
  split
  · exact of_heap.bind fun heap => of_pure _
  · exact of_pure _

theorem of_fieldSlot (info : ClassDef) (target : Value) (name : Symbol) :
    Ordinary (fieldSlot info target name) := by
  refine of_program.bind fun program => ?_
  split
  · exact of_throw _
  · split
    · exact of_pure _
    · exact of_pure _
    · exact of_throw _

theorem of_readField (target : Value) (name : Symbol) :
    Ordinary (readField target name) := by
  refine of_program.bind fun program => (of_memberClass _ target).bind fun id => ?_
  dsimp only
  split
  · exact (of_nativeTarget target).bind fun object => of_native _ _ fun _ _ _ =>
      Store.latches_of_operate
  · refine (of_fieldSlot _ target name).bind fun field => ?_
    split
    · exact of_heap.bind fun heap => of_pure _
    · exact of_ofStore fun store => (store.staticsOf id).value field.slot

theorem of_writeField (target : Value) (name : Symbol) (value : Value) :
    Ordinary (writeField target name value) := by
  refine of_program.bind fun program => (of_memberClass _ target).bind fun id => ?_
  dsimp only
  split
  · exact (of_nativeTarget target).bind fun object => of_native _ _ fun _ _ _ =>
      Store.latches_of_operate
  · refine (of_fieldSlot _ target name).bind fun field => ?_
    split
    · exact of_onStore _ fun _ => rfl
    · exact of_onStore _ fun store => store.latches_setStatic id field.slot value

theorem of_instanceOf (index : UInt32) : Ordinary (instanceOf index) := by
  refine of_moduleRecord.bind fun record => (of_require _).bind fun id =>
    of_pop.bind fun value => ?_
  split
  · exact of_program.bind fun _ => of_push _
  · exact of_push _
  · exact (of_describe _).bind fun _ => of_throw _

theorem of_fields : Ordinary fields := by
  refine of_pop.bind fun target => of_program.bind fun program =>
    (of_memberClass _ target).bind fun id => ?_
  dsimp only
  split
  · exact of_pushArray _
  · exact of_pushArray _

theorem of_memberName (operation : String) (name : Value) :
    Ordinary (memberName operation name) := by
  unfold memberName
  split
  · exact of_pure _
  · exact of_throw _

theorem of_fieldSymbol (info : ClassDef) (name : Value) :
    Ordinary (fieldSymbol info name) := by
  refine (of_memberName _ name).bind fun text => of_program.bind fun program => ?_
  split
  · exact of_pure _
  · exact of_throw _

theorem of_getField : Ordinary getField :=
  of_pop.bind fun name => of_pop.bind fun target => of_program.bind fun _ =>
    (of_memberClass _ target).bind fun _ => (of_fieldSymbol _ name).bind fun symbol =>
      (of_readField target symbol).bind of_push

theorem of_setField : Ordinary setField :=
  of_pop.bind fun value => of_pop.bind fun name => of_pop.bind fun target =>
    of_program.bind fun _ => (of_memberClass _ target).bind fun _ =>
      (of_fieldSymbol _ name).bind fun symbol => of_writeField target symbol value

/-! ## Calls -/

theorem of_enterFrame (key : MethodKey) (entry : MethodEntry) (address : Nat)
    (localCount : UInt16) (kind : FrameKind) (returnIp : Nat) :
    Ordinary (enterFrame key entry address localCount kind returnIp) := by
  refine of_read.bind fun setup => (of_ofThread _).bind fun size => ?_
  split
  · exact of_throw_bind _
  · refine (of_ofThread _).bind fun depth => ?_
    dsimp only
    split
    · exact of_throw_bind _
    · exact (of_onThread _).bind fun _ => (of_onStack _).bind fun _ => of_onThread _

theorem of_callNative (info : ClassDef) (receiver : Value) (key : MethodKey) :
    Ordinary (callNative info receiver key) := by
  unfold callNative
  split
  · exact of_throw _
  · exact (of_onStack _).bind fun args => of_pop.bind fun _ =>
      (of_nativeTarget receiver).bind fun object => of_program.bind fun _ =>
        (of_native _ _ fun _ _ _ => Store.latches_of_operate).bind of_push

/-- The constants of an enumeration mark no class. -/
theorem of_storeConstants (id : ClassId) (info : ClassDef) :
    Ordinary (storeConstants id info) := by
  refine of_forM (fun constant => ?_) _
  obtain ⟨name, value⟩ := constant
  dsimp only
  split
  · next field _ =>
      exact of_onStore _ fun store => store.latches_setStatic id field.slot (.int value)
  · exact of_pure _

theorem of_callMethod (key : MethodKey) (kind : FrameKind) :
    Ordinary (callMethod key kind) := by
  refine of_program.bind fun program => (of_onStack _).bind fun receiver =>
    (of_memberClass _ receiver).bind fun id => ?_
  dsimp only
  split
  · exact of_throw _
  · split
    · exact of_throw _
    · unfold enterMethod
      split
      · exact of_callNative _ _ _
      · exact (of_ofThread _).bind fun _ => of_enterFrame _ _ _ _ _ _

theorem of_new (index : UInt32) : Ordinary (new index) := by
  refine of_moduleRecord.bind fun record => (of_require _).bind fun id =>
    of_program.bind fun program => ?_
  dsimp only
  split
  · exact (of_native _ _ fun _ _ _ => Store.latches_of_newNative).bind fun object => of_push _
  · have creates := of_change (fun store =>
      let created := store.heap.newFields (program.catalog.get id).instanceFieldCount.toNat
      (created.1, { store with heap := created.2 })) fun _ => rfl
    exact creates.bind fun object => of_push _

theorem of_asParent : Ordinary asParent := by
  refine of_pop.bind fun value => of_program.bind fun program =>
    (of_ofThread _).bind fun frame => ?_
  split
  · exact of_throw _
  · split
    · exact of_throw _
    · split
      · exact of_push _
      · exact of_push _
      · exact of_throw _
      · exact (of_describe _).bind fun _ => of_throw _

theorem of_invoke : Ordinary invoke := by
  refine of_pop.bind fun args => of_pop.bind fun name => of_pop.bind fun target => ?_
  split
  · refine of_heap.bind fun heap => of_program.bind fun program =>
      (of_memberClass _ target).bind fun id => (of_memberName _ name).bind fun method => ?_
    dsimp only
    split
    · exact of_throw_bind _
    · split
      · exact of_throw _
      · exact (of_push target).bind fun _ => (of_forM_array of_push _).bind fun _ =>
          of_callMethod _ _
  · exact of_throw _

/-! ## Branches and exceptions -/

theorem of_jumpIf (opcode : Opcode) (wanted : Bool) (target : Nat) :
    Ordinary (jumpIf opcode wanted target) := by
  refine of_pop.bind fun value => ?_
  split
  · split
    · exact of_onThread _
    · exact of_pure _
  · exact of_throw _

theorem of_jumpIfCompare (op : ComparisonOp) (target : Nat) :
    Ordinary (jumpIfCompare op target) := by
  refine of_pop.bind fun b => of_pop.bind fun a => (of_require _).bind fun holds => ?_
  split
  · exact of_onThread _
  · exact of_pure _

theorem of_jumpByCase (instruction : Instruction) :
    Ordinary (jumpByCase instruction) := by
  refine of_pop.bind fun value => ?_
  split
  · exact of_throw _
  · split
    · split
      · split
        · exact of_onThread _
        · exact of_pure _
      · exact of_pure _
    · exact of_pure _

theorem of_enterTry (instruction : Instruction) :
    Ordinary (enterTry instruction) := by
  rw [Thread.enterTry_eq_entered]
  exact of_onThread _

theorem of_raise (exception : Value) : Ordinary (raise exception) := by
  refine (of_onThread _).bind fun _ => (of_ofThread _).bind fun handlers => ?_
  split
  · exact (of_describe _).bind fun _ => of_throw _
  · refine (of_onThread _).bind fun _ => ?_
    split
    · exact (of_onThread _).bind fun _ => (of_push _).bind fun _ => of_onThread _
    · exact of_onThread _

theorem of_leaveTry : Ordinary leaveTry := by
  refine bind (of_ofThread _) fun phase => ?_
  split
  · exact of_onThread _
  · exact of_throw _

theorem of_leaveCatch : Ordinary leaveCatch := by
  refine bind (of_ofThread _) fun phase => ?_
  split
  · exact of_onThread _
  · exact of_throw _

theorem of_reraise : Ordinary reraise := by
  refine (of_ofThread _).bind fun current => ?_
  split
  · split
    · exact of_onThread _
    · exact of_throw _
  · exact of_throw _

theorem of_leaveFrame (kind : FrameKind) (form : ReturnForm) (dp : Nat) :
    Ordinary (leaveFrame kind form dp) := by
  unfold leaveFrame
  split
  · exact of_onStack _
  · exact of_onStack _
  · exact of_onStack _
  · exact (of_onStack _).bind fun _ => of_push _
  · exact (of_onStack _).bind fun _ => of_push _
  · exact of_onStack _

theorem of_returnFrom (form : ReturnForm) : Ordinary (returnFrom form) := by
  refine (of_ofThread _).bind fun interceptor => ?_
  split
  · exact (of_onThread _).bind fun _ => of_pure _
  · refine (of_ofThread _).bind fun top => ?_
    split
    · exact of_pure _
    · exact (of_ofThread _).bind fun frame => (of_ofThread _).bind fun dp =>
        (of_onThread _).bind fun _ => (of_leaveFrame _ _ _).bind fun _ =>
          (of_onThread _).bind fun _ => of_pure _

theorem of_carryOut (exit : ExitAction) : Ordinary (carryOut exit) := by
  cases exit with
  | fallThrough => exact of_pure _
  | ret => exact of_returnFrom _
  | retValue value => exact of_returnFrom _
  | retConstructor => exact of_returnFrom _
  | branch target => exact (of_onThread _).bind fun _ => of_pure _
  | rethrow exception => exact (of_raise exception).bind fun _ => of_pure _

theorem of_leaveFinally : Ordinary leaveFinally := by
  refine bind (of_ofThread _) fun phase => ?_
  split
  · exact (of_onThread _).bind fun _ => of_carryOut _
  · exact of_throw _

/-! ## Threads and monitors -/

theorem of_join : Ordinary join := by
  refine of_pop.bind fun value => ?_
  split
  · exact (of_describe value).bind fun _ => of_throw _
  · refine (of_ofThread _).bind fun own => ?_
    split
    · exact of_throw_bind _
    · exact of_pure _

theorem of_monitorKey (operation : String) (target : Value) :
    Ordinary (monitorKey operation target) := by
  unfold monitorKey
  split
  · exact of_pure _
  · exact of_pure _
  · exact of_pure _
  · exact (of_describe _).bind fun _ => of_throw _

/-- A part that asks nothing of the scheduler. -/
theorem proceed {step : Step Unit} (h : Ordinary step) :
    Ordinary (do step; pure Signal.proceed) :=
  h.bind fun _ => of_pure _

theorem of_execute {instruction : Instruction} (ordinary : instruction.opcode.isOrdinary = true) :
    Ordinary (execute instruction) := by
  unfold execute
  dsimp only
  cases hop : instruction.opcode with
  | sleep | wait | signal | loadClass =>
      rw [hop] at ordinary
      cases ordinary
  | nop | fork | exit => exact of_pure _
  | pop => exact of_pop.bind fun _ => of_pure _
  | dup => exact proceed ((of_onStack _).bind of_push)
  | swap => exact proceed of_swap
  | pushNull | pushTrue | pushFalse | pushByte | pushChar | pushShort | pushInt | pushLong
  | pushDouble => exact proceed (of_push _)
  | pushString =>
      exact proceed (of_moduleRecord.bind fun _ => (of_require _).bind fun _ => of_push _)
  | loadLocal => exact proceed (of_loadLocal _)
  | storeLocal => exact proceed (of_storeLocal _)
  | add | sub | mul | div | mod => exact proceed (of_arithmetic _)
  | neg | not => exact proceed (of_pop.bind fun _ => (of_require _).bind of_push)
  | convert => exact proceed (of_convert _)
  | ce | cne | cl | cle | cg | cge => exact proceed (of_compare _)
  | jmp => exact proceed (of_onThread _)
  | jt | jf => exact proceed (of_jumpIf _ _ _)
  | jce | jcne | jcl | jcle | jcg | jcge => exact proceed (of_jumpIfCompare _ _)
  | caseOf => exact proceed (of_jumpByCase _)
  | ret | retCtor => exact of_returnFrom _
  | retVal => exact of_pop.bind fun _ => of_returnFrom _
  | new => exact proceed (of_new _)
  | call =>
      exact proceed (of_moduleRecord.bind fun _ => (of_require _).bind fun key =>
        of_callMethod key .normal)
  | super => exact proceed of_asParent
  | loadField =>
      exact proceed (of_moduleRecord.bind fun _ => (of_require _).bind fun name =>
        of_pop.bind fun target => (of_readField target name).bind of_push)
  | storeField =>
      exact proceed (of_moduleRecord.bind fun _ => (of_require _).bind fun name =>
        of_pop.bind fun value => of_pop.bind fun target => of_writeField target name value)
  | instanceOf => exact proceed (of_instanceOf _)
  | enterTry => exact proceed (of_enterTry _)
  | leaveTry => exact proceed of_leaveTry
  | leaveCatch => exact proceed of_leaveCatch
  | leaveFinally => exact of_leaveFinally
  | raise => exact of_pop.bind fun _ => proceed (of_raise _)
  | reraise => exact proceed of_reraise
  | newArray => exact proceed of_newArray
  | arrayLoad => exact proceed of_arrayLoad
  | arrayStore => exact proceed of_arrayStore
  | arrayLength => exact proceed of_arrayLength
  | makeArray => exact proceed ((of_onStack _).bind of_pushArray)
  | join => exact of_join
  | nice => exact (of_onThread _).bind fun _ => of_pure _
  | threadId => exact proceed ((of_ofThread _).bind fun _ => of_push _)
  | hierarchy =>
      exact proceed (of_pop.bind fun target => (of_memberClass _ target).bind fun _ =>
        of_program.bind fun _ => of_pushArray _)
  | methods =>
      exact proceed (of_pop.bind fun target => of_program.bind fun _ =>
        (of_memberClass _ target).bind fun _ => of_pushArray _)
  | fields => exact proceed of_fields
  | getField => exact proceed of_getField
  | setField => exact proceed of_setField
  | invoke => exact proceed of_invoke

end Step.Ordinary

end ObjectMachine
