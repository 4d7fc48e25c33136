import ObjectMachine.Machine.Engine
import ObjectMachine.Proofs.Machine.Coupling

/-!
# Instructions that look at no code address

Whatever two coupled programs have to do with each other, such an instruction does the same in
both, and it leaves the registers alone.
-/

namespace ObjectMachine

namespace Opcode

/-- Whether an instruction moves the registers otherwise than to the instruction behind it. -/
def movesRegisters : Opcode → Bool
  | jmp | jt | jf | jce | jcne | jcl | jcle | jcg | jcge | caseOf | ret | retVal | retCtor
  | loadClass | call | invoke | enterTry | leaveTry | leaveCatch | leaveFinally | raise
  | reraise => true
  | _ => false

end Opcode

namespace Coupling.Agree

open Step

variable {c : Coupling}

/-! ## Values, locals and arithmetic -/

theorem of_dup : c.Agree Eq dup dup :=
  (of_onStack _).bind fun value => of_push value

theorem of_swap : c.Agree Eq swap swap :=
  of_pop.bind fun upper => of_pop.bind fun lower =>
    (of_push upper).bind fun _ => of_push lower

theorem of_pushString (index : UInt32) : c.Agree Eq (pushString index) (pushString index) :=
  of_moduleRecord.bind fun record => (of_require (record.string index)).bind fun text =>
    of_push (.text text)

theorem of_loadLocal (slot : UInt32) : c.Agree Eq (loadLocal slot) (loadLocal slot) := by
  refine (of_ofThread fun hs => ?_).bind fun found => ?_
  · have alike := c.alike hs
    rw [alike.stack, alike.dp]
  · cases found with
    | none => exact of_throw _
    | some value => exact of_push value

theorem of_storeLocal (slot : UInt32) : c.Agree Eq (storeLocal slot) (storeLocal slot) := by
  refine of_pop.bind fun value => (of_ofThread fun hs => (c.alike hs).dp).bind fun dp => ?_
  refine (of_onStack _).bind fun stored => ?_
  cases stored with
  | true => exact of_pure rfl
  | false => exact of_throw _

theorem of_binary {operation : Value → Value → Step Value}
    (h : ∀ a b, c.Agree Eq (operation a b) (operation a b)) :
    c.Agree Eq (binary operation) (binary operation) :=
  of_pop.bind fun b => of_pop.bind fun a => (h a b).bind fun value => of_push value

theorem of_sum (a b : Value) : c.Agree Eq (sum a b) (sum a b) := by
  have texts : c.Agree Eq (do pure (Value.text ((← describe a) ++ (← describe b))))
      (do pure (Value.text ((← describe a) ++ (← describe b)))) :=
    (of_describe a).bind fun _ => (of_describe b).bind fun _ => of_pure rfl
  unfold sum
  split
  · exact texts
  · exact texts
  · exact of_require _

theorem of_arithmetic (op : ArithmeticOp) : c.Agree Eq (arithmetic op) (arithmetic op) := by
  refine of_binary fun a b => ?_
  cases op with
  | add => exact of_sum a b
  | _ => exact of_require _

theorem of_compare (op : ComparisonOp) : c.Agree Eq (compare op) (compare op) :=
  of_binary fun _ _ => (of_require _).map fun _ _ same => congrArg Value.bool same

theorem of_negate : c.Agree Eq negate negate :=
  of_pop.bind fun value => (of_require value.negate).bind fun result => of_push result

theorem of_complement : c.Agree Eq complement complement :=
  of_pop.bind fun value => (of_require value.complement).bind fun result => of_push result

theorem of_convert (code : UInt8) : c.Agree Eq (convert code) (convert code) := by
  unfold convert
  split
  · exact of_throw _
  · exact of_pop.bind fun value => (of_describe value).bind fun text => of_push (.text text)
  · next kind _ _ =>
      exact of_pop.bind fun value => of_heap.bind fun heap =>
        (of_require (Value.convert heap kind value)).bind fun result => of_push result

/-! ## Arrays -/

theorem of_integer (purpose : String) (value : Value) :
    c.Agree Eq (integer purpose value) (integer purpose value) := by
  unfold integer
  cases value.asInteger? with
  | none => exact of_throw _
  | some number => exact of_pure rfl

theorem of_arrayFor (operation : String) (value : Value) :
    c.Agree Eq (arrayFor operation value) (arrayFor operation value) := by
  cases value with
  | array id => exact of_pure rfl
  | _ => exact of_throw _

theorem of_itemPlace (index : Int64) (length : Nat) :
    c.Agree Eq (itemPlace index length) (itemPlace index length) := by
  unfold itemPlace
  split
  · exact of_pure rfl
  · exact of_throw _

theorem of_newArray : c.Agree Eq newArray newArray := by
  refine of_pop.bind fun value => (of_integer _ value).bind fun length => ?_
  split
  · exact of_throw_bind _
  · refine of_read.bindWith fun setup setup' hs => ?_
    rw [hs.limits]
    split
    · exact of_throw_bind _
    · exact of_pushArray _

theorem of_makeArray (count : Nat) : c.Agree Eq (makeArray count) (makeArray count) :=
  (of_onStack _).bind fun items => of_pushArray items

theorem of_arrayLoad : c.Agree Eq arrayLoad arrayLoad :=
  of_pop.bind fun index => of_pop.bind fun value => (of_arrayFor _ value).bind fun id =>
    (of_integer _ index).bind fun index => of_heap.bind fun heap =>
      (of_itemPlace index (heap.items id).size).bind fun _ => of_push _

theorem of_arrayStore : c.Agree Eq arrayStore arrayStore :=
  of_pop.bind fun _ => of_pop.bind fun index => of_pop.bind fun value =>
    (of_arrayFor _ value).bind fun id => (of_integer _ index).bind fun index =>
      of_heap.bind fun heap => (of_itemPlace index (heap.items id).size).bind fun _ => of_onStore _

theorem of_arrayLength : c.Agree Eq arrayLength arrayLength :=
  of_pop.bind fun value => (of_arrayFor _ value).bind fun _ => of_heap.bind fun _ => of_push _

/-! ## Members -/

theorem of_memberClass (member : String) (target : Value) :
    c.Agree Eq (memberClass member target) (memberClass member target) := by
  have other (value : Value) :
      c.Agree Eq (do throw (.notAnObject (← describe value)) : Step ClassId)
      (do throw (.notAnObject (← describe value))) :=
    (of_describe value).bind fun _ => of_throw _
  cases target with
  | null => exact of_throw _
  | object view id => exact of_pure rfl
  | classRef id => exact of_pure rfl
  | _ => exact other _

theorem of_nativeTarget (target : Value) :
    c.Agree Eq (nativeTarget target) (nativeTarget target) := by
  cases target with
  | object view id => exact of_heap.bind fun heap => of_pure rfl
  | _ => exact of_pure rfl

theorem of_native (facade : Facade) (operation : Store → Except String (α × Store)) :
    c.Agree Eq (native facade operation) (native facade operation) := by
  refine of_get.bindWith fun scene scene' hs => ?_
  dsimp only
  rw [(c.alike hs).world]
  split
  · exact (of_onStore _).bind fun _ => of_pure rfl
  · exact of_throw _

theorem of_fieldSlot {info info' : ClassDef} (h : info.Similar c.Address info') (target : Value)
    (name : Symbol) : c.Agree Eq (fieldSlot info target name) (fieldSlot info' target name) := by
  refine of_program.bindWith fun program program' hp => ?_
  rw [hp.symbols, h.field?, h.qualified]
  split
  · exact of_throw _
  · split
    · exact of_pure rfl
    · exact of_pure rfl
    · exact of_throw _

theorem of_readField (target : Value) (name : Symbol) :
    c.Agree Eq (readField target name) (readField target name) := by
  refine of_program.bindWith fun program program' hp => ?_
  rw [hp.symbols]
  refine (of_memberClass _ target).bind fun id => ?_
  have info := hp.catalog.get id
  dsimp only
  rw [info.facade]
  split
  · exact (of_nativeTarget target).bind fun object => of_native _ _
  · refine (of_fieldSlot info target name).bind fun field => ?_
    split
    · exact of_heap.bind fun heap => of_pure rfl
    · exact of_get.bindWith fun _ _ hs => of_pure (by rw [(c.alike hs).world])

theorem of_writeField (target : Value) (name : Symbol) (value : Value) :
    c.Agree Eq (writeField target name value) (writeField target name value) := by
  refine of_program.bindWith fun program program' hp => ?_
  rw [hp.symbols]
  refine (of_memberClass _ target).bind fun id => ?_
  have info := hp.catalog.get id
  dsimp only
  rw [info.facade]
  split
  · exact (of_nativeTarget target).bind fun object => of_native _ _
  · refine (of_fieldSlot info target name).bind fun field => ?_
    split
    · exact of_onStore _
    · exact of_onStore _

theorem of_loadField (index : UInt32) : c.Agree Eq (loadField index) (loadField index) :=
  of_moduleRecord.bind fun record => (of_require (record.fieldName index)).bind fun name =>
    of_pop.bind fun target => (of_readField target name).bind fun value => of_push value

theorem of_storeField (index : UInt32) : c.Agree Eq (storeField index) (storeField index) :=
  of_moduleRecord.bind fun record => (of_require (record.fieldName index)).bind fun name =>
    of_pop.bind fun value => of_pop.bind fun target => of_writeField target name value

theorem of_instanceOf (index : UInt32) : c.Agree Eq (instanceOf index) (instanceOf index) := by
  refine of_moduleRecord.bind fun record => (of_require (record.classRef index)).bind fun id =>
    of_pop.bind fun value => ?_
  cases value with
  | object view object =>
      refine of_program.bindWith fun program program' hp => ?_
      rw [hp.catalog.isSubclass]
      exact of_push _
  | null => exact of_push _
  | _ => exact (of_describe _).bind fun _ => of_throw _

theorem of_hierarchy : c.Agree Eq hierarchy hierarchy := by
  refine of_pop.bind fun target => (of_memberClass _ target).bind fun id =>
    of_program.bindWith fun program program' hp => ?_
  have names : program.catalog.name = program'.catalog.name := funext hp.catalog.name
  dsimp only
  rw [hp.catalog.hierarchy, names]
  exact of_pushTexts _

theorem of_fields : c.Agree Eq fields fields := by
  refine of_pop.bind fun target => of_program.bindWith fun program program' hp =>
    (of_memberClass _ target).bind fun id => ?_
  have info := hp.catalog.get id
  dsimp only
  rw [info.facade, info.fields, hp.symbols]
  split
  · exact of_pushTexts _
  · exact of_pushTexts _

theorem of_methods : c.Agree Eq methods methods := by
  refine of_pop.bind fun target => of_program.bindWith fun program program' hp =>
    (of_memberClass _ target).bind fun id => ?_
  have signatures (info : ClassDef) {f : MethodKey × MethodEntry → String}
      (of_key : ∀ method, f method = program'.symbols.signature method.1) :
      info.methods.map f = (info.methods.map (·.1)).map program'.symbols.signature := by
    rw [List.map_map]
    exact List.map_congr_left fun method _ => of_key method
  dsimp only
  rw [hp.symbols, signatures _ fun _ => rfl, signatures _ fun _ => rfl, (hp.catalog.get id).keys]
  exact of_pushTexts _

theorem of_memberName (operation : String) (name : Value) :
    c.Agree Eq (memberName operation name) (memberName operation name) := by
  unfold memberName
  cases name.asText? with
  | none => exact of_throw _
  | some text => exact of_pure rfl

theorem of_fieldSymbol {info info' : ClassDef} (h : info.Similar c.Address info') (name : Value) :
    c.Agree Eq (fieldSymbol info name) (fieldSymbol info' name) := by
  refine (of_memberName _ name).bind fun text => of_program.bindWith fun program program' hp => ?_
  rw [hp.symbols, h.qualified]
  split
  · exact of_pure rfl
  · exact of_throw _

theorem of_getField : c.Agree Eq getField getField :=
  of_pop.bind fun name => of_pop.bind fun target => of_program.bindWith fun _ _ hp =>
    (of_memberClass _ target).bind fun id =>
      (of_fieldSymbol (hp.catalog.get id) name).bind fun symbol =>
        (of_readField target symbol).bind fun value => of_push value

theorem of_setField : c.Agree Eq setField setField :=
  of_pop.bind fun value => of_pop.bind fun name => of_pop.bind fun target =>
    of_program.bindWith fun _ _ hp => (of_memberClass _ target).bind fun id =>
      (of_fieldSymbol (hp.catalog.get id) name).bind fun symbol =>
        of_writeField target symbol value

/-! ## Classes and calls of native methods -/

theorem of_callNative {info info' : ClassDef} (h : info.Similar c.Address info') (receiver : Value)
    (key : MethodKey) :
    c.Agree Eq (callNative info receiver key) (callNative info' receiver key) := by
  unfold callNative
  rw [h.facade, h.qualified]
  split
  · exact of_throw _
  · exact (of_onStack _).bind fun args => of_pop.bind fun _ =>
      (of_nativeTarget receiver).bind fun object => of_program.bindWith fun _ _ hp => by
        rw [hp.symbols]
        exact (of_native _ _).bind fun value => of_push value

theorem of_forM {step step' : α → Step Unit} (h : ∀ item, c.Agree Eq (step item) (step' item))
    (items : List α) : c.Agree Eq (items.forM step) (items.forM step') := by
  induction items with
  | nil => exact of_pure rfl
  | cons item rest ih => exact (h item).bind fun _ => ih

theorem of_forM_array {step step' : α → Step Unit}
    (h : ∀ item, c.Agree Eq (step item) (step' item)) (items : Array α) :
    c.Agree Eq (items.forM step) (items.forM step') := by
  obtain ⟨items⟩ := items
  rw [Array.forM_eq_forM, Array.forM_eq_forM, List.forM_toArray, List.forM_toArray]
  exact of_forM h items

theorem of_storeConstants (id : ClassId) {info info' : ClassDef}
    (h : info.Similar c.Address info') :
    c.Agree Eq (storeConstants id info) (storeConstants id info') := by
  unfold storeConstants
  rw [h.enumValues]
  refine of_forM (fun constant => ?_) _
  dsimp only
  rw [h.field?]
  split
  · exact of_onStore _
  · exact of_pure rfl

theorem of_new (index : UInt32) : c.Agree Eq (Step.new index) (Step.new index) := by
  refine of_moduleRecord.bind fun record => (of_require (record.classRef index)).bind fun id =>
    of_program.bindWith fun program program' hp => ?_
  have info := hp.catalog.get id
  dsimp only
  rw [info.facade, info.instanceFieldCount]
  split
  · exact (of_native _ _).bind fun object => of_push _
  · refine bind (of_modifyGetWorld fun world =>
      let created := world.store.heap.newFields
        (program'.catalog.get id).instanceFieldCount.toNat
      (created.1, { world with store := { world.store with heap := created.2 } })) fun object =>
        of_push _

theorem of_asParent : c.Agree Eq asParent asParent := by
  have frames : c.Agree (fun frame frame' => frame.declaring? = frame'.declaring?)
      (ofThread (·.frame)) (ofThread (·.frame)) :=
    of_ofThread fun hs => (c.alike hs).declaring
  refine of_pop.bind fun value => of_program.bindWith fun program program' hp =>
    frames.bindWith fun frame frame' same => ?_
  rw [same]
  split
  · exact of_throw _
  · rw [(hp.catalog.get _).parent, hp.catalog.name]
    split
    · exact of_throw _
    · split
      · exact of_push _
      · exact of_push _
      · exact of_throw _
      · exact (of_describe _).bind fun _ => of_throw _

/-! ## Threads and monitors -/

theorem of_join : c.Agree Eq join join := by
  refine of_pop.bind fun value => ?_
  split
  · exact (of_describe value).bind fun _ => of_throw _
  · refine bind (of_ofThread fun hs => (c.alike hs).id) fun own => ?_
    split
    · exact of_throw_bind _
    · exact of_pure rfl

theorem of_nice : c.Agree Eq nice nice :=
  (of_setState _).bind fun _ => of_pure rfl

theorem of_sleep : c.Agree Eq sleep sleep := by
  refine of_pop.bind fun value => ?_
  split
  · exact of_throw _
  · refine of_get.bindWith fun _ _ hs => ?_
    rw [(c.alike hs).world]
    exact (of_setState _).bind fun _ => of_pure rfl

theorem of_monitorKey (operation : String) (target : Value) :
    c.Agree Eq (monitorKey operation target) (monitorKey operation target) := by
  cases target with
  | object view id => exact of_pure rfl
  | array id => exact of_pure rfl
  | classRef id => exact of_pure rfl
  | _ => exact (of_describe _).bind fun _ => of_throw _

theorem of_onHeld (change : List MonitorKey → List MonitorKey) :
    c.Agree Eq (onHeld change) (onHeld change) :=
  of_modifyWorld fun world => { world with held := change world.held }

theorem of_wait : c.Agree Eq wait wait := by
  refine of_pop.bind fun target => (of_monitorKey _ target).bind fun key =>
    of_get.bindWith fun _ _ hs => ?_
  rw [(c.alike hs).world]
  split
  · exact (of_setState _).bind fun _ => of_pure rfl
  · exact (of_onHeld _).bind fun _ => of_pure rfl

theorem of_signal : c.Agree Eq signal signal := by
  refine of_pop.bind fun target => (of_monitorKey _ target).bind fun key =>
    of_get.bindWith fun _ _ hs => ?_
  rw [(c.alike hs).world]
  split
  · exact of_onHeld _
  · exact (of_describe _).bind fun _ => of_throw _

theorem of_pushThreadId : c.Agree Eq pushThreadId pushThreadId :=
  bind (of_ofThread fun hs => (c.alike hs).id) fun _ => of_push _

/-! ## Branches -/

theorem of_jumpIf (opcode : Opcode) (wanted : Bool) {target target' : Nat}
    (jumps : c.Agree Eq (jump target) (jump target')) :
    c.Agree Eq (jumpIf opcode wanted target) (jumpIf opcode wanted target') := by
  refine of_pop.bind fun value => ?_
  cases value.asBool? with
  | none => exact of_throw _
  | some condition =>
      dsimp only
      split
      · exact jumps
      · exact of_pure rfl

theorem of_jumpIfCompare (op : ComparisonOp) {target target' : Nat}
    (jumps : c.Agree Eq (jump target) (jump target')) :
    c.Agree Eq (jumpIfCompare op target) (jumpIfCompare op target') := by
  refine of_pop.bind fun b => of_pop.bind fun a => (of_require _).bind fun holds => ?_
  split
  · exact jumps
  · exact of_pure rfl

/-! ## Returns -/

theorem of_leaveFrame (kind : FrameKind) (form : ReturnForm) (dp : Nat) :
    c.Agree Eq (leaveFrame kind form dp) (leaveFrame kind form dp) := by
  unfold leaveFrame
  split
  · exact of_truncate _
  · exact of_truncate _
  · exact of_truncate _
  · exact (of_truncate _).bind fun _ => of_push _
  · exact (of_truncate _).bind fun _ => of_push _
  · exact of_truncate _

/-! ## Whole instructions -/

/-- A part that asks nothing of the scheduler. -/
theorem proceed {step step' : Step Unit} (h : c.Agree Eq step step') :
    c.Agree Eq (do step; pure Signal.proceed) (do step'; pure Signal.proceed) :=
  h.bind fun _ => of_pure rfl

/-- An instruction that looks at no address does the same wherever it lies. -/
theorem of_execute {instruction instruction' : Instruction}
    (opcode : instruction.opcode = instruction'.opcode)
    (operand : instruction.operand = instruction'.operand)
    (rests : instruction.opcode.movesRegisters = false) :
    c.Agree Eq (execute instruction) (execute instruction') := by
  have index : instruction.index = instruction'.index := by
    rw [Instruction.index, Instruction.index, operand]
  have constant : instruction.constant = instruction'.constant := by
    rw [Instruction.constant, Instruction.constant, operand]
  unfold execute
  rw [← opcode, operand, index, constant]
  dsimp only
  cases hop : instruction.opcode with
  | nop => exact of_pure rfl
  | pop => exact of_pop.bind fun _ => of_pure rfl
  | dup => exact proceed of_dup
  | swap => exact proceed of_swap
  | pushNull => exact proceed (of_push _)
  | pushTrue => exact proceed (of_push _)
  | pushFalse => exact proceed (of_push _)
  | pushByte => exact proceed (of_push _)
  | pushChar => exact proceed (of_push _)
  | pushShort => exact proceed (of_push _)
  | pushInt => exact proceed (of_push _)
  | pushLong => exact proceed (of_push _)
  | pushDouble => exact proceed (of_push _)
  | pushString => exact proceed (of_pushString _)
  | loadLocal => exact proceed (of_loadLocal _)
  | storeLocal => exact proceed (of_storeLocal _)
  | add => exact proceed (of_arithmetic _)
  | sub => exact proceed (of_arithmetic _)
  | mul => exact proceed (of_arithmetic _)
  | div => exact proceed (of_arithmetic _)
  | mod => exact proceed (of_arithmetic _)
  | neg => exact proceed of_negate
  | not => exact proceed of_complement
  | convert => exact proceed (of_convert _)
  | ce => exact proceed (of_compare _)
  | cne => exact proceed (of_compare _)
  | cl => exact proceed (of_compare _)
  | cle => exact proceed (of_compare _)
  | cg => exact proceed (of_compare _)
  | cge => exact proceed (of_compare _)
  | new => exact proceed (of_new _)
  | super => exact proceed of_asParent
  | loadField => exact proceed (of_loadField _)
  | storeField => exact proceed (of_storeField _)
  | instanceOf => exact proceed (of_instanceOf _)
  | newArray => exact proceed of_newArray
  | arrayLoad => exact proceed of_arrayLoad
  | arrayStore => exact proceed of_arrayStore
  | arrayLength => exact proceed of_arrayLength
  | makeArray => exact proceed (of_makeArray _)
  | fork => exact of_pure rfl
  | join => exact of_join
  | exit => exact of_pure rfl
  | nice => exact of_nice
  | sleep => exact of_sleep
  | wait => exact of_wait
  | signal => exact proceed of_signal
  | threadId => exact proceed of_pushThreadId
  | hierarchy => exact proceed of_hierarchy
  | fields => exact proceed of_fields
  | methods => exact proceed of_methods
  | getField => exact proceed of_getField
  | setField => exact proceed of_setField
  | _ =>
      rw [hop] at rests
      cases rests

end Coupling.Agree

end ObjectMachine
