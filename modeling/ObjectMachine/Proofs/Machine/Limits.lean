import ObjectMachine.Proofs.Machine.Courses
import ObjectMachine.Proofs.Machine.Moments
import ObjectMachine.Proofs.Machine.Recast

/-!
# Limits

Nothing grows beyond what the limits of a run allow: the stack of a thread, its open calls, and the
number of threads. Whatever makes one of them grow looks at the limit first. That goes for an
instruction that fails halfway as well: the thread that it leaves behind keeps to the limits, and
the stack operation that has failed has left the stack alone.
-/

namespace ObjectMachine

/-! ## Stack operations -/

namespace Stack

variable {stack after : Stack}

inductive Primitive : {α : Type} → Operation α → Prop
  | push (value : Value) : Primitive (push value)
  | pop : Primitive pop
  | popMany (count : Nat) : Primitive (popMany count)
  | peek (below : Nat) : Primitive (peek below)
  | put (place : Nat) (value : Value) : Primitive (put place value)
  | reserve (count : Nat) : Primitive (reserve count)
  | truncate (depth : Nat) : Primitive (modify (·.truncate depth))

theorem push_eq_error {value : Value} {fault : Fault} (h : push value stack = .error fault after) :
    fault = .stackOverflow ∧ stack.limit ≤ stack.depth ∧ after = stack := by
  unfold push at h
  split at h
  · next full =>
      cases h
      exact ⟨rfl, full, rfl⟩
  · cases h

theorem pop_eq_error {fault : Fault} (h : pop stack = .error fault after) :
    fault = .stackUnderflow ∧ stack.depth = 0 ∧ after = stack := by
  unfold pop at h
  split at h
  · cases h
  · next none =>
      cases h
      simpa [depth] using none

theorem popMany_eq_error {count : Nat} {fault : Fault}
    (h : popMany count stack = .error fault after) :
    fault = .stackUnderflow ∧ stack.depth < count ∧ after = stack := by
  unfold popMany at h
  dsimp only at h
  split at h
  · next short =>
      cases h
      exact ⟨rfl, short, rfl⟩
  · cases h

theorem peek_eq_error {below : Nat} {fault : Fault} (h : peek below stack = .error fault after) :
    fault = .stackUnderflow ∧ stack.depth ≤ below ∧ after = stack := by
  unfold peek at h
  split at h
  · split at h
    · cases h
    · next short =>
        cases h
        exact ⟨rfl, Nat.le_of_not_lt short, rfl⟩
  · next none =>
      cases h
      have outside := Array.getElem?_eq_none_iff.mp none
      refine ⟨rfl, ?_, rfl⟩
      unfold depth
      omega

theorem reserve_eq_error {count : Nat} {fault : Fault}
    (h : reserve count stack = .error fault after) :
    fault = .stackOverflow ∧ stack.limit < (UInt64.ofNat (stack.depth + count)).toNat ∧
      after = stack := by
  unfold reserve at h
  dsimp only at h
  split at h
  · next full =>
      cases h
      exact ⟨rfl, full, rfl⟩
  · cases h

/-- There is a place to put a value at, or the stack stays as it is. -/
theorem put_eq (place : Nat) (value : Value) (stack : Stack) :
    put place value stack = .ok (decide (place < stack.depth))
      (if place < stack.depth then { stack with slots := stack.slots.setIfInBounds place value }
        else stack) := by
  unfold put depth
  by_cases inside : place < stack.slots.size <;> simp [inside]

namespace Primitive

theorem eq_of_error {operation : Operation α} (h : Primitive operation) {fault : Fault}
    (fails : operation stack = .error fault after) : after = stack := by
  cases h with
  | push value => exact (push_eq_error fails).2.2
  | pop => exact (pop_eq_error fails).2.2
  | popMany count => exact (popMany_eq_error fails).2.2
  | peek below => exact (peek_eq_error fails).2.2
  | put place value =>
      rw [put_eq] at fails
      cases fails
  | reserve count => exact (reserve_eq_error fails).2.2
  | truncate depth => cases fails

theorem fits_of_ok {operation : Operation α} (h : Primitive operation) {answer : α}
    (succeeds : operation stack = .ok answer after) : Fits stack after := by
  cases h with
  | push value =>
      obtain ⟨room, rfl⟩ := push_eq_ok succeeds
      exact (Regrown.of_push value room).toFits
  | pop => exact (Regrown.of_pop succeeds).toFits
  | popMany count =>
      obtain ⟨-, rfl⟩ := popMany_eq_ok succeeds
      exact (Regrown.of_shrink stack _).toFits
  | peek below =>
      obtain rfl := peek_eq_ok succeeds
      exact .refl after
  | put place value =>
      obtain rfl := put_eq_ok succeeds
      exact .of_put stack place value
  | reserve count => exact (reserve_eq_ok succeeds).1
  | truncate depth =>
      cases succeeds
      exact (Regrown.of_truncate stack depth).toFits

end Primitive

end Stack

/-! ## Threads -/

namespace Thread

structure Within (limits : Limits) (thread : Thread) : Prop where
  limit : thread.stack.limit = limits.stack
  height : thread.stack.depth ≤ limits.stack
  calls : thread.calls.size ≤ limits.callDepth

/-- Whether a thread has grown in nothing but its stack, and in that no further than it may. -/
structure Recedes (thread next : Thread) : Prop where
  fits : thread.stack.Fits next.stack
  calls : next.calls.size ≤ thread.calls.size

variable {limits : Limits} {thread next : Thread}

theorem Within.of_recedes (within : thread.Within limits) (recedes : thread.Recedes next) :
    next.Within limits where
  limit := recedes.fits.limit.trans within.limit
  height := within.limit ▸ recedes.fits.room (within.limit ▸ within.height)
  calls := recedes.calls.trans within.calls

theorem Recedes.trans {last : Thread} (h : thread.Recedes next) (h' : next.Recedes last) :
    thread.Recedes last :=
  ⟨h.fits.trans h'.fits, h'.calls.trans h.calls⟩

theorem recedes_enterFinally (exit : ExitAction) (thread : Thread) :
    thread.Recedes (thread.enterFinally exit) where
  fits := (thread.regrown_enterFinally exit).toFits
  calls := by
    unfold enterFinally
    split <;> exact Nat.le_refl _

theorem recedes_branchTo (target : Nat) (thread : Thread) :
    thread.Recedes (thread.branchTo target) := by
  refine ⟨(thread.regrown_branchTo target).toFits, ?_⟩
  unfold branchTo
  split
  · split
    · exact Nat.le_refl _
    · exact (thread.recedes_enterFinally _).calls
  · exact Nat.le_refl _

theorem recedes_rewind (record : TryRecord) (thread : Thread) :
    thread.Recedes (thread.rewind record) where
  fits := (Stack.Regrown.of_truncate thread.stack _).toFits
  calls := by
    simp only [rewind, Array.size_shrink]
    exact Nat.min_le_right _ _

theorem recedes_popCall (thread : Thread) : thread.Recedes thread.popCall where
  fits := .refl _
  calls := by simp [popCall]

/-- A thread that changes neither its stack nor its calls. -/
theorem Recedes.of_eq (stack : next.stack = thread.stack) (calls : next.calls = thread.calls) :
    thread.Recedes next :=
  ⟨stack ▸ .refl _, Nat.le_of_eq (congrArg Array.size calls)⟩

theorem Handed.recedes {nextId : ThreadId} (h : thread.Handed nextId next) :
    thread.Recedes next where
  fits := h.rests.waits.fits
  calls := Nat.le_of_eq (congrArg (·.calls.size) h.registers)

end Thread

/-! ## Parts of instructions -/

namespace Step

variable {setup : Setup} {scene : Scene}

/-- The scene that a part of an instruction leaves behind, whether it succeeds or fails. -/
def aftermath (step : Step α) (setup : Setup) (scene : Scene) : Scene :=
  match step setup scene with
  | .ok _ next | .error _ next => next

/-- Whether a part of an instruction leaves behind a thread that keeps to the limits. -/
def Confined (step : Step α) : Prop :=
  ∀ setup scene, scene.thread.Within setup.limits →
    (step.aftermath setup scene).thread.Within setup.limits

theorem aftermath_of_ok {step : Step α} {answer : α} {next : Scene}
    (h : step setup scene = .ok answer next) : step.aftermath setup scene = next := by
  rw [aftermath, h]

theorem aftermath_of_error {step : Step α} {fault : Fault} {next : Scene}
    (h : step setup scene = .error fault next) : step.aftermath setup scene = next := by
  rw [aftermath, h]

namespace Confined

theorem of_pure (value : α) : Confined (pure value) :=
  fun _ _ within => within

theorem of_throw (fault : Fault) : Confined (throw fault : Step α) :=
  fun _ _ within => within

/-- Nothing follows a fault. -/
theorem of_throw_bind (fault : Fault) {following : γ → Step α} :
    Confined ((throw fault : Step γ) >>= following) :=
  fun _ _ within => within

theorem bind {step : Step α} {following : α → Step β} (h : Confined step)
    (hn : ∀ value, Confined (following value)) : Confined (step >>= following) := by
  intro setup scene within
  have first := h setup scene within
  cases hr : step setup scene with
  | ok answer middle =>
      rw [aftermath_of_ok hr] at first
      have same : (step >>= following) setup scene = following answer setup middle :=
        bind_of_ok hr
      have rest := hn answer setup middle first
      rwa [aftermath, ← same] at rest
  | error fault next =>
      rw [aftermath_of_error hr] at first
      rwa [aftermath_of_error (bind_of_error hr)]

theorem map {step : Step α} {f : α → β} (h : Confined step) : Confined (f <$> step) := by
  rw [← bind_pure_comp]
  exact h.bind fun value => of_pure (f value)

theorem of_require (result : Except Fault α) : Confined (require result) := by
  cases result with
  | ok value => exact of_pure value
  | error fault => exact of_throw fault

theorem of_get : Confined get :=
  fun _ _ within => within

theorem of_read : Confined read :=
  fun _ _ within => within

theorem of_modifyWorld (change : World → World) :
    Confined (modify fun scene => { scene with world := change scene.world }) :=
  fun _ _ within => within

theorem of_modifyGetWorld (change : World → α × World) :
    Confined (modifyGet fun scene =>
      ((change scene.world).1, { scene with world := (change scene.world).2 })) :=
  fun _ _ within => within

theorem of_onThread {change : Thread → Thread}
    (h : ∀ thread : Thread, thread.Recedes (change thread)) :
    Confined (onThread change) :=
  fun _ scene within => within.of_recedes (h scene.thread)

/-- A change that concerns neither the stack nor the calls. -/
theorem of_onThread_eq {change : Thread → Thread}
    (stack : ∀ thread, (change thread).stack = thread.stack)
    (calls : ∀ thread, (change thread).calls = thread.calls) : Confined (onThread change) :=
  of_onThread fun thread => .of_eq (stack thread) (calls thread)

theorem of_onStack {operation : Stack.Operation α} (h : Stack.Primitive operation) :
    Confined (onStack operation) := by
  intro setup scene within
  unfold aftermath onStack
  dsimp only
  cases hr : operation scene.thread.stack with
  | ok answer stack => exact within.of_recedes ⟨h.fits_of_ok hr, Nat.le_refl _⟩
  | error fault stack =>
      obtain rfl := h.eq_of_error hr
      exact within

theorem of_push (value : Value) : Confined (push value) :=
  of_onStack (.push value)

theorem of_pop : Confined pop :=
  of_onStack .pop

theorem of_truncate (depth : Nat) : Confined (truncate depth) :=
  of_onStack (.truncate depth)

theorem of_program : Confined program :=
  of_read.bind fun _ => of_pure _

theorem of_ofThread (part : Thread → α) : Confined (ofThread part) :=
  of_get.bind fun _ => of_pure _

theorem of_heap : Confined heap :=
  of_get.bind fun _ => of_pure _

theorem of_moduleRecord : Confined moduleRecord :=
  of_program.bind fun _ => (of_ofThread _).bind fun _ => of_pure _

theorem of_describe (value : Value) : Confined (describe value) :=
  of_program.bind fun _ => of_heap.bind fun _ => of_pure _

theorem of_onStore (change : Store → Store) : Confined (onStore change) :=
  of_modifyWorld fun world => { world with store := change world.store }

theorem of_onHeld (change : List MonitorKey → List MonitorKey) : Confined (onHeld change) :=
  of_modifyWorld fun world => { world with held := change world.held }

theorem of_setState (state : ThreadState) : Confined (setState state) :=
  of_onThread_eq (fun _ => rfl) fun _ => rfl

theorem of_forM {step : α → Step Unit} (h : ∀ item, Confined (step item)) (items : List α) :
    Confined (items.forM step) := by
  induction items with
  | nil => exact of_pure _
  | cons item rest ih => exact (h item).bind fun _ => ih

theorem of_forM_array {step : α → Step Unit} (h : ∀ item, Confined (step item))
    (items : Array α) : Confined (items.forM step) := by
  obtain ⟨items⟩ := items
  rw [Array.forM_eq_forM, List.forM_toArray]
  exact of_forM h items

theorem of_pushArray (items : Array Value) : Confined (pushArray items) :=
  bind (of_modifyGetWorld fun world =>
    let created := world.store.heap.newArray items
    (created.1, { world with store := { world.store with heap := created.2 } })) fun id =>
      of_push (.array id)

theorem of_pushTexts (items : List String) : Confined (pushTexts items) :=
  of_pushArray _

/-- A part that begins with a look into a table of its module. -/
theorem of_lookup {look : ModuleRecord → Except Fault α} {following : α → Step β}
    (h : ∀ value, Confined (following value)) :
    Confined (do following (← require (look (← moduleRecord)))) :=
  of_moduleRecord.bind fun _ => (of_require _).bind h

/-! ### Values, locals and arithmetic -/

theorem of_dup : Confined dup :=
  (of_onStack (.peek 0)).bind of_push

theorem of_swap : Confined swap :=
  of_pop.bind fun upper => of_pop.bind fun lower => (of_push upper).bind fun _ => of_push lower

theorem of_loadLocal (slot : UInt32) : Confined (loadLocal slot) := by
  refine (of_ofThread _).bind fun found => ?_
  split
  · exact of_push _
  · exact of_throw _

theorem of_storeLocal (slot : UInt32) : Confined (storeLocal slot) := by
  refine of_pop.bind fun value => (of_ofThread _).bind fun dp =>
    (of_onStack (.put _ value)).bind fun stored => ?_
  split
  · exact of_pure _
  · exact of_throw _

theorem of_binary {operation : Value → Value → Step Value}
    (h : ∀ a b, Confined (operation a b)) : Confined (binary operation) :=
  of_pop.bind fun b => of_pop.bind fun a => (h a b).bind of_push

theorem of_sum (a b : Value) : Confined (sum a b) := by
  have texts : Confined (do pure (Value.text ((← describe a) ++ (← describe b)))) :=
    (of_describe a).bind fun _ => (of_describe b).bind fun _ => of_pure _
  unfold sum
  split
  · exact texts
  · exact texts
  · exact of_require _

theorem of_arithmetic (op : ArithmeticOp) : Confined (arithmetic op) := by
  refine of_binary fun a b => ?_
  cases op with
  | add => exact of_sum a b
  | _ => exact of_require _

theorem of_compare (op : ComparisonOp) : Confined (compare op) :=
  of_binary fun _ _ => (of_require _).map

theorem of_negate : Confined negate :=
  of_pop.bind fun _ => (of_require _).bind of_push

theorem of_complement : Confined complement :=
  of_pop.bind fun _ => (of_require _).bind of_push

theorem of_convert (code : UInt8) : Confined (convert code) := by
  unfold convert
  split
  · exact of_throw _
  · exact of_pop.bind fun value => (of_describe value).bind fun _ => of_push _
  · exact of_pop.bind fun _ => of_heap.bind fun _ => (of_require _).bind of_push

/-! ### Arrays -/

theorem of_integer (purpose : String) (value : Value) : Confined (integer purpose value) := by
  unfold integer
  split
  · exact of_pure _
  · exact of_throw _

theorem of_arrayFor (operation : String) (value : Value) :
    Confined (arrayFor operation value) := by
  unfold arrayFor
  split
  · exact of_pure _
  · exact of_throw _
  · exact of_throw _

theorem of_itemPlace (index : Int64) (length : Nat) : Confined (itemPlace index length) := by
  unfold itemPlace
  split
  · exact of_pure _
  · exact of_throw _

theorem of_newArray : Confined newArray := by
  refine of_pop.bind fun value => (of_integer _ value).bind fun length => ?_
  split
  · exact of_throw_bind _
  · refine of_read.bind fun setup => ?_
    split
    · exact of_throw_bind _
    · exact of_pushArray _

theorem of_makeArray (count : Nat) : Confined (makeArray count) :=
  (of_onStack (.popMany count)).bind of_pushArray

theorem of_arrayLoad : Confined arrayLoad :=
  of_pop.bind fun index => of_pop.bind fun value => (of_arrayFor _ value).bind fun _ =>
    (of_integer _ index).bind fun _ => of_heap.bind fun _ => (of_itemPlace _ _).bind fun _ =>
      of_push _

theorem of_arrayStore : Confined arrayStore :=
  of_pop.bind fun _ => of_pop.bind fun index => of_pop.bind fun value =>
    (of_arrayFor _ value).bind fun _ => (of_integer _ index).bind fun _ => of_heap.bind fun _ =>
      (of_itemPlace _ _).bind fun _ => of_onStore _

theorem of_arrayLength : Confined arrayLength :=
  of_pop.bind fun value => (of_arrayFor _ value).bind fun _ => of_heap.bind fun _ => of_push _

/-! ### Members -/

theorem of_memberClass (member : String) (target : Value) :
    Confined (memberClass member target) := by
  unfold memberClass
  split
  · exact of_pure _
  · exact of_pure _
  · exact of_throw _
  · exact (of_describe _).bind fun _ => of_throw _

theorem of_nativeTarget (target : Value) : Confined (nativeTarget target) := by
  unfold nativeTarget
  split
  · exact of_heap.bind fun _ => of_pure _
  · exact of_pure _

theorem of_native (facade : Facade) (operation : Store → Except String (α × Store)) :
    Confined (native facade operation) := by
  refine of_get.bind fun scene => ?_
  dsimp only
  split
  · exact (of_onStore _).bind fun _ => of_pure _
  · exact of_throw _

theorem of_fieldSlot (info : ClassDef) (target : Value) (name : Symbol) :
    Confined (fieldSlot info target name) := by
  refine of_program.bind fun program => ?_
  split
  · exact of_throw _
  · split
    · exact of_pure _
    · exact of_pure _
    · exact of_throw _

theorem of_readField (target : Value) (name : Symbol) : Confined (readField target name) := by
  refine of_program.bind fun program => (of_memberClass _ target).bind fun id => ?_
  dsimp only
  split
  · exact (of_nativeTarget target).bind fun object => of_native _ _
  · refine (of_fieldSlot _ target name).bind fun field => ?_
    split
    · exact of_heap.bind fun _ => of_pure _
    · exact of_get.bind fun _ => of_pure _

theorem of_writeField (target : Value) (name : Symbol) (value : Value) :
    Confined (writeField target name value) := by
  refine of_program.bind fun program => (of_memberClass _ target).bind fun id => ?_
  dsimp only
  split
  · exact (of_nativeTarget target).bind fun object => of_native _ _
  · refine (of_fieldSlot _ target name).bind fun field => ?_
    split
    · exact of_onStore _
    · exact of_onStore _

theorem of_instanceOf (index : UInt32) : Confined (instanceOf index) := by
  refine of_lookup fun id => of_pop.bind fun value => ?_
  split
  · exact of_program.bind fun _ => of_push _
  · exact of_push _
  · exact (of_describe _).bind fun _ => of_throw _

theorem of_hierarchy : Confined hierarchy :=
  of_pop.bind fun target => (of_memberClass _ target).bind fun _ => of_program.bind fun _ =>
    of_pushTexts _

theorem of_fields : Confined fields := by
  refine of_pop.bind fun target => of_program.bind fun program =>
    (of_memberClass _ target).bind fun id => ?_
  dsimp only
  split
  · exact of_pushTexts _
  · exact of_pushTexts _

theorem of_methods : Confined methods :=
  of_pop.bind fun target => of_program.bind fun _ => (of_memberClass _ target).bind fun _ =>
    of_pushTexts _

theorem of_memberName (operation : String) (name : Value) :
    Confined (memberName operation name) := by
  unfold memberName
  split
  · exact of_pure _
  · exact of_throw _

theorem of_fieldSymbol (info : ClassDef) (name : Value) : Confined (fieldSymbol info name) := by
  refine (of_memberName _ name).bind fun text => of_program.bind fun program => ?_
  split
  · exact of_pure _
  · exact of_throw _

theorem of_getField : Confined getField :=
  of_pop.bind fun name => of_pop.bind fun target => of_program.bind fun _ =>
    (of_memberClass _ target).bind fun _ => (of_fieldSymbol _ name).bind fun symbol =>
      (of_readField target symbol).bind of_push

theorem of_setField : Confined setField :=
  of_pop.bind fun value => of_pop.bind fun name => of_pop.bind fun target =>
    of_program.bind fun _ => (of_memberClass _ target).bind fun _ =>
      (of_fieldSymbol _ name).bind fun symbol => of_writeField target symbol value

theorem of_new (index : UInt32) : Confined (new index) := by
  refine of_lookup fun id => of_program.bind fun program => ?_
  dsimp only
  split
  · exact (of_native _ _).bind fun object => of_push _
  · exact bind (of_modifyGetWorld fun world =>
      let created := world.store.heap.newFields (program.catalog.get id).instanceFieldCount.toNat
      (created.1, { world with store := { world.store with heap := created.2 } }))
        fun object => of_push _

theorem of_asParent : Confined asParent := by
  refine of_pop.bind fun value => of_program.bind fun program =>
    (of_ofThread _).bind fun frame => ?_
  split
  · exact of_throw _
  · split
    · exact of_throw _
    · split
      · exact of_push _
      · exact of_push _
      · exact of_throw _
      · exact (of_describe _).bind fun _ => of_throw _

/-! ### Calls -/

/-- A frame is entered only if there is room for its call, and its locals look for room on their
own: if they find none, the call stays. -/
theorem of_enterFrame (key : MethodKey) (entry : MethodEntry) (address : Nat)
    (localCount : UInt16) (kind : FrameKind) (returnIp : Nat) :
    Confined (enterFrame key entry address localCount kind returnIp) := by
  intro setup scene within
  unfold aftermath
  rw [enterFrame_eq]
  dsimp only
  by_cases full : setup.limits.callDepth ≤ scene.thread.calls.size
  · rw [if_pos full]
    exact within
  · rw [if_neg full]
    by_cases short : scene.thread.stack.depth < key.arity.toNat + 1
    · rw [if_pos short]
      exact within
    · rw [if_neg short]
      have grown (call : CallRecord) :
          (scene.thread.calls.push call).size ≤ setup.limits.callDepth := by
        rw [Array.size_push]
        omega
      cases reserved : Stack.reserve localCount.toNat scene.thread.stack with
      | ok answer stack =>
          have left : ({ scene.thread with stack } : Thread).Within setup.limits :=
            within.of_recedes ⟨(Stack.Primitive.reserve _).fits_of_ok reserved, Nat.le_refl _⟩
          exact ⟨left.limit, left.height, grown _⟩
      | error fault stack =>
          obtain rfl := (Stack.Primitive.reserve _).eq_of_error reserved
          exact ⟨within.limit, within.height, grown _⟩

theorem of_callNative (info : ClassDef) (receiver : Value) (key : MethodKey) :
    Confined (callNative info receiver key) := by
  unfold callNative
  split
  · exact of_throw _
  · exact (of_onStack (.popMany _)).bind fun args => of_pop.bind fun _ =>
      (of_nativeTarget receiver).bind fun object => of_program.bind fun _ =>
        (of_native _ _).bind of_push

theorem of_enterMethod (key : MethodKey) (kind : FrameKind) (info : ClassDef) (receiver : Value)
    (entry : MethodEntry) : Confined (enterMethod key kind info receiver entry) := by
  unfold enterMethod
  split
  · exact of_callNative info receiver key
  · exact (of_ofThread _).bind fun _ => of_enterFrame _ _ _ _ _ _

theorem of_callMethod (key : MethodKey) (kind : FrameKind) : Confined (callMethod key kind) := by
  refine of_program.bind fun program => (of_onStack (.peek _)).bind fun receiver =>
    (of_memberClass _ receiver).bind fun id => ?_
  dsimp only
  split
  · exact of_throw _
  · split
    · exact of_throw _
    · exact of_enterMethod _ _ _ _ _

theorem of_storeConstants (id : ClassId) (info : ClassDef) : Confined (storeConstants id info) := by
  refine of_forM (fun constant => ?_) _
  obtain ⟨name, value⟩ := constant
  dsimp only
  split
  · exact of_onStore _
  · exact of_pure _

theorem of_initializeClass (id : ClassId) (resumeIp : Nat) :
    Confined (initializeClass id resumeIp) := by
  refine of_get.bind fun scene => ?_
  split
  · exact of_pure _
  · refine of_program.bind fun program => (of_onStore _).bind fun _ =>
      (of_storeConstants id _).bind fun _ => ?_
    split
    · exact of_pure _
    · exact (of_push _).bind fun _ => (of_enterFrame _ _ _ _ _ _).bind fun _ => of_pure _

theorem of_loadClass (index : UInt32) (offset : Nat) : Confined (loadClass index offset) := by
  refine of_lookup fun id => (of_initializeClass id offset).bind fun entered => ?_
  split
  · exact of_pure _
  · exact of_push _

/-- The arguments of a method that is called by name find room one by one. -/
theorem of_invoke : Confined invoke := by
  refine of_pop.bind fun args => of_pop.bind fun name => of_pop.bind fun target => ?_
  split
  · refine of_heap.bind fun heap => of_program.bind fun program =>
      (of_memberClass _ target).bind fun id => (of_memberName _ name).bind fun method => ?_
    dsimp only
    split
    · exact of_throw_bind _
    · split
      · exact of_throw _
      · exact (of_push target).bind fun _ => (of_forM_array of_push _).bind fun _ =>
          of_callMethod _ _
  · exact of_throw _

/-! ### Branches and exceptions -/

theorem of_jump (target : Nat) : Confined (jump target) :=
  of_onThread (Thread.recedes_branchTo target)

theorem of_jumpIf (opcode : Opcode) (wanted : Bool) (target : Nat) :
    Confined (jumpIf opcode wanted target) := by
  refine of_pop.bind fun value => ?_
  split
  · split
    · exact of_jump target
    · exact of_pure _
  · exact of_throw _

theorem of_jumpIfCompare (op : ComparisonOp) (target : Nat) :
    Confined (jumpIfCompare op target) := by
  refine of_pop.bind fun b => of_pop.bind fun a => (of_require _).bind fun holds => ?_
  split
  · exact of_jump target
  · exact of_pure _

theorem of_jumpByCase (instruction : Instruction) : Confined (jumpByCase instruction) := by
  refine of_pop.bind fun value => ?_
  split
  · exact of_throw _
  · split
    · split
      · split
        · exact of_jump _
        · exact of_pure _
      · exact of_pure _
    · exact of_pure _

theorem of_enterTry (instruction : Instruction) : Confined (enterTry instruction) := by
  rw [Thread.enterTry_eq_entered]
  exact of_onThread_eq (fun _ => rfl) fun _ => rfl

theorem of_enterFinally (exit : ExitAction) : Confined (onThread (·.enterFinally exit)) :=
  of_onThread (Thread.recedes_enterFinally exit)

/-- A thrown value finds room on the stack that the construct had been entered with. -/
theorem of_raise (exception : Value) : Confined (raise exception) := by
  refine bind (of_onThread_eq (fun _ => rfl) fun _ => rfl) fun _ =>
    (of_ofThread _).bind fun handlers => ?_
  split
  · exact (of_describe _).bind fun _ => of_throw _
  · refine bind (of_onThread (Thread.recedes_rewind _)) fun _ => ?_
    split
    · exact bind (of_onThread_eq (fun _ => rfl) fun _ => rfl) fun _ => (of_push _).bind fun _ =>
        of_onThread_eq (fun _ => rfl) fun _ => rfl
    · exact of_enterFinally _

theorem of_leaveTry : Confined leaveTry := by
  refine bind (of_ofThread _) fun phase => ?_
  split
  · exact of_enterFinally _
  · exact of_throw _

theorem of_leaveCatch : Confined leaveCatch := by
  refine bind (of_ofThread _) fun phase => ?_
  split
  · exact of_enterFinally _
  · exact of_throw _

theorem of_reraise : Confined reraise := by
  refine (of_ofThread _).bind fun current => ?_
  split
  · split
    · exact of_onThread fun thread =>
        (thread.recedes_rewind _).trans (Thread.recedes_enterFinally _ _)
    · exact of_throw _
  · exact of_throw _

theorem of_leaveFrame (kind : FrameKind) (form : ReturnForm) (dp : Nat) :
    Confined (leaveFrame kind form dp) := by
  unfold leaveFrame
  split
  · exact of_truncate _
  · exact of_truncate _
  · exact of_truncate _
  · exact (of_truncate _).bind fun _ => of_push _
  · exact (of_truncate _).bind fun _ => of_push _
  · exact of_truncate _

/-- A part that asks nothing of the scheduler. -/
theorem proceed {step : Step Unit} (h : Confined step) :
    Confined (do step; pure Signal.proceed) :=
  h.bind fun _ => of_pure _

theorem of_returnFrom (form : ReturnForm) : Confined (returnFrom form) := by
  refine bind (of_ofThread _) fun interceptor => ?_
  split
  · exact proceed (of_enterFinally _)
  · refine bind (of_ofThread _) fun top => ?_
    split
    · exact of_pure _
    · exact bind (of_ofThread _) fun frame => bind (of_ofThread _) fun dp =>
        bind (of_onThread Thread.recedes_popCall) fun _ => bind (of_leaveFrame _ _ _) fun _ =>
          proceed (of_onThread_eq (fun _ => rfl) fun _ => rfl)

theorem of_carryOut (exit : ExitAction) : Confined (carryOut exit) := by
  cases exit with
  | fallThrough => exact of_pure _
  | ret => exact of_returnFrom _
  | retValue value => exact of_returnFrom _
  | retConstructor => exact of_returnFrom _
  | branch target => exact proceed (of_jump target)
  | rethrow exception => exact proceed (of_raise exception)

theorem of_leaveFinally : Confined leaveFinally := by
  refine bind (of_ofThread _) fun phase => ?_
  split
  · exact bind (of_onThread_eq (fun _ => rfl) fun _ => rfl) fun _ => of_carryOut _
  · exact of_throw _

/-! ### Threads and monitors -/

theorem of_monitorKey (operation : String) (target : Value) :
    Confined (monitorKey operation target) := by
  unfold monitorKey
  split
  · exact of_pure _
  · exact of_pure _
  · exact of_pure _
  · exact (of_describe _).bind fun _ => of_throw _

theorem of_join : Confined join := by
  refine bind of_pop fun value => ?_
  split
  · exact (of_describe value).bind fun _ => of_throw _
  · refine bind (of_ofThread _) fun own => ?_
    split
    · exact of_throw_bind _
    · exact of_pure _

theorem of_nice : Confined nice :=
  (of_setState _).bind fun _ => of_pure _

theorem of_sleep : Confined sleep := by
  refine bind of_pop fun value => ?_
  split
  · exact of_throw _
  · exact bind of_get fun _ => (of_setState _).bind fun _ => of_pure _

theorem of_wait : Confined wait := by
  refine of_pop.bind fun target => (of_monitorKey _ target).bind fun key =>
    of_get.bind fun scene => ?_
  split
  · exact (of_setState _).bind fun _ => of_pure _
  · exact (of_onHeld _).bind fun _ => of_pure _

theorem of_signal : Confined signal := by
  refine of_pop.bind fun target => (of_monitorKey _ target).bind fun key =>
    of_get.bind fun scene => ?_
  split
  · exact of_onHeld _
  · exact (of_describe _).bind fun _ => of_throw _

/-! ### Instructions -/

theorem of_execute (instruction : Instruction) : Confined (execute instruction) := by
  unfold execute
  dsimp only
  cases instruction.opcode with
  | nop => exact proceed (of_pure ())
  | pop => exact of_pop.bind fun _ => of_pure _
  | dup => exact proceed of_dup
  | swap => exact proceed of_swap
  | pushNull => exact proceed (of_push _)
  | pushTrue => exact proceed (of_push _)
  | pushFalse => exact proceed (of_push _)
  | pushByte => exact proceed (of_push _)
  | pushChar => exact proceed (of_push _)
  | pushShort => exact proceed (of_push _)
  | pushInt => exact proceed (of_push _)
  | pushLong => exact proceed (of_push _)
  | pushDouble => exact proceed (of_push _)
  | pushString => exact proceed (of_lookup fun _ => of_push _)
  | loadLocal => exact proceed (of_loadLocal _)
  | storeLocal => exact proceed (of_storeLocal _)
  | add => exact proceed (of_arithmetic _)
  | sub => exact proceed (of_arithmetic _)
  | mul => exact proceed (of_arithmetic _)
  | div => exact proceed (of_arithmetic _)
  | mod => exact proceed (of_arithmetic _)
  | neg => exact proceed of_negate
  | not => exact proceed of_complement
  | convert => exact proceed (of_convert _)
  | ce => exact proceed (of_compare _)
  | cne => exact proceed (of_compare _)
  | cl => exact proceed (of_compare _)
  | cle => exact proceed (of_compare _)
  | cg => exact proceed (of_compare _)
  | cge => exact proceed (of_compare _)
  | jmp => exact proceed (of_jump _)
  | jt => exact proceed (of_jumpIf _ _ _)
  | jf => exact proceed (of_jumpIf _ _ _)
  | jce => exact proceed (of_jumpIfCompare _ _)
  | jcne => exact proceed (of_jumpIfCompare _ _)
  | jcl => exact proceed (of_jumpIfCompare _ _)
  | jcle => exact proceed (of_jumpIfCompare _ _)
  | jcg => exact proceed (of_jumpIfCompare _ _)
  | jcge => exact proceed (of_jumpIfCompare _ _)
  | caseOf => exact proceed (of_jumpByCase _)
  | ret => exact of_returnFrom _
  | retVal => exact of_pop.bind fun _ => of_returnFrom _
  | retCtor => exact of_returnFrom _
  | loadClass => exact proceed (of_loadClass _ _)
  | new => exact proceed (of_new _)
  | call => exact proceed (of_lookup fun key => of_callMethod key .normal)
  | super => exact proceed of_asParent
  | loadField =>
      exact proceed (of_lookup fun name => of_pop.bind fun target =>
        (of_readField target name).bind of_push)
  | storeField =>
      exact proceed (of_lookup fun name => of_pop.bind fun value => of_pop.bind fun target =>
        of_writeField target name value)
  | instanceOf => exact proceed (of_instanceOf _)
  | enterTry => exact proceed (of_enterTry _)
  | leaveTry => exact proceed of_leaveTry
  | leaveCatch => exact proceed of_leaveCatch
  | leaveFinally => exact of_leaveFinally
  | raise => exact of_pop.bind fun _ => proceed (of_raise _)
  | reraise => exact proceed of_reraise
  | newArray => exact proceed of_newArray
  | arrayLoad => exact proceed of_arrayLoad
  | arrayStore => exact proceed of_arrayStore
  | arrayLength => exact proceed of_arrayLength
  | makeArray => exact proceed (of_makeArray _)
  | fork => exact of_pure _
  | join => exact of_join
  | exit => exact of_pure _
  | nice => exact of_nice
  | sleep => exact of_sleep
  | wait => exact of_wait
  | signal => exact proceed of_signal
  | threadId => exact proceed ((of_ofThread _).bind fun _ => of_push _)
  | hierarchy => exact proceed of_hierarchy
  | fields => exact proceed of_fields
  | methods => exact proceed of_methods
  | getField => exact proceed of_getField
  | setField => exact proceed of_setField
  | invoke => exact proceed of_invoke

end Confined

end Step

/-! ## Runs -/

namespace Roster

structure Within (limits : Limits) (roster : Roster) : Prop where
  threads : ∀ thread ∈ roster.threads, thread.Within limits
  count : roster.count ≤ max 1 limits.threads

variable {limits : Limits} {roster chosen : Roster} {thread : Thread}

theorem Within.running (within : roster.Within limits) : roster.running.Within limits :=
  within.threads _ roster.running_mem

/-- What the running thread becomes does not concern the others. -/
theorem Within.replace (within : roster.Within limits) (changed : thread.Within limits) :
    Within limits { roster with running := thread } where
  threads other member := by
    rcases mem_threads.mp member with rfl | member
    · exact changed
    · exact within.threads other (mem_threads.mpr (.inr member))
  count := within.count

theorem Within.resumes (within : roster.Within limits) (resumes : roster.Resumes thread chosen) :
    chosen.Within limits := by
  have candidate {other : Thread} (member : other ∈ roster.candidates) : other.Within limits :=
    within.threads other (Machine.candidates_subset member)
  rw [resumes.candidates] at candidate
  refine ⟨fun other member => ?_, ?_⟩
  · rcases mem_threads.mp member with rfl | member
    · rw [resumes.running]
      have same : thread.Within limits := candidate (by simp)
      exact same.of_recedes (.of_eq rfl rfl)
    · exact candidate (by simp only [List.mem_append, List.mem_cons] at member ⊢; tauto)
  · have size := congrArg List.length resumes.candidates
    have fewer : roster.candidates.length ≤ roster.count := by
      unfold candidates Roster.threads Roster.count
      split
      · simp only [List.length_append]
        omega
      · simp only [List.length_append, List.length_cons]
        omega
    have few := within.count
    unfold Roster.count at few fewer ⊢
    simp only [List.length_append, List.length_cons] at size
    omega

theorem count_lt_of_fork {change : Thread → Except Fault Thread} {limit : Nat}
    {result : ThreadId × Roster} (h : roster.fork limit change = .ok result) :
    roster.count < limit := by
  unfold fork at h
  by_cases full : limit ≤ roster.count
  · rw [if_pos full] at h
    cases h
  · exact Nat.lt_of_not_le full

theorem Forks.count_eq {grown : Roster} (h : roster.Forks grown) :
    grown.count = roster.count + 1 := by
  obtain ⟨later, child, all, others, -⟩ := h.later
  unfold count
  rw [← h.earlier.length_eq, all, List.length_append, ← others.length_eq, List.length_singleton]
  omega

end Roster

namespace Machine

variable {setup : Setup} {machine granted : Machine}

theorem within_of_forked {roster grown : Roster} (within : roster.Within setup.limits)
    (h : forked setup roster = .ok grown) : grown.Within setup.limits := by
  obtain ⟨_, created, -⟩ := Except.bind_eq_ok_iff.mp h
  have room := Roster.count_lt_of_fork created
  have forks := forks_of_forked h
  refine ⟨fun other member => ?_, ?_⟩
  · rcases Roster.mem_threads.mp member with rfl | member
    · obtain ⟨zeros, stack, heaped, running⟩ := forks.running
      rw [running]
      exact within.running.of_recedes ⟨heaped.fits, Nat.le_refl _⟩
    · rcases forks.exists_handed member with ⟨old, found, handed⟩ | handed
      · have before := within.threads old (Roster.mem_threads.mpr (.inr found))
        exact before.of_recedes handed.recedes
      · have copied : (roster.running.copy roster.nextId).Within setup.limits :=
          within.running.of_recedes (.of_eq rfl rfl)
        exact copied.of_recedes handed.recedes
  · rw [forks.count_eq]
    exact Nat.le_trans room (Nat.le_max_right _ _)

theorem Grants.within {signal : Signal} {pending : Bool}
    (h : machine.Grants setup signal granted pending)
    (within : machine.roster.Within setup.limits) : granted.roster.Within setup.limits := by
  have marked (state : ThreadState) : (machine.setState state).roster.Within setup.limits :=
    within.replace (within.running.of_recedes (.of_eq rfl rfl))
  cases h with
  | proceed => exact within
  | yield => exact within
  | fork forks => exact within_of_forked within forks
  | blocks live => exact marked _
  | passes gone => exact within
  | leave several => exact marked _

/-- The thread that an instruction leaves behind keeps to the limits, even if the instruction
fails. -/
theorem within_aftermath {current : Machine} {instruction : Instruction}
    (within : machine.roster.Within setup.limits)
    (fetched : machine.fetch setup = .execute current instruction) :
    ((Step.execute instruction).aftermath setup
      ⟨current.roster.running, current.world⟩).thread.Within setup.limits := by
  refine Step.Confined.of_execute instruction setup _ ?_
  rw [(fetch_eq_execute fetched).1]
  exact within.running.of_recedes (.of_eq rfl rfl)

end Machine

namespace Moment

variable {setup : Setup} {first last : Moment} {log entries : List Happening}

theorem Begins.within (h : Begins setup first) : first.machine.roster.Within setup.limits := by
  obtain ⟨-, store, source, args, start⟩ := h
  unfold Machine.start at start
  dsimp only at start
  split at start
  · next stack pushed =>
      have empty : (Thread.start .main setup.program.entry setup.program.entryModule
          setup.limits.stack).Within setup.limits := ⟨rfl, Nat.zero_le _, Nat.zero_le _⟩
      have thread : ({ Thread.start .main setup.program.entry setup.program.entryModule
          setup.limits.stack with stack } : Thread).Within setup.limits :=
        empty.of_recedes ⟨(Stack.Primitive.push _).fits_of_ok pushed, Nat.le_refl _⟩
      obtain ⟨machine, pending⟩ := first
      cases start
      refine ⟨fun other member => ?_, Nat.le_max_left _ _⟩
      obtain rfl := List.mem_singleton.mp member
      exact thread
  · cases start

theorem Moves.within (h : Moves setup first entries last)
    (within : first.machine.roster.Within setup.limits) :
    last.machine.roster.Within setup.limits := by
  cases h with
  | time clock => exact within
  | decide decides resumes => exact within.resumes resumes
  | @act machine current granted instruction signal after pending fetched execute grants =>
      have left := Machine.within_aftermath within fetched
      rw [Step.aftermath_of_ok execute] at left
      exact (Machine.grants_of_grant grants).within (within.replace left)

theorem Occurs.within (h : Occurs setup log last) : last.machine.roster.Within setup.limits :=
  h.induct (fun _ moment => moment.machine.roster.Within setup.limits)
    (fun begins => begins.within) fun _ within move => move.within within

end Moment

/-- What the limits of a program's runs come to. -/
structure LimitsHold (setup : Setup) : Prop where
  /-- At every moment of every run, however the clock ticks. -/
  moments (log : List Happening) (moment : Moment) (occurs : Moment.Occurs setup log moment) :
    moment.machine.roster.Within setup.limits
  /-- After so many instructions. -/
  reachable (machine : Machine) (reachable : Machine.Reachable setup machine) :
    machine.roster.Within setup.limits
  /-- After an instruction, and when it fails. -/
  aftermath (log : List Happening) (machine current : Machine) (instruction : Instruction)
    (occurs : Moment.Occurs setup log ⟨machine, false⟩)
    (fetched : machine.fetch setup = .execute current instruction) :
    ((Step.execute instruction).aftermath setup
      ⟨current.roster.running, current.world⟩).thread.Within setup.limits
  /-- An operation of a stack that fails changes nothing. -/
  failed {α : Type} (operation : Stack.Operation α) (primitive : Stack.Primitive operation)
    (stack after : Stack) (fault : Fault) (fails : operation stack = .error fault after) :
    after = stack
  /-- One that finds no place to put a value at says so. -/
  missed (place : Nat) (value : Value) (stack after : Stack)
    (misses : Stack.put place value stack = .ok false after) : after = stack

/-- **Limits hold throughout.** No stack, no number of open calls and no number of threads is
greater than the limits of a run allow, at any moment of it. -/
theorem limits_hold (setup : Setup) : LimitsHold setup where
  moments log moment occurs := occurs.within
  reachable machine reachable := by
    obtain ⟨store, source, args, count, reached⟩ := reachable.exists_advance
    exact (Progress.occurs_of_advance reached).within
  aftermath log machine current instruction occurs fetched :=
    Machine.within_aftermath occurs.within fetched
  failed operation primitive stack after fault fails := primitive.eq_of_error fails
  missed place value stack after misses := by
    rw [Stack.put_eq] at misses
    by_cases inside : place < stack.depth
    · simp [inside] at misses
    · simpa [inside, eq_comm] using misses

/-- A program that makes a copy of its only thread, under limits that it reaches with that. -/
def crowdedForks : Setup :=
  { (Setup.ofMain? [
      0x90,        -- fork
      0x31] 0).get (by decide +kernel) with
    limits := { stack := 3, callDepth := 1, threads := 2 } }

/-- All three limits can be reached at once. -/
theorem limits_hold_crowdedForks :
    ∃ log machine, Moment.Occurs crowdedForks log ⟨machine, false⟩ ∧
      machine.roster.count = 2 ∧ machine.roster.running.stack.depth = 3 ∧
      machine.roster.running.calls.size = 1 ∧ machine.roster.Within crowdedForks.limits := by
  have full : occursSatisfying crowdedForks 3 (fun _ machine =>
      machine.roster.count = 2 && machine.roster.running.stack.depth = 3 &&
        machine.roster.running.calls.size = 1) = true := by
    decide +kernel
  obtain ⟨log, machine, occurs, holds⟩ := exists_of_occursSatisfying full
  obtain ⟨⟨count, height⟩, calls⟩ : (machine.roster.count = 2 ∧
      machine.roster.running.stack.depth = 3) ∧ machine.roster.running.calls.size = 1 := by
    simpa using holds
  exact ⟨log, machine, occurs, count, height, calls,
    (limits_hold crowdedForks).moments log ⟨machine, false⟩ occurs⟩

end ObjectMachine
