import ObjectMachine.Proofs.Machine.Moves

/-!
# What instructions do to the stack

Most instructions take some values off the stack and put one on it at most. What lies under the
lowest height that the stack comes to is left alone. The exceptions are an exchange of two values,
a value that is stored in the frame, and the locals of a frame that is entered.
-/

namespace ObjectMachine

namespace Stack

structure Fits (before after : Stack) : Prop where
  limit : after.limit = before.limit
  room : before.depth ≤ before.limit → after.depth ≤ before.limit

/-- Whether values of a stack have been taken off, and then so many put on it at most. -/
structure Regrown (most : Nat) (before after : Stack) : Prop extends Fits before after where
  kept : ∃ low ≤ before.depth, low ≤ after.depth ∧ after.depth ≤ low + most ∧
    ∀ place < low, after.get? place = before.get? place

variable {before middle after : Stack}

theorem Fits.refl (stack : Stack) : Fits stack stack :=
  ⟨rfl, id⟩

theorem Fits.trans (h : Fits before middle) (h' : Fits middle after) : Fits before after := by
  have limit := h.limit
  exact ⟨h'.limit.trans limit, fun fits => limit ▸ h'.room (limit ▸ h.room fits)⟩

namespace Regrown

variable {most more : Nat}

theorem refl (stack : Stack) : Regrown most stack stack :=
  ⟨.refl stack, stack.depth, Nat.le_refl _, Nat.le_refl _, by omega, fun _ _ => rfl⟩

theorem mono (h : Regrown most before after) (le : most ≤ more) : Regrown more before after := by
  obtain ⟨fits, low, under, under', within, kept⟩ := h
  exact ⟨fits, low, under, under', by omega, kept⟩

theorem trans (h : Regrown most before middle) (h' : Regrown more middle after) :
    Regrown (most + more) before after := by
  obtain ⟨fits, low, under, under', within, kept⟩ := h
  obtain ⟨fits', low', under₂, under₂', within', kept'⟩ := h'
  refine ⟨fits.trans fits', min low low', by omega, by omega, by omega, fun place inside => ?_⟩
  rw [kept' place (by omega), kept place (by omega)]

/-- The values that have been put on a stack are the topmost ones. -/
theorem get?_eq (h : Regrown most before after) {place : Nat}
    (inside : place + most < after.depth) : after.get? place = before.get? place := by
  obtain ⟨-, low, -, -, within, kept⟩ := h
  exact kept place (by omega)

end Regrown

/-! ## Operations -/

theorem push_eq_ok {value : Value} {stack after : Stack} {answer : Unit}
    (h : push value stack = .ok answer after) :
    stack.depth < stack.limit ∧ after = { stack with slots := stack.slots.push value } := by
  unfold push at h
  split at h
  · cases h
  · next room =>
      cases h
      exact ⟨Nat.lt_of_not_le room, rfl⟩

theorem depth_push (value : Value) (stack : Stack) :
    depth { stack with slots := stack.slots.push value } = stack.depth + 1 :=
  Array.size_push _

theorem get?_push (value : Value) {stack : Stack} {place : Nat} (inside : place < stack.depth) :
    get? { stack with slots := stack.slots.push value } place = stack.get? place :=
  Array.getElem?_push.trans (if_neg (Nat.ne_of_lt inside))

theorem Regrown.of_push (value : Value) {stack : Stack} (room : stack.depth < stack.limit) :
    Regrown 1 stack { stack with slots := stack.slots.push value } := by
  have size := depth_push value stack
  refine ⟨⟨rfl, fun _ => ?_⟩, stack.depth, Nat.le_refl _, ?_, ?_, fun _ => get?_push value⟩
  · omega
  · omega
  · omega

/-- A stack whose topmost values have been dropped. -/
theorem Regrown.of_shrink (stack : Stack) (height : Nat) :
    Regrown 0 stack { stack with slots := stack.slots.shrink height } := by
  have size : ({ stack with slots := stack.slots.shrink height } : Stack).depth =
      min height stack.depth := Array.size_shrink
  refine ⟨⟨rfl, fun _ => ?_⟩, min height stack.depth, by omega, ?_, ?_, fun place inside => ?_⟩
  · omega
  · exact Nat.le_of_eq size.symm
  · exact Nat.le_of_eq size
  · exact getElem?_shrink.trans (if_pos (Nat.lt_of_lt_of_le inside (Nat.min_le_left _ _)))

theorem Regrown.of_truncate (stack : Stack) (height : Nat) :
    Regrown 0 stack (stack.truncate height) :=
  .of_shrink stack height

theorem pop_eq_ok {value : Value} {stack after : Stack} (h : pop stack = .ok value after) :
    0 < stack.depth ∧ stack.slots.back? = some value ∧
      after = { stack with slots := stack.slots.pop } := by
  unfold pop at h
  split at h
  · next top =>
      cases h
      rw [Array.back?_eq_getElem?] at top
      obtain ⟨inside, -⟩ := Array.getElem?_eq_some_iff.mp top
      refine ⟨Nat.lt_of_le_of_lt (Nat.zero_le _) inside, ?_, rfl⟩
      rwa [Array.back?_eq_getElem?]
  · cases h

theorem Regrown.of_pop {value : Value} {stack after : Stack} (h : pop stack = .ok value after) :
    Regrown 0 stack after := by
  obtain ⟨-, -, rfl⟩ := pop_eq_ok h
  have same : stack.slots.pop = stack.slots.shrink (stack.slots.size - 1) := by
    exact Array.ext_getElem? fun place => Array.getElem?_pop.trans getElem?_shrink.symm
  rw [same]
  exact .of_shrink stack _

theorem popMany_eq_ok {count : Nat} {values : Array Value} {stack after : Stack}
    (h : popMany count stack = .ok values after) :
    count ≤ stack.depth ∧
      after = { stack with slots := stack.slots.shrink (stack.depth - count) } := by
  unfold popMany at h
  dsimp only at h
  split at h
  · cases h
  · next enough =>
      cases h
      exact ⟨Nat.le_of_not_lt enough, rfl⟩

theorem peek_eq_ok {below : Nat} {value : Value} {stack after : Stack}
    (h : peek below stack = .ok value after) : after = stack := by
  unfold peek at h
  split at h
  · split at h
    · cases h
      rfl
    · cases h
  · cases h

theorem put_eq_ok {place : Nat} {value : Value} {found : Bool} {stack after : Stack}
    (h : put place value stack = .ok found after) :
    after = { stack with slots := stack.slots.setIfInBounds place value } := by
  unfold put at h
  split at h
  · cases h
    rfl
  · next outside =>
      cases h
      rw [Array.setIfInBounds_eq_of_size_le (Nat.le_of_not_lt outside)]

theorem Fits.of_put (stack : Stack) (place : Nat) (value : Value) :
    Fits stack { stack with slots := stack.slots.setIfInBounds place value } := by
  refine ⟨rfl, fun fits => ?_⟩
  change (stack.slots.setIfInBounds place value).size ≤ _
  rwa [Array.size_setIfInBounds]

/-- The locals of a frame leave what lies below them alone. -/
theorem reserve_eq_ok {count : Nat} {stack after : Stack} {answer : Unit}
    (h : reserve count stack = .ok answer after) :
    Fits stack after ∧
      ∀ place < stack.depth, place < after.depth → after.get? place = stack.get? place := by
  unfold reserve at h
  dsimp only at h
  generalize (UInt64.ofNat (stack.slots.size + count)).toNat = height at h
  split at h
  · cases h
  · next room =>
      cases h
      have left : (stack.slots.shrink height).size = min height stack.slots.size :=
        Array.size_shrink
      refine ⟨⟨rfl, fun _ => ?_⟩, fun place inside inside' => ?_⟩
      · change (stack.slots.shrink height ++ _).size ≤ stack.limit
        rw [Array.size_append, left, Array.size_replicate]
        omega
      · change place < (stack.slots.shrink height ++ _).size at inside'
        change (stack.slots.shrink height ++ _)[place]? = stack.slots[place]?
        change place < stack.slots.size at inside
        rw [Array.size_append, left, Array.size_replicate] at inside'
        rw [Array.getElem?_append_left (by omega), getElem?_shrink, if_pos (by omega)]

end Stack

namespace Thread

variable (thread : Thread)

theorem regrown_enterFinally (exit : ExitAction) :
    thread.stack.Regrown 0 (thread.enterFinally exit).stack := by
  unfold enterFinally
  split
  · exact .of_truncate _ _
  · exact .refl _

theorem regrown_branchTo (target : Nat) :
    thread.stack.Regrown 0 (thread.branchTo target).stack := by
  unfold branchTo
  split
  · split
    · exact .refl _
    · exact thread.regrown_enterFinally _
  · exact .refl _

end Thread

namespace Step

def Leaves (effect : Stack → Stack → Prop) (step : Step α) : Prop :=
  ∀ setup scene answer next, step setup scene = .ok answer next →
    effect scene.thread.stack next.thread.stack

abbrev Still (step : Step α) : Prop :=
  Leaves (fun before after => after = before) step

/-- Whether a part of an instruction takes values off the stack and puts so many on it at most. -/
abbrev Regrows (most : Nat) (step : Step α) : Prop :=
  Leaves (Stack.Regrown most) step

namespace Leaves

variable {effect : Stack → Stack → Prop}

theorem of_throw (fault : Fault) : Leaves effect (throw fault : Step α) :=
  fun _ _ _ _ h => absurd h throw_ne_ok

/-- Nothing follows a fault. -/
theorem of_throw_bind (fault : Fault) {following : γ → Step α} :
    Leaves effect ((throw fault : Step γ) >>= following) :=
  fun _ _ _ _ h => absurd h throw_bind_ne_ok

theorem bind {first second : Stack → Stack → Prop} {step : Step α} {following : α → Step β}
    (joins : ∀ {before middle after}, first before middle → second middle after →
      effect before after)
    (h : Leaves first step) (hn : ∀ value, Leaves second (following value)) :
    Leaves effect (step >>= following) := by
  intro setup scene answer next hr
  obtain ⟨value, middle, hs, hf⟩ := bind_eq_ok_iff.mp hr
  exact joins (h _ _ _ _ hs) (hn value _ _ _ _ hf)

/-- What follows leaves the stack alone. -/
theorem rests {step : Step α} {following : α → Step β} (h : Leaves effect step)
    (hn : ∀ value, Still (following value)) : Leaves effect (step >>= following) := by
  refine h.bind (fun {before middle after} first second => ?_) hn
  rwa [second]

theorem of_onThread {change : Thread → Thread}
    (h : ∀ thread, effect thread.stack (change thread).stack) :
    Leaves effect (onThread change) := by
  intro setup scene answer next hr
  obtain rfl := onThread_eq_ok_iff.mp hr
  exact h scene.thread

theorem of_onStack {operation : Stack.Operation α}
    (h : ∀ {stack value after}, operation stack = .ok value after → effect stack after) :
    Leaves effect (onStack operation) := by
  intro setup scene answer next hr
  obtain ⟨stack, done, rfl⟩ := onStack_eq_ok_iff.mp hr
  exact h done

end Leaves

/-! ## Parts that leave the stack alone -/

namespace Still

theorem bind {effect : Stack → Stack → Prop} {step : Step α} {following : α → Step β}
    (h : Still step) (hn : ∀ value, Leaves effect (following value)) :
    Leaves effect (step >>= following) := by
  refine Leaves.bind (fun {before middle after} first second => ?_) h hn
  rwa [first] at second

theorem regrows {most : Nat} {step : Step α} (h : Still step) : Regrows most step :=
  fun _ _ _ _ hr => h _ _ _ _ hr ▸ .refl _

theorem of_pure (value : α) : Still (pure value) := by
  intro setup scene answer next h
  obtain ⟨-, rfl⟩ := pure_eq_ok_iff.mp h
  rfl

theorem map {step : Step α} {f : α → β} (h : Still step) : Still (f <$> step) := by
  rw [← bind_pure_comp]
  exact h.bind fun value => of_pure (f value)

theorem of_require (result : Except Fault α) : Still (require result) := by
  cases result with
  | ok value => exact of_pure value
  | error fault => exact .of_throw fault

theorem of_get : Still get := by
  intro setup scene answer next h
  obtain ⟨-, rfl⟩ := get_eq_ok_iff.mp h
  rfl

theorem of_read : Still read := by
  intro setup scene answer next h
  obtain ⟨-, rfl⟩ := read_eq_ok_iff.mp h
  rfl

theorem of_program : Still program :=
  of_read.bind fun _ => of_pure _

theorem of_ofThread (part : Thread → α) : Still (ofThread part) :=
  of_get.bind fun _ => of_pure _

theorem of_heap : Still heap :=
  of_get.bind fun _ => of_pure _

theorem of_moduleRecord : Still moduleRecord :=
  of_program.bind fun _ => (of_ofThread _).bind fun _ => of_pure _

theorem of_describe (value : Value) : Still (describe value) :=
  of_program.bind fun _ => of_heap.bind fun _ => of_pure _

theorem of_modifyWorld (change : World → World) :
    Still (modify fun scene => { scene with world := change scene.world }) := by
  intro setup scene answer next h
  cases h
  rfl

theorem of_modifyGetWorld (change : World → α × World) :
    Still (modifyGet fun scene =>
      ((change scene.world).1, { scene with world := (change scene.world).2 })) := by
  intro setup scene answer next h
  cases h
  rfl

theorem of_onStore (change : Store → Store) : Still (onStore change) :=
  of_modifyWorld fun world => { world with store := change world.store }

theorem of_onHeld (change : List MonitorKey → List MonitorKey) : Still (onHeld change) :=
  of_modifyWorld fun world => { world with held := change world.held }

theorem of_setState (state : ThreadState) : Still (setState state) :=
  .of_onThread fun _ => rfl

theorem of_forM {step : α → Step Unit} (h : ∀ item, Still (step item)) (items : List α) :
    Still (items.forM step) := by
  induction items with
  | nil => exact of_pure _
  | cons item rest ih => exact (h item).bind fun _ => ih

theorem of_peek (below : Nat) : Still (onStack (Stack.peek below)) :=
  .of_onStack Stack.peek_eq_ok

theorem of_sum (a b : Value) : Still (sum a b) := by
  have texts : Still (do pure (Value.text ((← describe a) ++ (← describe b)))) :=
    (of_describe a).bind fun _ => (of_describe b).bind fun _ => of_pure _
  unfold sum
  split
  · exact texts
  · exact texts
  · exact of_require _

theorem of_integer (purpose : String) (value : Value) : Still (integer purpose value) := by
  unfold integer
  split
  · exact of_pure _
  · exact .of_throw _

theorem of_arrayFor (operation : String) (value : Value) : Still (arrayFor operation value) := by
  unfold arrayFor
  split
  · exact of_pure _
  · exact .of_throw _
  · exact .of_throw _

theorem of_itemPlace (index : Int64) (length : Nat) : Still (itemPlace index length) := by
  unfold itemPlace
  split
  · exact of_pure _
  · exact .of_throw _

theorem of_memberClass (member : String) (target : Value) : Still (memberClass member target) := by
  unfold memberClass
  split
  · exact of_pure _
  · exact of_pure _
  · exact .of_throw _
  · exact (of_describe _).bind fun _ => .of_throw _

theorem of_nativeTarget (target : Value) : Still (nativeTarget target) := by
  unfold nativeTarget
  split
  · exact of_heap.bind fun _ => of_pure _
  · exact of_pure _

theorem of_native (facade : Facade) (operation : Store → Except String (α × Store)) :
    Still (native facade operation) := by
  refine of_get.bind fun scene => ?_
  dsimp only
  split
  · exact (of_onStore _).bind fun _ => of_pure _
  · exact .of_throw _

theorem of_fieldSlot (info : ClassDef) (target : Value) (name : Symbol) :
    Still (fieldSlot info target name) := by
  refine of_program.bind fun program => ?_
  split
  · exact .of_throw _
  · split
    · exact of_pure _
    · exact of_pure _
    · exact .of_throw _

theorem of_readField (target : Value) (name : Symbol) : Still (readField target name) := by
  refine of_program.bind fun program => (of_memberClass _ target).bind fun id => ?_
  dsimp only
  split
  · exact (of_nativeTarget target).bind fun object => of_native _ _
  · refine (of_fieldSlot _ target name).bind fun field => ?_
    split
    · exact of_heap.bind fun _ => of_pure _
    · exact of_get.bind fun _ => of_pure _

theorem of_writeField (target : Value) (name : Symbol) (value : Value) :
    Still (writeField target name value) := by
  refine of_program.bind fun program => (of_memberClass _ target).bind fun id => ?_
  dsimp only
  split
  · exact (of_nativeTarget target).bind fun object => of_native _ _
  · refine (of_fieldSlot _ target name).bind fun field => ?_
    split
    · exact of_onStore _
    · exact of_onStore _

theorem of_memberName (operation : String) (name : Value) : Still (memberName operation name) := by
  unfold memberName
  split
  · exact of_pure _
  · exact .of_throw _

theorem of_fieldSymbol (info : ClassDef) (name : Value) : Still (fieldSymbol info name) := by
  refine (of_memberName _ name).bind fun text => of_program.bind fun program => ?_
  split
  · exact of_pure _
  · exact .of_throw _

theorem of_storeConstants (id : ClassId) (info : ClassDef) : Still (storeConstants id info) := by
  refine of_forM (fun constant => ?_) _
  obtain ⟨name, value⟩ := constant
  dsimp only
  split
  · exact of_onStore _
  · exact of_pure _

theorem of_monitorKey (operation : String) (target : Value) :
    Still (monitorKey operation target) := by
  unfold monitorKey
  split
  · exact of_pure _
  · exact of_pure _
  · exact of_pure _
  · exact (of_describe _).bind fun _ => .of_throw _

end Still

/-! ## Parts that put one value on the stack at most -/

namespace Regrows

variable {most : Nat}

/-- What follows a part that puts nothing on the stack. -/
theorem bind {step : Step α} {following : α → Step β} (h : Regrows 0 step)
    (hn : ∀ value, Regrows most (following value)) : Regrows most (step >>= following) :=
  Leaves.bind (fun first second => (first.trans second).mono (Nat.le_of_eq (Nat.zero_add most)))
    h hn

theorem of_push (value : Value) : Regrows 1 (push value) := by
  refine .of_onStack fun {stack answer after} h => ?_
  obtain ⟨room, rfl⟩ := Stack.push_eq_ok h
  exact .of_push value room

theorem of_pop : Regrows 0 pop :=
  .of_onStack Stack.Regrown.of_pop

theorem of_popMany (count : Nat) : Regrows 0 (onStack (Stack.popMany count)) := by
  refine .of_onStack fun {stack answer after} h => ?_
  obtain ⟨-, rfl⟩ := Stack.popMany_eq_ok h
  exact .of_shrink stack _

theorem of_truncate (depth : Nat) : Regrows 0 (truncate depth) := by
  refine .of_onStack fun {stack answer after} h => ?_
  cases h
  exact .of_truncate stack depth

theorem of_pushArray (items : Array Value) : Regrows 1 (pushArray items) :=
  Still.bind (Still.of_modifyGetWorld fun world =>
    let created := world.store.heap.newArray items
    (created.1, { world with store := { world.store with heap := created.2 } })) fun id =>
      of_push (.array id)

theorem of_pushTexts (items : List String) : Regrows 1 (pushTexts items) :=
  of_pushArray _

/-! ### Values, locals and arithmetic -/

theorem of_dup : Regrows 1 dup :=
  (Still.of_peek 0).bind of_push

theorem of_pushString (index : UInt32) : Regrows 1 (pushString index) :=
  Still.of_moduleRecord.bind fun _ => (Still.of_require _).bind fun _ => of_push _

theorem of_loadLocal (slot : UInt32) : Regrows 1 (loadLocal slot) := by
  refine (Still.of_ofThread _).bind fun found => ?_
  split
  · exact of_push _
  · exact .of_throw _

theorem of_binary {operation : Value → Value → Step Value}
    (h : ∀ a b, Still (operation a b)) : Regrows 1 (binary operation) :=
  of_pop.bind fun b => of_pop.bind fun a => (h a b).bind of_push

theorem of_arithmetic (op : ArithmeticOp) : Regrows 1 (arithmetic op) := by
  refine of_binary fun a b => ?_
  cases op with
  | add => exact .of_sum a b
  | _ => exact .of_require _

theorem of_compare (op : ComparisonOp) : Regrows 1 (compare op) :=
  of_binary fun _ _ => (Still.of_require _).map

theorem of_negate : Regrows 1 negate :=
  of_pop.bind fun _ => (Still.of_require _).bind of_push

theorem of_complement : Regrows 1 complement :=
  of_pop.bind fun _ => (Still.of_require _).bind of_push

theorem of_convert (code : UInt8) : Regrows 1 (convert code) := by
  unfold convert
  split
  · exact .of_throw _
  · exact of_pop.bind fun value => (Still.of_describe value).bind fun _ => of_push _
  · exact of_pop.bind fun _ => Still.of_heap.bind fun _ => (Still.of_require _).bind of_push

/-! ### Arrays -/

theorem of_newArray : Regrows 1 newArray := by
  refine of_pop.bind fun value => (Still.of_integer _ value).bind fun length => ?_
  split
  · exact .of_throw_bind _
  · refine Still.of_read.bind fun setup => ?_
    split
    · exact .of_throw_bind _
    · exact of_pushArray _

theorem of_makeArray (count : Nat) : Regrows 1 (makeArray count) :=
  (of_popMany count).bind of_pushArray

theorem of_arrayLoad : Regrows 1 arrayLoad :=
  of_pop.bind fun index => of_pop.bind fun value => (Still.of_arrayFor _ value).bind fun _ =>
    (Still.of_integer _ index).bind fun _ => Still.of_heap.bind fun _ =>
      (Still.of_itemPlace _ _).bind fun _ => of_push _

theorem of_arrayStore : Regrows 0 arrayStore :=
  of_pop.bind fun _ => of_pop.bind fun index => of_pop.bind fun value =>
    (Still.of_arrayFor _ value).bind fun _ => (Still.of_integer _ index).bind fun _ =>
      Still.of_heap.bind fun _ => (Still.of_itemPlace _ _).bind fun _ =>
        (Still.of_onStore _).regrows

theorem of_arrayLength : Regrows 1 arrayLength :=
  of_pop.bind fun value => (Still.of_arrayFor _ value).bind fun _ =>
    Still.of_heap.bind fun _ => of_push _

/-! ### Members -/

theorem of_loadField (index : UInt32) : Regrows 1 (loadField index) :=
  Still.of_moduleRecord.bind fun _ => (Still.of_require _).bind fun name =>
    of_pop.bind fun target => (Still.of_readField target name).bind of_push

theorem of_storeField (index : UInt32) : Regrows 0 (storeField index) :=
  Still.of_moduleRecord.bind fun _ => (Still.of_require _).bind fun name =>
    of_pop.bind fun value => of_pop.bind fun target =>
      (Still.of_writeField target name value).regrows

theorem of_instanceOf (index : UInt32) : Regrows 1 (instanceOf index) := by
  refine Still.of_moduleRecord.bind fun _ => (Still.of_require _).bind fun id =>
    of_pop.bind fun value => ?_
  split
  · exact Still.of_program.bind fun _ => of_push _
  · exact of_push _
  · exact (Still.of_describe _).bind fun _ => .of_throw _

theorem of_hierarchy : Regrows 1 hierarchy :=
  of_pop.bind fun target => (Still.of_memberClass _ target).bind fun _ =>
    Still.of_program.bind fun _ => of_pushTexts _

theorem of_fields : Regrows 1 fields := by
  refine of_pop.bind fun target => Still.of_program.bind fun program =>
    (Still.of_memberClass _ target).bind fun id => ?_
  dsimp only
  split
  · exact of_pushTexts _
  · exact of_pushTexts _

theorem of_methods : Regrows 1 methods :=
  of_pop.bind fun target => Still.of_program.bind fun _ =>
    (Still.of_memberClass _ target).bind fun _ => of_pushTexts _

theorem of_getField : Regrows 1 getField :=
  of_pop.bind fun name => of_pop.bind fun target => Still.of_program.bind fun _ =>
    (Still.of_memberClass _ target).bind fun _ => (Still.of_fieldSymbol _ name).bind fun symbol =>
      (Still.of_readField target symbol).bind of_push

theorem of_setField : Regrows 0 setField :=
  of_pop.bind fun value => of_pop.bind fun name => of_pop.bind fun target =>
    Still.of_program.bind fun _ => (Still.of_memberClass _ target).bind fun _ =>
      (Still.of_fieldSymbol _ name).bind fun symbol =>
        (Still.of_writeField target symbol value).regrows

theorem of_new (index : UInt32) : Regrows 1 (new index) := by
  refine Still.of_moduleRecord.bind fun _ => (Still.of_require _).bind fun id =>
    Still.of_program.bind fun program => ?_
  dsimp only
  split
  · exact (Still.of_native _ _).bind fun object => of_push _
  · exact Still.bind (Still.of_modifyGetWorld fun world =>
      let created := world.store.heap.newFields (program.catalog.get id).instanceFieldCount.toNat
      (created.1, { world with store := { world.store with heap := created.2 } }))
        fun object => of_push _

theorem of_asParent : Regrows 1 asParent := by
  refine of_pop.bind fun value => Still.of_program.bind fun program =>
    (Still.of_ofThread _).bind fun frame => ?_
  split
  · exact .of_throw _
  · split
    · exact .of_throw _
    · split
      · exact of_push _
      · exact of_push _
      · exact .of_throw _
      · exact (Still.of_describe _).bind fun _ => .of_throw _

theorem of_callNative (info : ClassDef) (receiver : Value) (key : MethodKey) :
    Regrows 1 (callNative info receiver key) := by
  unfold callNative
  split
  · exact .of_throw _
  · exact (of_popMany _).bind fun args => of_pop.bind fun _ =>
      (Still.of_nativeTarget receiver).bind fun object => Still.of_program.bind fun _ =>
        (Still.of_native _ _).bind of_push

/-! ### Branches and exceptions -/

theorem of_jump (target : Nat) : Regrows 0 (jump target) :=
  .of_onThread (·.regrown_branchTo target)

theorem of_jumpIf (opcode : Opcode) (wanted : Bool) (target : Nat) :
    Regrows 0 (jumpIf opcode wanted target) := by
  refine of_pop.bind fun value => ?_
  split
  · split
    · exact of_jump target
    · exact (Still.of_pure _).regrows
  · exact .of_throw _

theorem of_jumpIfCompare (op : ComparisonOp) (target : Nat) :
    Regrows 0 (jumpIfCompare op target) := by
  refine of_pop.bind fun b => of_pop.bind fun a => (Still.of_require _).bind fun holds => ?_
  split
  · exact of_jump target
  · exact (Still.of_pure _).regrows

theorem of_jumpByCase (instruction : Instruction) : Regrows 0 (jumpByCase instruction) := by
  refine of_pop.bind fun value => ?_
  split
  · exact .of_throw _
  · split
    · split
      · split
        · exact of_jump _
        · exact (Still.of_pure _).regrows
      · exact (Still.of_pure _).regrows
    · exact (Still.of_pure _).regrows

theorem of_raise (exception : Value) : Regrows 1 (raise exception) := by
  refine Still.bind (.of_onThread fun _ => rfl) fun _ => (Still.of_ofThread _).bind fun handlers =>
    ?_
  split
  · exact (Still.of_describe _).bind fun _ => .of_throw _
  · refine Regrows.bind (.of_onThread fun _ => .of_truncate _ _) fun _ => ?_
    split
    · exact Still.bind (.of_onThread fun _ => rfl) fun _ =>
        (of_push _).rests fun _ => .of_onThread fun _ => rfl
    · exact .of_onThread fun thread => (thread.regrown_enterFinally _).mono (Nat.zero_le 1)

theorem of_leaveTry : Regrows 0 leaveTry := by
  refine Still.bind (Still.of_ofThread _) fun phase => ?_
  split
  · exact .of_onThread (·.regrown_enterFinally _)
  · exact .of_throw _

theorem of_leaveCatch : Regrows 0 leaveCatch := by
  refine Still.bind (Still.of_ofThread _) fun phase => ?_
  split
  · exact .of_onThread (·.regrown_enterFinally _)
  · exact .of_throw _

theorem of_reraise : Regrows 0 reraise := by
  refine (Still.of_ofThread _).bind fun current => ?_
  split
  · split
    · exact .of_onThread fun thread =>
        (Stack.Regrown.of_truncate _ _).trans ((thread.rewind _).regrown_enterFinally _)
    · exact .of_throw _
  · exact .of_throw _

theorem of_leaveFrame (kind : FrameKind) (form : ReturnForm) (dp : Nat) :
    Regrows 1 (leaveFrame kind form dp) := by
  have drops (depth : Nat) : Regrows 1 (truncate depth) :=
    fun _ _ _ _ h => (of_truncate depth _ _ _ _ h).mono (Nat.zero_le 1)
  unfold leaveFrame
  split
  · exact drops _
  · exact drops _
  · exact drops _
  · exact (of_truncate _).bind fun _ => of_push _
  · exact (of_truncate _).bind fun _ => of_push _
  · exact drops _

end Regrows

end Step

end ObjectMachine
