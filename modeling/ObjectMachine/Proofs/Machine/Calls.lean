import ObjectMachine.Proofs.Machine.Stacks

/-!
# What calls do to a thread

A call finds its receiver under the arguments. A native method leaves its result there. A method of
bytecode is entered with the receiver as the first slot of its frame, and leaves what lies below
that alone unless its locals do not fit.
-/

namespace ObjectMachine

namespace Opcode

/-- Whether an instruction may do more to the stack than take values off it and put one on it. -/
def rearranges : Opcode → Bool
  | .swap | .storeLocal | .call | .invoke | .loadClass => true
  | _ => false

/-- How many of the topmost values of the stack an instruction replaces with others, apart from the
one that it may put on the stack as its result. -/
def replaces : Opcode → Nat
  | .swap | .invoke => 2
  | _ => 0

end Opcode

/-- What a call makes of a thread. The receiver is or will be put at `base`, and the values below
`height` are those of the thread. -/
inductive Thread.Called (thread : Thread) (base height : Nat) (key : MethodKey) (kind : FrameKind)
    (returnIp : Nat) (after : Thread) : Prop
  | native :
      after.registers = thread.registers → thread.stack.Fits after.stack →
      after.stack.depth = base + 1 →
      (∀ place < base, after.stack.get? place = thread.stack.get? place) →
      Called thread base height key kind returnIp after
  | entered {entry : MethodEntry} {address : Nat} :
      thread.stack.Fits after.stack →
      (∀ place < height, place < after.stack.depth →
        after.stack.get? place = thread.stack.get? place) →
      after.registers =
        { calls := thread.calls.push ⟨thread.dp, returnIp, thread.moduleId, thread.frame⟩
          handlers := thread.handlers
          dp := base
          ip := address
          moduleId := entry.moduleId
          frame := .method entry.declaring key kind } →
      Called thread base height key kind returnIp after

namespace Thread.Called

variable {thread other after : Thread} {base height : Nat} {key : MethodKey} {kind : FrameKind}
  {returnIp : Nat}

theorem fits (h : thread.Called base height key kind returnIp after) :
    thread.stack.Fits after.stack := by
  cases h with
  | native _ fits => exact fits
  | entered fits => exact fits

/-- The call is the last part of an instruction that has only changed the stack before, and that
above a height. -/
theorem of_stack (same : other.registers = thread.registers)
    (fits : thread.stack.Fits other.stack) {low : Nat} (le : low ≤ height)
    (kept : ∀ place < low, other.stack.get? place = thread.stack.get? place) (under : base ≤ low)
    (h : other.Called base height key kind returnIp after) :
    thread.Called base low key kind returnIp after := by
  cases h with
  | native registers fits' depth below =>
      exact .native (registers.trans same) (fits.trans fits') depth fun place inside =>
        (below place inside).trans (kept place (Nat.lt_of_lt_of_le inside under))
  | entered fits' below registers =>
      rw [eq_of_registers same] at registers
      refine .entered (fits.trans fits') (fun place inside there => ?_) registers
      exact (below place (Nat.lt_of_lt_of_le inside le) there).trans (kept place inside)

end Thread.Called

namespace Step

variable {setup : Setup} {scene next : Scene}

theorem push_eq_ok {value : Value} {answer : Unit}
    (h : push value setup scene = .ok answer next) :
    scene.thread.stack.depth < scene.thread.stack.limit ∧
      next = { scene with thread := { scene.thread with
        stack := { scene.thread.stack with slots := scene.thread.stack.slots.push value } } } := by
  obtain ⟨stack, pushed, rfl⟩ := onStack_eq_ok_iff.mp h
  obtain ⟨room, rfl⟩ := Stack.push_eq_ok pushed
  exact ⟨room, rfl⟩

/-- Values that are pushed one after the other lie above what has been there. -/
theorem forM_push_eq_ok {items : List Value} {answer : Unit}
    (h : items.forM push setup scene = .ok answer next) :
    next.thread.registers = scene.thread.registers ∧
      scene.thread.stack.Fits next.thread.stack ∧
      next.thread.stack.depth = scene.thread.stack.depth + items.length ∧
      ∀ place < scene.thread.stack.depth,
        next.thread.stack.get? place = scene.thread.stack.get? place := by
  induction items generalizing scene with
  | nil =>
      obtain ⟨-, rfl⟩ := pure_eq_ok_iff.mp h
      exact ⟨rfl, .refl _, rfl, fun _ _ => rfl⟩
  | cons item rest ih =>
      obtain ⟨_, middle, hp, h⟩ := bind_eq_ok_iff.mp h
      obtain ⟨room, rfl⟩ := push_eq_ok hp
      obtain ⟨registers, fits, depth, kept⟩ := ih h
      have size := Stack.depth_push item scene.thread.stack
      refine ⟨registers, (Stack.Regrown.of_push item room).toFits.trans fits, ?_, ?_⟩
      · rw [depth, size, List.length_cons]
        omega
      · intro place inside
        exact (kept place (by rw [size]; omega)).trans (Stack.get?_push item inside)

theorem forM_array_push_eq_ok {items : Array Value} {answer : Unit}
    (h : (items.forM push : Step Unit) setup scene = .ok answer next) :
    next.thread.registers = scene.thread.registers ∧
      scene.thread.stack.Fits next.thread.stack ∧
      next.thread.stack.depth = scene.thread.stack.depth + items.size ∧
      ∀ place < scene.thread.stack.depth,
        next.thread.stack.get? place = scene.thread.stack.get? place := by
  obtain ⟨items⟩ := items
  rw [Array.forM_eq_forM, List.forM_toArray] at h
  exact forM_push_eq_ok h

theorem callNative_depth {info : ClassDef} {receiver : Value} {key : MethodKey} {answer : Unit}
    (h : callNative info receiver key setup scene = .ok answer next) :
    0 < next.thread.stack.depth ∧
      next.thread.stack.depth + key.arity.toNat = scene.thread.stack.depth := by
  unfold callNative at h
  cases native : info.facade with
  | none =>
      rw [native] at h
      exact absurd h throw_ne_ok
  | some facade =>
      rw [native] at h
      obtain ⟨args, _, hm, h⟩ := bind_eq_ok_iff.mp h
      obtain ⟨stack, taken, rfl⟩ := onStack_eq_ok_iff.mp hm
      obtain ⟨enough, rfl⟩ := Stack.popMany_eq_ok taken
      obtain ⟨_, _, hp, h⟩ := bind_eq_ok_iff.mp h
      obtain ⟨stack, taken, rfl⟩ := onStack_eq_ok_iff.mp hp
      obtain ⟨some, -, rfl⟩ := Stack.pop_eq_ok taken
      obtain ⟨_, _, ht, h⟩ := bind_eq_ok_iff.mp h
      have stack := Still.of_nativeTarget _ _ _ _ _ ht
      obtain ⟨_, _, hg, h⟩ := bind_eq_ok_iff.mp h
      obtain ⟨rfl, rfl⟩ := program_eq_ok_iff.mp hg
      obtain ⟨result, _, hn, h⟩ := bind_eq_ok_iff.mp h
      have stack := (Still.of_native _ _ _ _ _ _ hn).trans stack
      obtain ⟨-, rfl⟩ := push_eq_ok h
      have left : (scene.thread.stack.slots.shrink
          (scene.thread.stack.depth - key.arity.toNat)).size =
          scene.thread.stack.depth - key.arity.toNat := by
        rw [Array.size_shrink]
        exact Nat.min_eq_left (Nat.sub_le _ _)
      change 0 < (scene.thread.stack.slots.shrink _).size at some
      change 0 < (Array.push _ result).size ∧ (Array.push _ result).size + _ = _
      rw [Array.size_push, stack, Array.size_pop, left]
      omega

theorem callNative_called {info : ClassDef} {receiver : Value} {key : MethodKey} {kind : FrameKind}
    {returnIp : Nat} {answer : Unit}
    (h : callNative info receiver key setup scene = .ok answer next) :
    ∃ base, base + (key.arity.toNat + 1) = scene.thread.stack.depth ∧
      scene.thread.Called base scene.thread.stack.depth key kind returnIp next.thread := by
  have same := ClassDef.Similar.refl Eq (fun _ => rfl) info
  have registers := (rests (fun _ _ => .of_callNative same _ _) h).registers
  have regrown := Regrows.of_callNative _ _ _ _ _ _ _ h
  obtain ⟨some, depth⟩ := callNative_depth h
  refine ⟨next.thread.stack.depth - 1, by omega, .native registers regrown.toFits (by omega) ?_⟩
  exact fun place inside => regrown.get?_eq (by omega)

theorem enterFrame_called {key : MethodKey} {entry : MethodEntry} {address : Nat}
    {localCount : UInt16} {kind : FrameKind} {returnIp : Nat} {answer : Unit}
    (h : enterFrame key entry address localCount kind returnIp setup scene = .ok answer next) :
    ∃ base, base + (key.arity.toNat + 1) = scene.thread.stack.depth ∧
      scene.thread.Called base scene.thread.stack.depth key kind returnIp next.thread := by
  obtain ⟨-, enough, stack, reserved, rfl⟩ := enterFrame_eq_ok h
  obtain ⟨fits, kept⟩ := Stack.reserve_eq_ok reserved
  exact ⟨_, Nat.sub_add_cancel enough, .entered fits kept rfl⟩

theorem callMethod_called {key : MethodKey} {kind : FrameKind} {answer : Unit}
    (h : callMethod key kind setup scene = .ok answer next) :
    ∃ base, base + (key.arity.toNat + 1) = scene.thread.stack.depth ∧
      scene.thread.Called base scene.thread.stack.depth key
        (callKind setup.program.symbols key kind) scene.thread.ip next.thread := by
  obtain ⟨_, _, hp, h⟩ := bind_eq_ok_iff.mp h
  obtain ⟨rfl, rfl⟩ := program_eq_ok_iff.mp hp
  obtain ⟨receiver, _, hr, h⟩ := bind_eq_ok_iff.mp h
  have peeked := rests (fun _ _ => .of_onStack _) hr
  obtain ⟨id, middle, hc, h⟩ := bind_eq_ok_iff.mp h
  have found := (rests (fun _ _ => .of_memberClass _ _) hc).trans peeked
  have stack := (Still.of_memberClass _ _ _ _ _ _ hc).trans (Still.of_peek _ _ _ _ _ hr)
  -- Finding the method leaves the thread as it is.
  suffices ∃ base, base + (key.arity.toNat + 1) = middle.thread.stack.depth ∧
      middle.thread.Called base middle.thread.stack.depth key
        (callKind setup.program.symbols key kind) middle.thread.ip next.thread by
    obtain ⟨base, depth, called⟩ := this
    rw [stack] at depth called
    rw [found.ip] at called
    refine ⟨base, depth, called.of_stack found.registers ?_ (Nat.le_refl _) ?_ (by omega)⟩
    · rw [stack]
      exact .refl _
    · intro place _
      rw [stack]
  have enters (info : ClassDef) (receiver : Value) (entry : MethodEntry)
      (h : enterMethod key (callKind setup.program.symbols key kind) info receiver entry setup
        middle = .ok answer next) :
      ∃ base, base + (key.arity.toNat + 1) = middle.thread.stack.depth ∧
        middle.thread.Called base middle.thread.stack.depth key
          (callKind setup.program.symbols key kind) middle.thread.ip next.thread := by
    unfold enterMethod at h
    cases body : entry.body with
    | native =>
        rw [body] at h
        exact callNative_called h
    | bytecode address localCount =>
        rw [body] at h
        obtain ⟨_, _, hi, h⟩ := bind_eq_ok_iff.mp h
        obtain ⟨rfl, rfl⟩ := ofThread_eq_ok_iff.mp hi
        exact enterFrame_called h
  cases hm : (setup.program.catalog.get id).method? key with
  | none =>
      rw [hm] at h
      exact absurd h throw_ne_ok
  | some entry =>
      rw [hm] at h
      dsimp only at h
      cases receiver with
      | classRef id =>
          cases static : entry.isStatic with
          | true =>
              rw [static] at h
              exact enters _ _ _ h
          | false =>
              rw [static] at h
              exact absurd h throw_ne_ok
      | _ => exact enters _ _ _ h

theorem call_called {index : UInt32} {answer : Unit}
    (h : call index setup scene = .ok answer next) :
    ∃ base key, base + (key.arity.toNat + 1) = scene.thread.stack.depth ∧
      scene.thread.Called base scene.thread.stack.depth key
        (callKind setup.program.symbols key .normal) scene.thread.ip next.thread := by
  obtain ⟨_, _, hm, h⟩ := bind_eq_ok_iff.mp h
  have looked := rests (fun _ _ => .of_moduleRecord) hm
  obtain ⟨key, _, hr, h⟩ := bind_eq_ok_iff.mp h
  have found := (rests (fun _ _ => .of_require _) hr).trans looked
  have stack := (Still.of_require _ _ _ _ _ hr).trans (Still.of_moduleRecord _ _ _ _ hm)
  obtain ⟨base, depth, called⟩ := callMethod_called h
  rw [stack] at depth called
  rw [found.ip] at called
  refine ⟨base, key, depth, called.of_stack found.registers ?_ (Nat.le_refl _) ?_ (by omega)⟩
  · rw [stack]
    exact .refl _
  · intro place _
    rw [stack]

/-- An operand is the value above what is left of the stack. -/
theorem pop_leaves {value : Value} (h : pop setup scene = .ok value next) :
    next.thread.stack.depth + 1 = scene.thread.stack.depth ∧
      scene.thread.stack.get? next.thread.stack.depth = some value := by
  obtain ⟨stack, taken, rfl⟩ := onStack_eq_ok_iff.mp h
  obtain ⟨some, top, rfl⟩ := Stack.pop_eq_ok taken
  have depth : Stack.depth { scene.thread.stack with slots := scene.thread.stack.slots.pop } =
      scene.thread.stack.depth - 1 := Array.size_pop
  rw [Array.back?_eq_getElem?] at top
  refine ⟨?_, ?_⟩
  · exact depth ▸ Nat.sub_add_cancel some
  · exact depth ▸ top

/-- A call that puts its receiver and its arguments on the stack itself. -/
theorem callWith_called {target : Value} {items : Array Value} {key : MethodKey} {kind : FrameKind}
    {answer : Unit} (arity : key.arity.toNat = items.size)
    (h : (do push target; items.forM push; callMethod key kind : Step Unit) setup scene =
      .ok answer next) :
    scene.thread.stack.depth < scene.thread.stack.limit ∧
      Thread.Called { scene.thread with
          stack := { scene.thread.stack with slots := scene.thread.stack.slots.push target } }
        scene.thread.stack.depth (scene.thread.stack.depth + 1) key
        (callKind setup.program.symbols key kind) scene.thread.ip next.thread := by
  obtain ⟨_, _, hp, h⟩ := bind_eq_ok_iff.mp h
  obtain ⟨room, rfl⟩ := push_eq_ok hp
  obtain ⟨_, ready, hi, h⟩ := bind_eq_ok_iff.mp h
  obtain ⟨registers, fits, height, kept⟩ := forM_array_push_eq_ok hi
  obtain ⟨base, under, called⟩ := callMethod_called h
  have ip : ready.thread.ip = scene.thread.ip := congrArg Registers.ip registers
  rw [Stack.depth_push] at height kept
  rw [arity, height] at under
  obtain rfl : base = scene.thread.stack.depth := by omega
  rw [ip] at called
  exact ⟨room, called.of_stack registers fits (by omega) kept (Nat.le_succ _)⟩

theorem invoke_called {answer : Unit} (h : invoke setup scene = .ok answer next) :
    ∃ base key, base + 3 = scene.thread.stack.depth ∧
      scene.thread.Called base (base + 1) key .invoke scene.thread.ip next.thread := by
  obtain ⟨args, popped₁, ha, h⟩ := bind_eq_ok_iff.mp h
  obtain ⟨name, popped₂, hn, h⟩ := bind_eq_ok_iff.mp h
  obtain ⟨target, popped, ht, h⟩ := bind_eq_ok_iff.mp h
  have rested : popped.Rests scene := (rests (fun _ _ => .of_pop) ht).trans
    ((rests (fun _ _ => .of_pop) hn).trans (rests (fun _ _ => .of_pop) ha))
  have others := (Regrows.of_pop _ _ _ _ ha).trans (Regrows.of_pop _ _ _ _ hn)
  have taken := others.trans (Regrows.of_pop _ _ _ _ ht)
  obtain ⟨depth₁, -⟩ := pop_leaves ha
  obtain ⟨depth₂, -⟩ := pop_leaves hn
  obtain ⟨depth₃, receiver⟩ := pop_leaves ht
  have depth : popped.thread.stack.depth + 3 = scene.thread.stack.depth := by omega
  rw [others.get?_eq (by omega)] at receiver
  cases args with
  | array id =>
      obtain ⟨_, _, hh, h⟩ := bind_eq_ok_iff.mp h
      have found := rests (fun _ _ => .of_heap) hh
      have stack := Still.of_heap _ _ _ _ hh
      obtain ⟨_, _, hp, h⟩ := bind_eq_ok_iff.mp h
      obtain ⟨rfl, rfl⟩ := program_eq_ok_iff.mp hp
      obtain ⟨_, _, hc, h⟩ := bind_eq_ok_iff.mp h
      have found := (rests (fun _ _ => .of_memberClass _ _) hc).trans found
      have stack := (Still.of_memberClass _ _ _ _ _ _ hc).trans stack
      obtain ⟨_, middle, hm, h⟩ := bind_eq_ok_iff.mp h
      have found := ((rests (fun _ _ => .of_memberName _ _) hm).trans found).trans rested
      have stack : middle.thread.stack = popped.thread.stack :=
        (Still.of_memberName _ _ _ _ _ _ hm).trans stack
      split at h
      · exact absurd h throw_bind_ne_ok
      · next few =>
        split at h
        · exact absurd h throw_ne_ok
        · obtain ⟨room, called⟩ := callWith_called
            (UInt16.toNat_ofNat_of_lt' (Nat.lt_succ_of_le (Nat.le_of_not_lt few))) h
          rw [stack] at room called
          rw [found.ip] at called
          have same : Thread.registers { middle.thread with
              stack := { popped.thread.stack with
                slots := popped.thread.stack.slots.push target } } = scene.thread.registers :=
            found.registers
          refine ⟨_, _, depth, called.of_stack same ?_ (Nat.le_refl _)
            (fun place inside => ?_) (Nat.le_succ _)⟩
          · exact taken.toFits.trans (Stack.Regrown.of_push target room).toFits
          · rcases Nat.lt_succ_iff_lt_or_eq.mp inside with inside | rfl
            · exact (Stack.get?_push target inside).trans (taken.get?_eq inside)
            · exact Array.getElem?_push_size.trans receiver.symm
  | _ => exact absurd h throw_ne_ok

theorem initializeClass_called {id : ClassId} {resumeIp : Nat} {entered : Bool}
    (h : initializeClass id resumeIp setup scene = .ok entered next) :
    match entered with
    | true => ∃ key, scene.thread.Called scene.thread.stack.depth scene.thread.stack.depth key
        .initializer resumeIp next.thread
    | false => next.Rests scene ∧ next.thread.stack = scene.thread.stack := by
  obtain ⟨_, _, hg, h⟩ := bind_eq_ok_iff.mp h
  obtain ⟨rfl, rfl⟩ := get_eq_ok_iff.mp hg
  split at h
  · obtain ⟨rfl, rfl⟩ := pure_eq_ok_iff.mp h
    exact ⟨⟨rfl, rfl⟩, rfl⟩
  · obtain ⟨_, _, hp, h⟩ := bind_eq_ok_iff.mp h
    obtain ⟨rfl, rfl⟩ := program_eq_ok_iff.mp hp
    obtain ⟨_, _, hs, h⟩ := bind_eq_ok_iff.mp h
    have begun := rests (fun _ _ => .of_onStore _) hs
    obtain ⟨_, middle, hc, h⟩ := bind_eq_ok_iff.mp h
    have same := ClassDef.Similar.refl Eq (fun _ => rfl) (setup.program.catalog.get id)
    have found := (rests (fun _ _ => .of_storeConstants id same) hc).trans begun
    have stack := (Still.of_storeConstants _ _ _ _ _ _ hc).trans (Still.of_onStore _ _ _ _ _ hs)
    cases hi : initializerOf setup.program id with
    | none =>
        rw [hi] at h
        obtain ⟨rfl, rfl⟩ := pure_eq_ok_iff.mp h
        exact ⟨found, stack⟩
    | some initializer =>
        obtain ⟨key, entry, address, localCount⟩ := initializer
        rw [hi] at h
        obtain ⟨_, _, hv, h⟩ := bind_eq_ok_iff.mp h
        obtain ⟨room, rfl⟩ := push_eq_ok hv
        obtain ⟨_, _, he, h⟩ := bind_eq_ok_iff.mp h
        obtain ⟨rfl, rfl⟩ := pure_eq_ok_iff.mp h
        obtain ⟨base, depth, called⟩ := enterFrame_called he
        have size := Stack.depth_push (.classRef id) middle.thread.stack
        rw [stack] at size
        rw [Stack.depth_push, stack, arity_of_initializerOf hi] at depth
        obtain rfl : base = scene.thread.stack.depth := by simpa using depth
        have pushed := Stack.Regrown.of_push (.classRef id) room
        rw [stack] at pushed
        have same : Thread.registers { middle.thread with
            stack := { middle.thread.stack with
              slots := middle.thread.stack.slots.push (.classRef id) } } =
              scene.thread.registers := found.registers
        refine ⟨key, called.of_stack same ?_ ?_ (fun place inside => ?_) (Nat.le_refl _)⟩
        · rw [stack]
          exact pushed.toFits
        · rw [Stack.depth_push, stack]
          exact Nat.le_succ _
        · rw [stack]
          exact Stack.get?_push _ inside

theorem loadClass_called {index : UInt32} {offset : Nat} {answer : Unit}
    (h : loadClass index offset setup scene = .ok answer next) :
    scene.thread.stack.Regrown 1 next.thread.stack ∧ next.thread.calls = scene.thread.calls ∨
      ∃ key, scene.thread.Called scene.thread.stack.depth scene.thread.stack.depth key
        .initializer offset next.thread := by
  obtain ⟨_, _, hm, h⟩ := bind_eq_ok_iff.mp h
  have looked := rests (fun _ _ => .of_moduleRecord) hm
  obtain ⟨_, middle, hr, h⟩ := bind_eq_ok_iff.mp h
  have found := (rests (fun _ _ => .of_require _) hr).trans looked
  have stack := (Still.of_require _ _ _ _ _ hr).trans (Still.of_moduleRecord _ _ _ _ hm)
  obtain ⟨entered, _, hi, h⟩ := bind_eq_ok_iff.mp h
  have called := initializeClass_called hi
  cases entered with
  | true =>
      obtain ⟨rfl, rfl⟩ := pure_eq_ok_iff.mp h
      obtain ⟨key, called⟩ := called
      rw [stack] at called
      refine .inr ⟨key, called.of_stack found.registers ?_ (Nat.le_refl _) ?_ (Nat.le_refl _)⟩
      · rw [stack]
        exact .refl _
      · intro place _
        rw [stack]
  | false =>
      have pushed := Regrows.of_push _ _ _ _ _ h
      obtain ⟨rests', stack'⟩ := called
      rw [stack', stack] at pushed
      have registers := (rests (fun _ _ => .of_push _) h).registers.trans
        (rests'.registers.trans found.registers)
      exact .inl ⟨pushed, congrArg Registers.calls registers⟩

theorem storeLocal_eq_ok {slot : UInt32} {answer : Unit}
    (h : storeLocal slot setup scene = .ok answer next) :
    ∃ stack value, scene.thread.stack.Regrown 0 stack ∧
      next.thread.stack = { stack with
        slots := stack.slots.setIfInBounds (scene.thread.dp + slot.toNat) value } := by
  obtain ⟨value, _, hp, h⟩ := bind_eq_ok_iff.mp h
  obtain ⟨stack, popped, rfl⟩ := onStack_eq_ok_iff.mp hp
  obtain ⟨_, _, hd, h⟩ := bind_eq_ok_iff.mp h
  obtain ⟨rfl, rfl⟩ := ofThread_eq_ok_iff.mp hd
  obtain ⟨stored, _, hs, h⟩ := bind_eq_ok_iff.mp h
  obtain ⟨after, put, rfl⟩ := onStack_eq_ok_iff.mp hs
  have := Stack.put_eq_ok put
  cases stored with
  | false => exact absurd h throw_ne_ok
  | true =>
      obtain ⟨-, rfl⟩ := pure_eq_ok_iff.mp h
      exact ⟨stack, value, .of_pop popped, this⟩

/-! ## All instructions -/

/-- Whether the end of an instruction that is not the creation of a copy takes values off the stack
and puts one on it at most. -/
def Ends (step : Step Signal) : Prop :=
  ∀ setup scene signal next, step setup scene = .ok signal next →
    signal ≠ .fork ∧ scene.thread.stack.Regrown 1 next.thread.stack

namespace Ends

theorem of_throw (fault : Fault) : Ends (throw fault) :=
  fun _ _ _ _ h => absurd h throw_ne_ok

theorem of_throw_bind (fault : Fault) {following : α → Step Signal} :
    Ends ((throw fault : Step α) >>= following) :=
  fun _ _ _ _ h => absurd h throw_bind_ne_ok

theorem then_pure {step : Step α} {signal : Signal} (h : Regrows 1 step)
    (other : signal ≠ .fork) : Ends (do let _ ← step; pure signal) := by
  intro setup scene answer next hr
  obtain ⟨value, _, hs, hr⟩ := bind_eq_ok_iff.mp hr
  obtain ⟨rfl, rfl⟩ := pure_eq_ok_iff.mp hr
  exact ⟨other, h _ _ _ _ hs⟩

theorem of_pure {signal : Signal} (other : signal ≠ .fork) : Ends (pure signal) := by
  intro setup scene answer next hr
  obtain ⟨rfl, rfl⟩ := pure_eq_ok_iff.mp hr
  exact ⟨other, .refl _⟩

theorem proceed {step : Step Unit} (h : Regrows 1 step) : Ends (do step; pure Signal.proceed) :=
  then_pure h nofun

/-- What follows a part that puts nothing on the stack. -/
theorem bind {step : Step α} {following : α → Step Signal} (h : Regrows 0 step)
    (hn : ∀ value, Ends (following value)) : Ends (step >>= following) := by
  intro setup scene answer next hr
  obtain ⟨value, _, hs, hr⟩ := bind_eq_ok_iff.mp hr
  obtain ⟨other, regrown⟩ := hn value _ _ _ _ hr
  exact ⟨other, ((h _ _ _ _ hs).trans regrown).mono (Nat.le_of_eq (Nat.zero_add 1))⟩

theorem still {step : Step α} {following : α → Step Signal} (h : Still step)
    (hn : ∀ value, Ends (following value)) : Ends (step >>= following) :=
  bind h.regrows hn

theorem of_join : Ends join := by
  refine bind .of_pop fun value => ?_
  split
  · exact still (.of_describe value) fun _ => of_throw _
  · refine still (.of_ofThread _) fun own => ?_
    split
    · exact of_throw_bind _
    · exact of_pure nofun

theorem of_nice : Ends nice :=
  then_pure (Still.of_setState _).regrows nofun

theorem of_sleep : Ends sleep := by
  refine bind .of_pop fun value => ?_
  split
  · exact of_throw _
  · exact still .of_get fun _ => then_pure (Still.of_setState _).regrows nofun

theorem of_wait : Ends wait := by
  refine bind .of_pop fun target => still (.of_monitorKey _ target) fun key =>
    still .of_get fun scene => ?_
  split
  · exact then_pure (Still.of_setState _).regrows nofun
  · exact then_pure (Still.of_onHeld _).regrows nofun

theorem of_returnFrom (form : ReturnForm) : Ends (returnFrom form) := by
  refine still (.of_ofThread _) fun interceptor => ?_
  split
  · exact bind (.of_onThread (·.regrown_enterFinally _)) fun _ => of_pure nofun
  · refine still (.of_ofThread _) fun top => ?_
    split
    · exact of_pure nofun
    · refine still (.of_ofThread _) fun frame => still (.of_ofThread _) fun dp =>
        still (.of_onThread fun _ => rfl) fun _ => ?_
      intro setup scene answer next hr
      obtain ⟨_, _, hl, hr⟩ := bind_eq_ok_iff.mp hr
      obtain ⟨_, _, hs, hr⟩ := bind_eq_ok_iff.mp hr
      obtain rfl := onThread_eq_ok_iff.mp hs
      obtain ⟨rfl, rfl⟩ := pure_eq_ok_iff.mp hr
      have regrown := Regrows.of_leaveFrame _ _ _ _ _ _ _ hl
      exact ⟨nofun, regrown⟩

theorem of_carryOut (exit : ExitAction) : Ends (carryOut exit) := by
  cases exit with
  | fallThrough => exact of_pure nofun
  | ret => exact of_returnFrom _
  | retValue value => exact of_returnFrom _
  | retConstructor => exact of_returnFrom _
  | branch target => exact bind (.of_jump target) fun _ => of_pure nofun
  | rethrow exception => exact proceed (.of_raise exception)

theorem of_leaveFinally : Ends leaveFinally := by
  refine still (.of_ofThread _) fun phase => ?_
  split
  · exact still (.of_onThread fun _ => rfl) fun _ => of_carryOut _
  · exact of_throw _

end Ends

/-- An instruction other than a call, an exchange and a store takes values off the stack and puts
one on it at most. -/
theorem execute_ends {instruction : Instruction} (plain : instruction.opcode.rearranges = false)
    (other : instruction.opcode ≠ .fork) : Ends (execute instruction) := by
  have drop {step : Step Unit} (h : Regrows 0 step) : Ends (do step; pure Signal.proceed) :=
    .proceed fun _ _ _ _ hr => (h _ _ _ _ hr).mono (Nat.zero_le 1)
  unfold execute
  dsimp only
  cases hop : instruction.opcode with
  | fork => exact absurd hop other
  | swap | storeLocal | call | invoke | loadClass =>
      rw [hop] at plain
      cases plain
  | nop => exact .of_pure nofun
  | pop => exact .bind .of_pop fun _ => .of_pure nofun
  | dup => exact .proceed .of_dup
  | pushNull => exact .proceed (.of_push _)
  | pushTrue => exact .proceed (.of_push _)
  | pushFalse => exact .proceed (.of_push _)
  | pushByte => exact .proceed (.of_push _)
  | pushChar => exact .proceed (.of_push _)
  | pushShort => exact .proceed (.of_push _)
  | pushInt => exact .proceed (.of_push _)
  | pushLong => exact .proceed (.of_push _)
  | pushDouble => exact .proceed (.of_push _)
  | pushString => exact .proceed (.of_pushString _)
  | loadLocal => exact .proceed (.of_loadLocal _)
  | add => exact .proceed (.of_arithmetic _)
  | sub => exact .proceed (.of_arithmetic _)
  | mul => exact .proceed (.of_arithmetic _)
  | div => exact .proceed (.of_arithmetic _)
  | mod => exact .proceed (.of_arithmetic _)
  | neg => exact .proceed .of_negate
  | not => exact .proceed .of_complement
  | convert => exact .proceed (.of_convert _)
  | ce => exact .proceed (.of_compare _)
  | cne => exact .proceed (.of_compare _)
  | cl => exact .proceed (.of_compare _)
  | cle => exact .proceed (.of_compare _)
  | cg => exact .proceed (.of_compare _)
  | cge => exact .proceed (.of_compare _)
  | jmp => exact drop (.of_jump _)
  | jt => exact drop (.of_jumpIf _ _ _)
  | jf => exact drop (.of_jumpIf _ _ _)
  | jce => exact drop (.of_jumpIfCompare _ _)
  | jcne => exact drop (.of_jumpIfCompare _ _)
  | jcl => exact drop (.of_jumpIfCompare _ _)
  | jcle => exact drop (.of_jumpIfCompare _ _)
  | jcg => exact drop (.of_jumpIfCompare _ _)
  | jcge => exact drop (.of_jumpIfCompare _ _)
  | caseOf => exact drop (.of_jumpByCase _)
  | ret => exact .of_returnFrom _
  | retVal => exact .bind .of_pop fun _ => .of_returnFrom _
  | retCtor => exact .of_returnFrom _
  | new => exact .proceed (.of_new _)
  | super => exact .proceed .of_asParent
  | loadField => exact .proceed (.of_loadField _)
  | storeField => exact drop (.of_storeField _)
  | instanceOf => exact .proceed (.of_instanceOf _)
  | enterTry =>
      rw [Thread.enterTry_eq_entered]
      exact drop (.of_onThread fun _ => .refl _)
  | leaveTry => exact drop .of_leaveTry
  | leaveCatch => exact drop .of_leaveCatch
  | leaveFinally => exact .of_leaveFinally
  | raise => exact .bind .of_pop fun _ => .proceed (.of_raise _)
  | reraise => exact drop .of_reraise
  | newArray => exact .proceed .of_newArray
  | arrayLoad => exact .proceed .of_arrayLoad
  | arrayStore => exact drop .of_arrayStore
  | arrayLength => exact .proceed .of_arrayLength
  | makeArray => exact .proceed (.of_makeArray _)
  | join => exact .of_join
  | exit => exact .of_pure nofun
  | nice => exact .of_nice
  | sleep => exact .of_sleep
  | wait => exact .of_wait
  | signal =>
      refine drop (.bind .of_pop fun target => (Still.of_monitorKey _ target).bind fun key =>
        Still.of_get.bind fun scene => ?_)
      split
      · exact (Still.of_onHeld _).regrows
      · exact (Still.of_describe _).bind fun _ => .of_throw _
  | threadId => exact .proceed ((Still.of_ofThread _).bind fun _ => Regrows.of_push _)
  | hierarchy => exact .proceed .of_hierarchy
  | fields => exact .proceed .of_fields
  | methods => exact .proceed .of_methods
  | getField => exact .proceed .of_getField
  | setField => exact drop .of_setField

theorem execute_fork {instruction : Instruction} {signal : Signal}
    (h : execute instruction setup scene = .ok signal next)
    (forks : instruction.opcode = .fork) : signal = .fork ∧ next = scene := by
  unfold execute at h
  rw [forks] at h
  obtain ⟨rfl, rfl⟩ := pure_eq_ok_iff.mp h
  exact ⟨rfl, rfl⟩

theorem execute_swap {instruction : Instruction} {signal : Signal}
    (h : execute instruction setup scene = .ok signal next)
    (swaps : instruction.opcode = .swap) :
    signal = .proceed ∧ scene.thread.stack.Fits next.thread.stack ∧
      ∀ place, place + 2 < scene.thread.stack.depth →
        next.thread.stack.get? place = scene.thread.stack.get? place := by
  unfold execute at h
  rw [swaps] at h
  obtain ⟨_, _, swapped, asked⟩ := bind_eq_ok_iff.mp h
  obtain ⟨rfl, rfl⟩ := pure_eq_ok_iff.mp asked
  obtain ⟨upper, _, hu, h⟩ := bind_eq_ok_iff.mp swapped
  obtain ⟨lower, middle, hl, h⟩ := bind_eq_ok_iff.mp h
  have depth : middle.thread.stack.depth + 2 = scene.thread.stack.depth := by
    have := (pop_leaves hu).1
    have := (pop_leaves hl).1
    omega
  have taken := (Regrows.of_pop _ _ _ _ hu).trans (Regrows.of_pop _ _ _ _ hl)
  obtain ⟨_, _, first, second⟩ := bind_eq_ok_iff.mp h
  have put := (Regrows.of_push _ _ _ _ _ first).trans (Regrows.of_push _ _ _ _ _ second)
  obtain ⟨-, rfl⟩ := push_eq_ok first
  obtain ⟨-, rfl⟩ := push_eq_ok second
  refine ⟨rfl, taken.toFits.trans put.toFits, fun place inside => ?_⟩
  rw [Stack.get?_push lower (by rw [Stack.depth_push]; omega), Stack.get?_push upper (by omega)]
  exact taken.get?_eq (by omega)

theorem execute_storeLocal {instruction : Instruction} {signal : Signal}
    (h : execute instruction setup scene = .ok signal next)
    (stores : instruction.opcode = .storeLocal) :
    signal = .proceed ∧ ∃ stack value, scene.thread.stack.Regrown 0 stack ∧
      next.thread.stack = { stack with
        slots :=
          stack.slots.setIfInBounds (scene.thread.dp + instruction.index.toNat) value } := by
  unfold execute at h
  rw [stores] at h
  obtain ⟨_, _, stored, asked⟩ := bind_eq_ok_iff.mp h
  obtain ⟨rfl, rfl⟩ := pure_eq_ok_iff.mp asked
  exact ⟨rfl, storeLocal_eq_ok stored⟩

/-- The convention of a call by an instruction: the height of its receiver, up to which height it
leaves the stack alone, and what it enters a frame for. -/
inductive Convention (setup : Setup) (instruction : Instruction) (thread : Thread) :
    Nat → Nat → MethodKey → FrameKind → Prop
  | call {base : Nat} {key : MethodKey} : instruction.opcode = .call →
      base + (key.arity.toNat + 1) = thread.stack.depth →
      Convention setup instruction thread base thread.stack.depth key
        (callKind setup.program.symbols key .normal)
  | invoke {base : Nat} {key : MethodKey} : instruction.opcode = .invoke →
      base + 3 = thread.stack.depth →
      Convention setup instruction thread base (base + 1) key .invoke
  | loadClass {key : MethodKey} : instruction.opcode = .loadClass →
      Convention setup instruction thread thread.stack.depth thread.stack.depth key .initializer

end Step

/-- Where a method that an instruction calls returns to. A class that has been initialized is
loaded again. -/
def Instruction.returnAddress (instruction : Instruction) : Nat :=
  if instruction.opcode = .loadClass then instruction.offset
  else instruction.offset + instruction.size

namespace Step

theorem execute_called {instruction : Instruction} {signal : Signal}
    (h : execute instruction setup scene = .ok signal next)
    (behind : scene.thread.ip = instruction.offset + instruction.size)
    (calls : instruction.opcode = .call ∨ instruction.opcode = .invoke ∨
      instruction.opcode = .loadClass) :
    signal = .proceed ∧ (scene.thread.stack.Regrown 1 next.thread.stack ∧
        next.thread.calls = scene.thread.calls ∨
      ∃ base height key kind, Convention setup instruction scene.thread base height key kind ∧
        scene.thread.Called base height key kind instruction.returnAddress next.thread) := by
  have goesOn (other : instruction.opcode ≠ .loadClass) :
      instruction.returnAddress = scene.thread.ip := by
    rw [Instruction.returnAddress, if_neg other, behind]
  unfold execute at h
  rcases calls with call | invoke | load
  · rw [call] at h
    obtain ⟨_, _, ran, asked⟩ := bind_eq_ok_iff.mp h
    obtain ⟨rfl, rfl⟩ := pure_eq_ok_iff.mp asked
    obtain ⟨base, key, depth, called⟩ := call_called ran
    rw [goesOn (by rw [call]; nofun)]
    exact ⟨rfl, .inr ⟨base, _, key, _, .call call depth, called⟩⟩
  · rw [invoke] at h
    obtain ⟨_, _, ran, asked⟩ := bind_eq_ok_iff.mp h
    obtain ⟨rfl, rfl⟩ := pure_eq_ok_iff.mp asked
    obtain ⟨base, key, depth, called⟩ := invoke_called ran
    rw [goesOn (by rw [invoke]; nofun)]
    exact ⟨rfl, .inr ⟨base, _, key, _, .invoke invoke depth, called⟩⟩
  · rw [load] at h
    obtain ⟨_, _, ran, asked⟩ := bind_eq_ok_iff.mp h
    obtain ⟨rfl, rfl⟩ := pure_eq_ok_iff.mp asked
    rw [Instruction.returnAddress, if_pos load]
    refine ⟨rfl, (loadClass_called ran).imp ?_ ?_⟩
    · exact fun pushed => pushed
    · rintro ⟨key, called⟩
      exact ⟨_, _, key, _, .loadClass load, called⟩

/-- The instructions by what they do to the stack. -/
theorem cases_rearranges {opcode : Opcode} (h : opcode.rearranges = true) :
    opcode = .swap ∨ opcode = .storeLocal ∨ opcode = .call ∨ opcode = .invoke ∨
      opcode = .loadClass := by
  cases opcode <;> simp_all [Opcode.rearranges]

/-- Only the creation of a copy asks for one. -/
theorem opcode_of_fork {instruction : Instruction} {signal : Signal}
    (h : execute instruction setup scene = .ok signal next)
    (behind : scene.thread.ip = instruction.offset + instruction.size) (forks : signal = .fork) :
    instruction.opcode = .fork := by
  by_contra other
  cases rearranges : instruction.opcode.rearranges with
  | false => exact (execute_ends rearranges other _ _ _ _ h).1 forks
  | true =>
      have proceeds : signal = .proceed := by
        rcases cases_rearranges rearranges with swaps | stores | calls
        · exact (execute_swap h swaps).1
        · exact (execute_storeLocal h stores).1
        · exact (execute_called h behind calls).1
      rw [forks] at proceeds
      cases proceeds

theorem execute_fits {instruction : Instruction} {signal : Signal}
    (h : execute instruction setup scene = .ok signal next)
    (behind : scene.thread.ip = instruction.offset + instruction.size) :
    scene.thread.stack.Fits next.thread.stack := by
  by_cases forks : instruction.opcode = .fork
  · obtain ⟨-, rfl⟩ := execute_fork h forks
    exact .refl _
  · cases rearranges : instruction.opcode.rearranges with
    | false => exact (execute_ends rearranges forks _ _ _ _ h).2.toFits
    | true =>
        rcases cases_rearranges rearranges with swaps | stores | calls
        · exact (execute_swap h swaps).2.1
        · obtain ⟨-, stack, value, taken, stored⟩ := execute_storeLocal h stores
          rw [stored]
          exact taken.toFits.trans (.of_put _ _ _)
        · obtain ⟨-, loaded | ⟨base, height, key, kind, -, called⟩⟩ :=
            execute_called h behind calls
          · exact loaded.1.toFits
          · exact called.fits

/-- The values under a place are left alone by an instruction that keeps the stack above it, unless
it stores something there or replaces operands there. -/
theorem execute_get? {instruction : Instruction} {signal : Signal}
    (h : execute instruction setup scene = .ok signal next)
    (behind : scene.thread.ip = instruction.offset + instruction.size) {floor place : Nat}
    (before : floor < scene.thread.stack.depth)
    (within : floor + instruction.opcode.replaces ≤ scene.thread.stack.depth)
    (after : floor < next.thread.stack.depth) (inside : place < floor)
    (spares : instruction.opcode = .storeLocal →
      scene.thread.dp + instruction.index.toNat ≠ place) :
    next.thread.stack.get? place = scene.thread.stack.get? place := by
  by_cases forks : instruction.opcode = .fork
  · obtain ⟨-, rfl⟩ := execute_fork h forks
    rfl
  · cases rearranges : instruction.opcode.rearranges with
    | false => exact (execute_ends rearranges forks _ _ _ _ h).2.get?_eq (by omega)
    | true =>
        rcases cases_rearranges rearranges with swaps | stores | calls
        · rw [swaps] at within
          change floor + 2 ≤ _ at within
          exact (execute_swap h swaps).2.2 place (by omega)
        · obtain ⟨-, stack, value, taken, stored⟩ := execute_storeLocal h stores
          rw [stored] at after ⊢
          change floor < (stack.slots.setIfInBounds _ value).size at after
          rw [Array.size_setIfInBounds] at after
          have other : scene.thread.dp + instruction.index.toNat ≠ place := spares stores
          refine (Array.getElem?_setIfInBounds.trans (if_neg other)).trans ?_
          exact taken.get?_eq (Nat.lt_trans inside (by exact after))
        · obtain ⟨-, ⟨loaded, -⟩ | ⟨base, height, key, kind, convention, called⟩⟩ :=
            execute_called h behind calls
          · exact loaded.get?_eq (by omega)
          · have above : floor ≤ height := by
              cases convention with
              | call => omega
              | invoke invokes depth =>
                  rw [invokes] at within
                  change floor + 2 ≤ _ at within
                  omega
              | loadClass => omega
            cases called with
            | native _ _ depth kept => exact kept place (by omega)
            | entered _ kept => exact kept place (by omega) (by omega)

end Step

end ObjectMachine
