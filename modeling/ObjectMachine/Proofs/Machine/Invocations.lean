import ObjectMachine.Proofs.Machine.Initializers
import ObjectMachine.Proofs.Machine.Visits
import ObjectMachine.Proofs.Program.Symbols

/-!
# Invocations

A method can be invoked by its name with its arguments in an array. That enters the same method with
the same frame as a call of it does, except for the kind of the frame. A frame of a constructor that
has been called leaves its receiver whatever the constructor returns. One that has been invoked does
so only if the constructor returns as one.
-/

namespace ObjectMachine

def Value.class? : Value → Option ClassId
  | .object view _ => some view
  | .classRef id => some id
  | _ => none

namespace Scene

def holding (values : List Value) (scene : Scene) : Scene :=
  { scene with thread := { scene.thread with stack := { scene.thread.stack with
      slots := scene.thread.stack.slots ++ values.toArray } } }

theorem holding_nil (scene : Scene) : scene.holding [] = scene := by
  unfold holding
  rw [Array.append_empty]

theorem depth_holding (scene : Scene) (values : List Value) :
    (scene.holding values).thread.stack.depth = scene.thread.stack.depth + values.length :=
  Array.size_append.trans (congrArg _ List.size_toArray)

end Scene

/-- The thread in a method of bytecode that it has entered with the receiver, the arguments and the
locals that it has on a stack now. -/
def Thread.entering (key : MethodKey) (entry : MethodEntry) (address : Nat) (stack : Stack)
    (thread : Thread) : Thread :=
  { thread with
    stack
    calls := thread.calls.push ⟨thread.dp, thread.ip, thread.moduleId, thread.frame⟩
    dp := thread.stack.depth
    ip := address
    moduleId := entry.moduleId
    frame := .method entry.declaring key .normal }

theorem Thread.recast_entering {thread : Thread} {key : MethodKey} {entry : MethodEntry}
    {address : Nat} {stack : Stack} (kind : FrameKind) :
    let start := thread.entering key entry address stack
    start.recast start.calls.size kind =
      { start with frame := .method entry.declaring key kind } := by
  intro start
  refine ext_frames rfl (fun place => ?_) (if_pos rfl)
  rw [getElem?_recast]
  change _ = start.calls[place]?
  cases there : start.calls[place]? with
  | none => rfl
  | some call =>
      have inside := (Array.getElem?_eq_some_iff.mp there).1
      rw [Option.map_some, if_neg (by omega)]

namespace Step

variable {setup : Setup} {scene : Scene}

theorem bind_congr_left {other : Scene} {step step' : Step α} {following : α → Step β}
    (h : step setup scene = step' setup other) :
    (step >>= following) setup scene = (step' >>= following) setup other := by
  change EStateM.bind (step setup) (fun value => following value setup) scene =
    EStateM.bind (step' setup) (fun value => following value setup) other
  unfold EStateM.bind
  rw [h]

theorem pop_holding (values : List Value) (value : Value) :
    pop setup (scene.holding (values ++ [value])) = .ok value (scene.holding values) := by
  have slots : scene.thread.stack.slots ++ (values ++ [value]).toArray =
      (scene.thread.stack.slots ++ values.toArray).push value := by
    rw [← List.push_toArray, Array.append_push]
  unfold Scene.holding
  rw [slots, pop_of_back? (Array.back?_push)]
  dsimp only
  rw [Array.pop_push]

theorem push_holding {values : List Value} (value : Value)
    (room : scene.thread.stack.depth + values.length < scene.thread.stack.limit) :
    push value setup (scene.holding values) = .ok () (scene.holding (values ++ [value])) := by
  have depth : (scene.thread.stack.slots ++ values.toArray).size =
      scene.thread.stack.depth + values.length := scene.depth_holding values
  have low : ¬ scene.thread.stack.limit ≤ (scene.thread.stack.slots ++ values.toArray).size := by
    omega
  refine onStack_eq_ok_iff.mpr ⟨_, if_neg low, ?_⟩
  unfold Scene.holding
  rw [← List.push_toArray, Array.append_push]

theorem forM_push_holding {values items : List Value}
    (room : scene.thread.stack.depth + values.length + items.length ≤ scene.thread.stack.limit) :
    (items.forM push : Step Unit) setup (scene.holding values) =
      .ok () (scene.holding (values ++ items)) := by
  induction items generalizing values with
  | nil =>
      rw [List.append_nil]
      rfl
  | cons item rest ih =>
      rw [List.length_cons] at room
      refine (bind_of_ok (push_holding item (by omega))).trans ?_
      rw [ih (by rw [List.length_append, List.length_singleton]; omega), List.append_assoc]
      rfl

theorem peek_holding {receiver : Value} {args : List Value} :
    onStack (Stack.peek args.length) setup (scene.holding (receiver :: args)) =
      .ok receiver (scene.holding (receiver :: args)) := by
  have size : (scene.thread.stack.slots ++ (receiver :: args).toArray).size =
      scene.thread.stack.slots.size + (args.length + 1) :=
    Array.size_append.trans (congrArg _ List.size_toArray)
  have there : (scene.thread.stack.slots ++ (receiver :: args).toArray)[
      (scene.thread.stack.slots ++ (receiver :: args).toArray).size - 1 - args.length]? =
      some receiver := by
    rw [size, Array.getElem?_append_right (by omega)]
    have place : scene.thread.stack.slots.size + (args.length + 1) - 1 - args.length -
        scene.thread.stack.slots.size = 0 := by omega
    rw [place]
    rfl
  refine onStack_eq_ok_iff.mpr ⟨_, ?_, rfl⟩
  unfold Scene.holding Stack.peek
  dsimp only
  rw [there]
  exact if_pos (by omega)

theorem memberClass_of_class? {value : Value} {id : ClassId} (classed : value.class? = some id)
    (member : String) : memberClass member value = pure id := by
  cases value with
  | object view object =>
      obtain rfl := Option.some.inj classed
      rfl
  | classRef other =>
      obtain rfl := Option.some.inj classed
      rfl
  | _ => cases classed

variable {receiver : Value} {args : List Value} {key : MethodKey}

theorem enterFrame_holding (arity : args.length = key.arity.toNat) (entry : MethodEntry)
    (address : Nat) (localCount : UInt16) :
    (∃ fault next, ∀ kind, enterFrame key entry address localCount kind scene.thread.ip setup
        (scene.holding (receiver :: args)) = .error fault next) ∨
      ∃ stack, scene.thread.calls.size < setup.limits.callDepth ∧
        Stack.reserve localCount.toNat (scene.holding (receiver :: args)).thread.stack =
          .ok () stack ∧
        ∀ kind, enterFrame key entry address localCount kind scene.thread.ip setup
            (scene.holding (receiver :: args)) =
          let start := scene.thread.entering key entry address stack
          .ok () { scene with thread := start.recast start.calls.size kind } := by
  let held := scene.holding (receiver :: args)
  have height : held.thread.stack.depth = scene.thread.stack.depth + (key.arity.toNat + 1) := by
    rw [← arity]
    exact scene.depth_holding _
  by_cases full : setup.limits.callDepth ≤ scene.thread.calls.size
  · refine .inl ⟨.callDepthExceeded setup.limits.callDepth, held, fun kind => ?_⟩
    rw [enterFrame_eq]
    exact if_pos full
  · have enough : ¬ held.thread.stack.depth < key.arity.toNat + 1 := by omega
    cases reserved : Stack.reserve localCount.toNat held.thread.stack with
    | error fault stack =>
        let call : CallRecord :=
          ⟨scene.thread.dp, scene.thread.ip, scene.thread.moduleId, scene.thread.frame⟩
        refine .inl ⟨fault, { held with thread := { held.thread with
          stack, calls := scene.thread.calls.push call } }, fun kind => ?_⟩
        rw [enterFrame_eq]
        exact (if_neg full).trans ((if_neg enough).trans (by rw [reserved]; rfl))
    | ok answer stack =>
        refine .inr ⟨stack, Nat.lt_of_not_le full, rfl, fun kind => ?_⟩
        have entered : (scene.thread.entering key entry address stack).recast _ kind = _ :=
          Thread.recast_entering kind
        dsimp only
        rw [enterFrame_eq, entered]
        refine (if_neg full).trans ((if_neg enough).trans ?_)
        rw [reserved, height, Nat.add_sub_cancel]
        rfl

theorem enterMethod_holding (arity : args.length = key.arity.toNat) (info : ClassDef)
    (entry : MethodEntry) :
    (∃ result : EStateM.Result Fault Scene Unit,
        (∀ kind, enterMethod key kind info receiver entry setup
          (scene.holding (receiver :: args)) = result) ∧
        ∀ answer next, result = .ok answer next →
          next.thread.registers = scene.thread.registers) ∨
      ∃ address localCount stack, entry.body = .bytecode address localCount ∧
        scene.thread.calls.size < setup.limits.callDepth ∧
        Stack.reserve localCount.toNat (scene.holding (receiver :: args)).thread.stack =
          .ok () stack ∧
        ∀ kind, enterMethod key kind info receiver entry setup
            (scene.holding (receiver :: args)) =
          let start := scene.thread.entering key entry address stack
          .ok () { scene with thread := start.recast start.calls.size kind } := by
  cases body : entry.body with
  | native =>
      refine .inl ⟨callNative info receiver key setup (scene.holding (receiver :: args)),
        fun kind => ?_, fun answer next h => ?_⟩
      · unfold enterMethod
        rw [body]
      · have same := ClassDef.Similar.refl Eq (fun _ => rfl) info
        exact (rests (fun _ _ => .of_callNative same _ _) h).registers
  | bytecode address localCount =>
      have enters (kind : FrameKind) : enterMethod key kind info receiver entry setup
          (scene.holding (receiver :: args)) =
          enterFrame key entry address localCount kind scene.thread.ip setup
            (scene.holding (receiver :: args)) := by
        unfold enterMethod
        rw [body]
        rfl
      rcases enterFrame_holding arity entry address localCount with
        ⟨fault, next, fails⟩ | ⟨stack, room, reserved, ends⟩
      · exact .inl ⟨.error fault next, fun kind => (enters kind).trans (fails kind), nofun⟩
      · exact .inr ⟨address, localCount, stack, rfl, room, reserved,
          fun kind => (enters kind).trans (ends kind)⟩

theorem callMethod_finds {id : ClassId} (classed : receiver.class? = some id)
    (arity : args.length = key.arity.toNat) :
    (∃ fault, ∀ kind, callMethod key kind setup (scene.holding (receiver :: args)) =
        .error fault (scene.holding (receiver :: args))) ∨
      ∃ entry, (setup.program.catalog.get id).method? key = some entry ∧
        ∀ kind, callMethod key kind setup (scene.holding (receiver :: args)) =
          enterMethod key (callKind setup.program.symbols key kind)
            (setup.program.catalog.get id) receiver entry setup
            (scene.holding (receiver :: args)) := by
  let info := setup.program.catalog.get id
  have finds {following : Value → ClassId → Step Unit} :
      (onStack (Stack.peek key.arity.toNat) >>= fun receiver =>
        memberClass (setup.program.symbols.signature key) receiver >>= following receiver) setup
          (scene.holding (receiver :: args)) =
        following receiver id setup (scene.holding (receiver :: args)) := by
    rw [← arity, bind_of_ok peek_holding, memberClass_of_class? classed]
    rfl
  cases found : info.method? key with
  | none =>
      refine .inl ⟨.unknownMethod info.qualified (setup.program.symbols.name key.name) key.arity,
        fun kind => finds.trans ?_⟩
      rw [found]
      rfl
  | some entry =>
      cases receiver with
      | object view object =>
          refine .inr ⟨entry, rfl, fun kind => finds.trans ?_⟩
          rw [found]
      | classRef other =>
          cases static : entry.isStatic with
          | true =>
              refine .inr ⟨entry, rfl, fun kind => finds.trans ?_⟩
              rw [found]
              dsimp only
              rw [static]
          | false =>
              refine .inl ⟨.notStatic info.qualified (setup.program.symbols.signature key),
                fun kind => finds.trans ?_⟩
              rw [found]
              dsimp only
              rw [static]
              rfl
      | _ => cases classed

/-- What a call of a method comes to does not depend on the kind of the frame either. -/
theorem callMethod_holding {id : ClassId} (classed : receiver.class? = some id)
    (arity : args.length = key.arity.toNat) :
    (∃ result : EStateM.Result Fault Scene Unit,
        (∀ kind, callMethod key kind setup (scene.holding (receiver :: args)) = result) ∧
          ∀ answer next, result = .ok answer next →
            next.thread.registers = scene.thread.registers) ∨
      ∃ entry address localCount stack,
        (setup.program.catalog.get id).method? key = some entry ∧
        entry.body = .bytecode address localCount ∧
        scene.thread.calls.size < setup.limits.callDepth ∧
        Stack.reserve localCount.toNat (scene.holding (receiver :: args)).thread.stack =
          .ok () stack ∧
        ∀ kind, callMethod key kind setup (scene.holding (receiver :: args)) =
          let start := scene.thread.entering key entry address stack
          let kind := callKind setup.program.symbols key kind
          .ok () { scene with thread := start.recast start.calls.size kind } := by
  rcases callMethod_finds classed arity with ⟨fault, fails⟩ | ⟨entry, found, enters⟩
  · exact .inl ⟨_, fails, nofun⟩
  · rcases enterMethod_holding arity (setup.program.catalog.get id) entry with
      ⟨result, same, stays⟩ | ⟨address, localCount, stack, body, room, reserved, ends⟩
    · exact .inl ⟨result, fun kind => (enters kind).trans (same _), stays⟩
    · exact .inr ⟨entry, address, localCount, stack, found, body, room, reserved,
        fun kind => (enters kind).trans (ends _)⟩

/-- Once the name is looked up and the arguments are taken out of their array, a method that is
invoked is called. -/
theorem invoke_holding {id : ClassId} {array : ArrayId} {name : String}
    (classed : receiver.class? = some id) (arity : args.length = key.arity.toNat)
    (named : setup.program.symbols.find? name = some key.name)
    (items : scene.world.store.heap.items array = args.toArray)
    (room : scene.thread.stack.depth + args.length < scene.thread.stack.limit) :
    invoke setup (scene.holding [receiver, .text name, .array array]) =
      callMethod key .invoke setup (scene.holding (receiver :: args)) := by
  have takesArray : pop setup (scene.holding [receiver, .text name, .array array]) =
      .ok (.array array) (scene.holding [receiver, .text name]) :=
    pop_holding [receiver, .text name] _
  have takesName : pop setup (scene.holding [receiver, .text name]) =
      .ok (.text name) (scene.holding [receiver]) := pop_holding [receiver] _
  have takesReceiver : pop setup (scene.holding [receiver]) = .ok receiver scene :=
    (pop_holding [] receiver).trans (by rw [scene.holding_nil])
  have puts : push receiver setup scene = .ok () (scene.holding [receiver]) := by
    have puts : push receiver setup (scene.holding []) = _ :=
      push_holding receiver (by rw [List.length_nil]; omega)
    rwa [scene.holding_nil] at puts
  have putsAll : ((args.toArray).forM push : Step Unit) setup (scene.holding [receiver]) =
      .ok () (scene.holding (receiver :: args)) := by
    rw [Array.forM_eq_forM, List.forM_toArray]
    refine forM_push_holding ?_
    rw [List.length_singleton]
    omega
  have few : ¬ 65535 < args.toArray.size := by
    have := key.arity.toNat_lt
    rw [List.size_toArray]
    omega
  have same : MethodKey.mk key.name (UInt16.ofNat args.toArray.size) = key := by
    rw [List.size_toArray, arity, UInt16.ofNat_toNat]
  unfold invoke
  rw [bind_of_ok takesArray, bind_of_ok takesName, bind_of_ok takesReceiver]
  change (memberClass "invoke" receiver >>= _) setup scene = _
  rw [items, memberClass_of_class? classed]
  change (ite (65535 < args.toArray.size) _ _ : Step Unit) setup scene = _
  rw [if_neg few, named]
  dsimp only
  rw [bind_of_ok puts, bind_of_ok putsAll, same]

theorem call_holding {index : UInt32} {values : List Value}
    (called : (setup.program.moduleOf scene.thread.moduleId).methodCall index = .ok key) :
    call index setup (scene.holding values) =
      callMethod key .normal setup (scene.holding values) := by
  change (require ((setup.program.moduleOf scene.thread.moduleId).methodCall index) >>= _) setup _ =
    _
  rw [called]
  rfl

end Step

/-! ## The two ways to enter a method -/

/-- Whether an instruction `call` and an instruction `invoke` are about the same method, with the
same arguments and room for them. -/
structure Corresponds (setup : Setup) (scene : Scene) (args : List Value) (array : ArrayId)
    (key : MethodKey) (calling invoking : Instruction) : Prop where
  calls : calling.opcode = .call
  called : (setup.program.moduleOf scene.thread.moduleId).methodCall calling.index = .ok key
  invokes : invoking.opcode = .invoke
  items : scene.world.store.heap.items array = args.toArray
  arity : args.length = key.arity.toNat
  room : scene.thread.stack.depth + args.length < scene.thread.stack.limit

theorem ReturnForm.leaves_called (form : ReturnForm) (symbols : SymbolTable) (key : MethodKey)
    (first : Option Value) :
    form.leaves (Step.callKind symbols key .normal) first =
      if symbols.name key.name = constructorName then first.toList
      else if form = .void then [] else form.leaves .invoke first := by
  change form.leaves (ite _ _ _) first = _
  by_cases constructs : symbols.name key.name = constructorName
  · rw [if_pos constructs, if_pos constructs]
    rfl
  · rw [if_neg constructs, if_neg constructs]
    cases form <;> rfl

/-- A method does the same whether it is called or invoked, and leaves the same unless it is a
constructor or returns nothing. A call finds it in the tables of the module, an invocation by its
name and by the number of its arguments. A native method ends at once, and what cannot be called
fails in the same way. A method of bytecode is entered with the same frame but for the kind of that,
and each visit of it is the same but for what the return leaves. After a call a constructor leaves
what it has in place of its receiver, and another method that returns nothing leaves nothing. After
an invocation a constructor leaves what any method does. What a thread of a run does in a method,
whatever other threads do meanwhile, is such a visit. -/
theorem invoke_agrees_with_call {facades : List Facade} {optimize : Bool}
    {units : List LoadedUnit} {setup : Setup}
    (linked : Program.link facades optimize units = .ok setup.program) {scene : Scene}
    (framed : scene.thread.registers.Framed) {receiver : Value} {id : ClassId}
    (classed : receiver.class? = some id) {args : List Value} {array : ArrayId} {key : MethodKey}
    {calling invoking : Instruction}
    (same : Corresponds setup scene args array key calling invoking) :
    let symbols := setup.program.symbols
    let name := symbols.name key.name
    let called := Step.execute calling setup (scene.holding (receiver :: args))
    let invoked :=
      Step.execute invoking setup (scene.holding [receiver, .text name, .array array])
    ((called = invoked ∧ ∀ signal next, called = .ok signal next →
          next.thread.registers = scene.thread.registers) ∨
        ∃ entry address localCount stack,
          (setup.program.catalog.get id).method? key = some entry ∧
          entry.body = .bytecode address localCount ∧
          Stack.reserve localCount.toNat (scene.holding (receiver :: args)).thread.stack =
            .ok () stack ∧
          let start := scene.thread.entering key entry address stack
          let entered (kind : FrameKind) : Scene :=
            { scene with thread := start.recast start.calls.size kind }
          called = .ok .proceed (entered (Step.callKind symbols key .normal)) ∧
            invoked = .ok .proceed (entered .invoke) ∧ start.Interchangeable setup) ∧
      (∀ form first,
        ReturnForm.leaves form (Step.callKind symbols key .normal) first =
            (if name = constructorName then first.toList
            else if form = .void then [] else form.leaves .invoke first) ∧
          ReturnForm.leaves form .invoke first =
            match form with
            | .void => [.null]
            | .value result => [result]
            | .constructor => first.toList) ∧
      ∀ (first machine : Machine) (start thread returner : Thread) (between : List Act) (back : Act)
        (form : ReturnForm) (kind : FrameKind),
        Machine.Reachable setup first →
        Machine.Course setup first start (between ++ [back]) machine thread →
        (∀ act ∈ between, start.calls.size ≤ act.after.calls.size) →
        back.before.returned? back.instruction = some (returner, form) →
        back.after.calls.size < start.calls.size → start.frame ≠ .entry →
        start.dp < start.stack.limit →
        back.after.stack = returner.stack.returned start.frame.kind form start.dp ∧
          ∃ within inner last other,
            Visit setup (start.recast start.calls.size kind) within inner last other form ∧
            within.map (·.instruction) = between.map (·.instruction) ∧
            last.instruction = back.instruction ∧
            last.after =
              { back.after with stack := returner.stack.returned kind form start.dp } := by
  intro symbols name called invoked
  let held := scene.holding (receiver :: args)
  have calls : called =
      (do Step.callMethod key .normal; pure .proceed : Step Signal) setup held := by
    have named : Step.call calling.index setup held = _ := Step.call_holding same.called
    unfold called Step.execute
    rw [same.calls]
    exact Step.bind_congr_left named
  have invokes : invoked =
      (do Step.callMethod key .invoke; pure .proceed : Step Signal) setup held := by
    have named := Program.find?_name_of_link linked same.called
    unfold invoked Step.execute
    rw [same.invokes]
    exact Step.bind_congr_left
      (Step.invoke_holding classed same.arity named same.items same.room)
  refine ⟨?_, fun form first => ⟨form.leaves_called symbols key first, by cases form <;> rfl⟩,
    fun first machine start thread returner between back form kind reachable course stays returns
      leaves method room =>
        course.recast_visit reachable stays returns leaves method room kind⟩
  rcases Step.callMethod_holding classed same.arity with
    ⟨result, alike, stays⟩ | ⟨entry, address, localCount, stack, found, body, room, reserved, ends⟩
  · refine .inl ⟨?_, fun signal next h => ?_⟩
    · rw [calls, invokes]
      exact Step.bind_congr_left ((alike .normal).trans (alike .invoke).symm)
    · obtain ⟨answer, middle, ran, asked⟩ := Step.bind_eq_ok_iff.mp (calls.symm.trans h)
      obtain ⟨-, rfl⟩ := Step.pure_eq_ok_iff.mp asked
      exact stays answer middle ((alike .normal).symm.trans ran)
  · refine .inr ⟨entry, address, localCount, stack, found, body, reserved, ?_, ?_, ?_⟩
    · exact calls.trans ((Step.bind_of_ok (ends .normal)).trans rfl)
    · exact invokes.trans ((Step.bind_of_ok (ends .invoke)).trans rfl)
    · have enters : scene.thread.Enters setup scene.thread.ip _ :=
        .intro .normal scene.thread.stack.depth found body room
      have limit : stack.limit = scene.thread.stack.limit := (Stack.reserve_eq_ok reserved).1.limit
      refine Thread.interchangeable (enters.framed framed) nofun ?_
      change scene.thread.stack.depth < stack.limit
      have := same.room
      omega

/-- A module whose main method makes an object and invokes its constructor. That returns nothing. -/
def invocationUnits : List LoadedUnit :=
  let app : List MetaRecord := [
    .moduleHeader "app" 1 0 1 1,
    .classHeader ⟨"Main", "", 0, 0, 2, .plain⟩,
    .method ⟨"main", 1, 0, true, 0, 0, true⟩,
    .method ⟨constructorName, 2, 11, false, 1, 0, false⟩,
    .string 1 constructorName true,
    .classRef "Main" 1,
    .methodCall constructorName 1 1,
    .finish]
  let code : Bytes := [
    0x22, 1,     -- new
    0x10, 1,     -- pushstring
    0x07, 5,     -- pushbyte
    0x84, 1, 0,  -- makearray
    0xa5,        -- invoke
    0x32,        -- retval
    0x31]        -- ret, in the constructor
  [⟨MetaRecord.encodeAll app, code⟩] |>.filterMap LoadedUnit.verified?

/-- Whether a machine invokes the constructor of its object, which lies above two other values with
the name and the arguments. -/
def invokesConstructor (program : Program) (machine : Machine) : Bool :=
  (machine.executes? ⟨program, {}⟩).any fun (invoking, scene, signal, next) =>
    let base : Scene :=
      { scene with thread := { scene.thread with stack := scene.thread.stack.truncate 2 } }
    match (program.moduleOf base.thread.moduleId).methodCall 1 with
    | .ok key => decide (scene = base.holding [.object ⟨0⟩ ⟨0⟩,
          .text (program.symbols.name key.name), .array ⟨1⟩] ∧ signal = .proceed ∧
        invoking.opcode = .invoke ∧ base.world.store.heap.items ⟨1⟩ = #[.byte 5] ∧
        key.arity = 1 ∧ base.thread.stack.depth + 1 < base.thread.stack.limit ∧
        Step.callKind program.symbols key .normal = .constructor ∧
        next.thread.calls.size ≠ base.thread.calls.size)
    | .error _ => false

theorem exists_invocation :
    ∃ program machine base receiver args array key invoking next,
      Program.link [] true invocationUnits = .ok program ∧
      Machine.Reachable ⟨program, {}⟩ machine ∧
      machine.Executes ⟨program, {}⟩ invoking
        (base.holding [receiver, .text (program.symbols.name key.name), .array array]) .proceed
        next ∧
      base.thread.registers.Framed ∧ receiver.class? = some ⟨0⟩ ∧
      Corresponds ⟨program, {}⟩ base args array key
        { invoking with opcode := .call, operand := .index 1 } invoking ∧
      Step.callKind program.symbols key .normal = .constructor ∧
      next.thread.calls.size ≠ base.thread.calls.size := by
  have happens : (Program.link [] true invocationUnits).toOption.any (fun program =>
      reachesSatisfying ⟨program, {}⟩ 6 (invokesConstructor program)) = true := by
    decide +kernel
  cases linked : Program.link [] true invocationUnits with
  | error _ =>
      rw [linked] at happens
      cases happens
  | ok program =>
      rw [linked] at happens
      obtain ⟨machine, reachable, found⟩ := exists_of_reachesSatisfying happens
      obtain ⟨⟨invoking, scene, signal, next⟩, executed, holds⟩ :=
        (Option.any_eq_true _ _).mp found
      have executes := Machine.executes?_eq_some_iff.mp executed
      have framed := executes.framed reachable
      dsimp only at holds
      split at holds
      · next key called =>
          obtain ⟨held, rfl, invokes, items, arity, room, kind, enters⟩ := of_decide_eq_true holds
          rw [held] at executes
          exact ⟨program, machine, _, _, [.byte 5], _, key, invoking, next, rfl, reachable,
            executes, framed, rfl, ⟨rfl, called, invokes, items, by rw [arity]; rfl, room⟩, kind,
            enters⟩
      · cases holds

/-- The invocation of the constructor, and a call of it in its stead. -/
theorem invoke_agrees_with_call_invocationUnits :
    ∃ program machine base receiver args array key calling invoking next,
      Program.link [] true invocationUnits = .ok program ∧
      Machine.Reachable ⟨program, {}⟩ machine ∧
      machine.Executes ⟨program, {}⟩ invoking
        (base.holding [receiver, .text (program.symbols.name key.name), .array array]) .proceed
        next ∧
      Corresponds ⟨program, {}⟩ base args array key calling invoking ∧
      ∃ start : Thread,
        next = { base with thread := start.recast start.calls.size .invoke } ∧
        Step.execute calling ⟨program, {}⟩ (base.holding (receiver :: args)) =
          .ok .proceed { base with thread := start.recast start.calls.size .constructor } ∧
        start.Interchangeable ⟨program, {}⟩ := by
  obtain ⟨program, machine, base, receiver, args, array, key, invoking, next, linked, reachable,
    executes, framed, classed, same, constructs, enters⟩ := exists_invocation
  refine ⟨program, machine, base, receiver, args, array, key, _, invoking, next, linked, reachable,
    executes, same, ?_⟩
  obtain ⟨⟨alike, stays⟩ | ⟨entry, address, localCount, stack, -, -, -, calls, invokes, visits⟩,
    -⟩ := invoke_agrees_with_call linked framed classed same
  · -- The machine enters the constructor, so it is not a native method.
    have kept := stays _ _ (alike.trans executes.execute)
    exact absurd (congrArg (·.calls.size) kept) enters
  · rw [constructs] at calls
    have ends := EStateM.Result.ok.inj (executes.execute.symm.trans invokes)
    exact ⟨_, ends.2, calls, visits⟩

/-- Whether a call of a constructor and the return from it leave something else than the receiver,
although that is still in its place when the constructor returns. -/
def losesReceiver (program : Program) : List Act → Bool
  | [call, back] =>
    match call.after.frame, back.before.returned? back.instruction with
    | .method _ key _, some (returner, _) =>
      decide (call.Encloses [] back ∧ program.symbols.name key.name = constructorName ∧
        returner.stack.get? call.after.dp = call.after.stack.get? call.after.dp ∧
        back.after.stack.get? call.after.dp ≠ call.after.stack.get? call.after.dp)
    | _, _ => false
  | _ => false

/-- A constructor that is invoked does not always leave its receiver, although it has that to the
last. -/
theorem constructor_loses_receiver :
    ¬ ∀ (facades : List Facade) (optimize : Bool) (units : List LoadedUnit) (program : Program)
      (limits : Limits) (first machine : Machine) (start thread returner : Thread)
      (call back : Act) (between : List Act) (form : ReturnForm) (declaring : ClassId)
      (key : MethodKey) (kind : FrameKind),
      Program.link facades optimize units = .ok program →
      Machine.Reachable ⟨program, limits⟩ first →
      Machine.Course ⟨program, limits⟩ first start (call :: between ++ [back]) machine thread →
      call.Encloses between back → call.after.frame = .method declaring key kind →
      program.symbols.name key.name = constructorName →
      back.before.returned? back.instruction = some (returner, form) →
      returner.stack.get? call.after.dp = call.after.stack.get? call.after.dp →
      back.after.stack.get? call.after.dp = call.after.stack.get? call.after.dp := by
  intro keeps
  have happens : Program.actsSatisfying invocationUnits 6 2 losesReceiver = true := by
    decide +kernel
  obtain ⟨program, first, middle, machine, acts, linked, start, reached, course, -, holds⟩ :=
    Program.exists_of_actsSatisfying happens
  unfold losesReceiver at holds
  split at holds
  · next call back =>
      split at holds
      · next declaring key kind returner form entered returns =>
          obtain ⟨encloses, constructs, has, loses⟩ := of_decide_eq_true holds
          exact loses (keeps [] true _ program {} middle machine _ _ returner call back [] form
            declaring key kind linked (.of_advance (start ▸ reached)) course encloses entered
            constructs returns has)
      · cases holds
  · cases holds

end ObjectMachine
