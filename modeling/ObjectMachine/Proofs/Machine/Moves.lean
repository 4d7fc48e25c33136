import ObjectMachine.Proofs.Machine.Registers

/-!
# The moves of each instruction

Executing an instruction makes of the registers what is said of its opcode. The proofs follow the
instruction part by part; a part that looks at no address leaves the registers as they are.
-/

namespace ObjectMachine

namespace Step

variable {setup : Setup} {scene next : Scene}

/-! ## Returns and throws -/

theorem returnFrom_returns {form : ReturnForm} {signal : Signal}
    (h : returnFrom form setup scene = .ok signal next) :
    next.thread.id = scene.thread.id ∧ scene.thread.Returns form next.thread.registers signal := by
  obtain ⟨_, _, hi, h⟩ := bind_eq_ok_iff.mp h
  obtain ⟨rfl, rfl⟩ := ofThread_eq_ok_iff.mp hi
  split at h
  · next intercepted =>
      obtain ⟨_, _, ht, h⟩ := bind_eq_ok_iff.mp h
      obtain rfl := onThread_eq_ok_iff.mp ht
      obtain ⟨rfl, rfl⟩ := pure_eq_ok_iff.mp h
      refine ⟨?_, .deferred intercepted⟩
      unfold Thread.enterFinally
      split <;> rfl
  · next free =>
      have free : scene.thread.interceptor? = none := by simpa using free
      obtain ⟨_, _, hc, h⟩ := bind_eq_ok_iff.mp h
      obtain ⟨rfl, rfl⟩ := ofThread_eq_ok_iff.mp hc
      cases top : scene.thread.calls.back? with
      | none =>
          rw [top] at h
          obtain ⟨rfl, rfl⟩ := pure_eq_ok_iff.mp h
          exact ⟨rfl, .left free top⟩
      | some call =>
          rw [top] at h
          obtain ⟨_, _, hf, h⟩ := bind_eq_ok_iff.mp h
          obtain ⟨rfl, rfl⟩ := ofThread_eq_ok_iff.mp hf
          obtain ⟨_, _, hd, h⟩ := bind_eq_ok_iff.mp h
          obtain ⟨rfl, rfl⟩ := ofThread_eq_ok_iff.mp hd
          obtain ⟨_, _, hp, h⟩ := bind_eq_ok_iff.mp h
          obtain rfl := onThread_eq_ok_iff.mp hp
          obtain ⟨_, _, hl, h⟩ := bind_eq_ok_iff.mp h
          have left := rests (fun _ _ => .of_leaveFrame _ _ _) hl
          obtain ⟨_, _, hr, h⟩ := bind_eq_ok_iff.mp h
          obtain rfl := onThread_eq_ok_iff.mp hr
          obtain ⟨rfl, rfl⟩ := pure_eq_ok_iff.mp h
          refine ⟨left.id, ?_⟩
          rw [Thread.restore_congr left.registers]
          exact .popped free top

theorem raise_raises {exception : Value} {answer : Unit}
    (h : raise exception setup scene = .ok answer next) :
    next.thread.id = scene.thread.id ∧ scene.thread.Raises exception next.thread.registers := by
  obtain ⟨_, _, hd, h⟩ := bind_eq_ok_iff.mp h
  obtain rfl := onThread_eq_ok_iff.mp hd
  obtain ⟨_, _, hh, h⟩ := bind_eq_ok_iff.mp h
  obtain ⟨rfl, rfl⟩ := ofThread_eq_ok_iff.mp hh
  dsimp only at h
  cases found : scene.thread.handlers.dropWhile (·.phase.isInFinally) with
  | nil =>
      rw [found] at h
      obtain ⟨_, _, _, h⟩ := bind_eq_ok_iff.mp h
      exact absurd h throw_ne_ok
  | cons record outer =>
      rw [found] at h
      obtain ⟨_, _, hr, h⟩ := bind_eq_ok_iff.mp h
      obtain rfl := onThread_eq_ok_iff.mp hr
      have passes (other : record.phase = .inTry → record.onCatch = none)
          (h : onThread (·.enterFinally (.rethrow exception)) setup
            { scene with thread :=
              ({ scene.thread with handlers := record :: outer }.rewind record) } =
                .ok answer next) :
          next.thread.id = scene.thread.id ∧
            scene.thread.Raises exception next.thread.registers := by
        obtain rfl := onThread_eq_ok_iff.mp h
        exact ⟨rfl, .passed found other⟩
      obtain ⟨start, onCatch, onFinally, phase, moduleId, callDepth, dp, stackDepth⟩ := record
      cases phase with
      | inTry =>
          cases onCatch with
          | none => exact passes (fun _ => rfl) (found ▸ h)
          | some onCatch =>
              obtain ⟨_, _, hc, h⟩ := bind_eq_ok_iff.mp h
              obtain rfl := onThread_eq_ok_iff.mp hc
              obtain ⟨_, _, hp, h⟩ := bind_eq_ok_iff.mp h
              have pushed := rests (fun _ _ => .of_push exception) hp
              obtain rfl := onThread_eq_ok_iff.mp h
              refine ⟨pushed.id, ?_⟩
              have moved := Thread.withIp_congr pushed.registers onCatch
              exact (congrArg (scene.thread.Raises exception) moved).mpr (.caught found rfl rfl)
      | inCatch _ => exact passes nofun (found ▸ h)
      | inFinally _ => exact passes nofun (found ▸ h)

/-! ## Calls -/

/-- What entering a frame makes of the scene. -/
theorem enterFrame_eq_ok {key : MethodKey} {entry : MethodEntry} {address : Nat}
    {localCount : UInt16} {kind : FrameKind} {returnIp : Nat} {answer : Unit}
    (h : enterFrame key entry address localCount kind returnIp setup scene = .ok answer next) :
    scene.thread.calls.size < setup.limits.callDepth ∧
      key.arity.toNat + 1 ≤ scene.thread.stack.depth ∧
      ∃ stack, Stack.reserve localCount.toNat scene.thread.stack = .ok () stack ∧
        next = { scene with thread := { scene.thread with
          stack
          calls := scene.thread.calls.push
            ⟨scene.thread.dp, returnIp, scene.thread.moduleId, scene.thread.frame⟩
          dp := scene.thread.stack.depth - (key.arity.toNat + 1)
          ip := address
          moduleId := entry.moduleId
          frame := .method entry.declaring key kind } } := by
  obtain ⟨_, _, hs, h⟩ := bind_eq_ok_iff.mp h
  obtain ⟨rfl, rfl⟩ := read_eq_ok_iff.mp hs
  obtain ⟨_, _, hc, h⟩ := bind_eq_ok_iff.mp h
  obtain ⟨rfl, rfl⟩ := ofThread_eq_ok_iff.mp hc
  dsimp only at h
  by_cases full : setup.limits.callDepth ≤ scene.thread.calls.size
  · rw [if_pos full] at h
    exact absurd h throw_bind_ne_ok
  · rw [if_neg full] at h
    obtain ⟨_, _, hd, h⟩ := bind_eq_ok_iff.mp h
    obtain ⟨rfl, rfl⟩ := ofThread_eq_ok_iff.mp hd
    by_cases short : scene.thread.stack.depth < key.arity.toNat + 1
    · rw [if_pos short] at h
      exact absurd h throw_bind_ne_ok
    · rw [if_neg short] at h
      obtain ⟨_, _, hp, h⟩ := bind_eq_ok_iff.mp h
      obtain rfl := onThread_eq_ok_iff.mp hp
      obtain ⟨_, _, hr, h⟩ := bind_eq_ok_iff.mp h
      obtain ⟨stack, reserved, rfl⟩ := onStack_eq_ok_iff.mp hr
      obtain rfl := onThread_eq_ok_iff.mp h
      exact ⟨Nat.lt_of_not_le full, Nat.le_of_not_lt short, stack, reserved, rfl⟩

theorem enterFrame_moves {key : MethodKey} {entry : MethodEntry} {address : Nat}
    {localCount : UInt16} {kind : FrameKind} {returnIp : Nat} {answer : Unit}
    (h : enterFrame key entry address localCount kind returnIp setup scene = .ok answer next) :
    next.thread.id = scene.thread.id ∧ scene.thread.calls.size < setup.limits.callDepth ∧
      ∃ dp, next.thread.registers =
        { calls := scene.thread.calls.push
            ⟨scene.thread.dp, returnIp, scene.thread.moduleId, scene.thread.frame⟩
          handlers := scene.thread.handlers
          dp
          ip := address
          moduleId := entry.moduleId
          frame := .method entry.declaring key kind } := by
  obtain ⟨room, -, stack, -, rfl⟩ := enterFrame_eq_ok h
  exact ⟨rfl, room, _, rfl⟩

/-- Whether a part of an instruction has left the registers alone or entered a method. -/
def Calls (setup : Setup) (returnIp : Nat) (scene next : Scene) : Prop :=
  next.thread.id = scene.thread.id ∧ (next.thread.registers = scene.thread.registers ∨
    scene.thread.Enters setup returnIp next.thread.registers)

theorem Calls.of_rests {returnIp : Nat} {middle : Scene} (found : middle.Rests scene)
    (h : Calls setup returnIp middle next) : Calls setup returnIp scene next := by
  refine ⟨h.1.trans found.id, h.2.imp ?_ ?_⟩
  · exact fun same => same.trans found.registers
  · exact fun enters => enters.congr found.registers

theorem enterMethod_moves {key : MethodKey} {kind : FrameKind} {id : ClassId} {receiver : Value}
    {entry : MethodEntry} (hm : (setup.program.catalog.get id).method? key = some entry)
    {answer : Unit}
    (h : enterMethod key kind (setup.program.catalog.get id) receiver entry setup scene =
      .ok answer next) : Calls setup scene.thread.ip scene next := by
  unfold enterMethod at h
  cases hb : entry.body with
  | native =>
      rw [hb] at h
      have same := ClassDef.Similar.refl Eq (fun _ => rfl) (setup.program.catalog.get id)
      have left := rests (fun _ _ => .of_callNative same _ _) h
      exact ⟨left.id, .inl left.registers⟩
  | bytecode address localCount =>
      rw [hb] at h
      obtain ⟨_, _, hi, h⟩ := bind_eq_ok_iff.mp h
      obtain ⟨rfl, rfl⟩ := ofThread_eq_ok_iff.mp hi
      obtain ⟨same, room, dp, moved⟩ := enterFrame_moves h
      exact ⟨same, .inr (moved ▸ .intro _ dp hm hb room)⟩

theorem callMethod_moves {key : MethodKey} {kind : FrameKind} {answer : Unit}
    (h : callMethod key kind setup scene = .ok answer next) :
    Calls setup scene.thread.ip scene next := by
  obtain ⟨_, _, hp, h⟩ := bind_eq_ok_iff.mp h
  obtain ⟨rfl, rfl⟩ := program_eq_ok_iff.mp hp
  obtain ⟨receiver, _, hr, h⟩ := bind_eq_ok_iff.mp h
  have peeked := rests (fun _ _ => .of_onStack _) hr
  obtain ⟨id, middle, hc, h⟩ := bind_eq_ok_iff.mp h
  have found := (rests (fun _ _ => .of_memberClass _ _) hc).trans peeked
  refine found.ip ▸ Calls.of_rests found ?_
  cases hm : (setup.program.catalog.get id).method? key with
  | none =>
      rw [hm] at h
      exact absurd h throw_ne_ok
  | some entry =>
      rw [hm] at h
      dsimp only at h
      cases receiver with
      | classRef id =>
          cases hs : entry.isStatic with
          | true =>
              rw [hs] at h
              exact enterMethod_moves hm h
          | false =>
              rw [hs] at h
              exact absurd h throw_ne_ok
      | _ => exact enterMethod_moves hm h

theorem call_moves {index : UInt32} {answer : Unit}
    (h : call index setup scene = .ok answer next) : Calls setup scene.thread.ip scene next := by
  obtain ⟨_, _, hm, h⟩ := bind_eq_ok_iff.mp h
  have looked := rests (fun _ _ => .of_moduleRecord) hm
  obtain ⟨_, _, hr, h⟩ := bind_eq_ok_iff.mp h
  have found := (rests (fun _ _ => .of_require _) hr).trans looked
  exact found.ip ▸ (callMethod_moves h).of_rests found

theorem initializerOf_eq_some {program : Program} {id : ClassId} {key : MethodKey}
    {entry : MethodEntry} {address : Nat} {localCount : UInt16}
    (h : initializerOf program id = some (key, entry, address, localCount)) :
    (program.catalog.get id).method? key = some entry ∧
      entry.body = .bytecode address localCount := by
  obtain ⟨name, -, h⟩ := Option.bind_eq_some_iff.mp h
  obtain ⟨found, method, h⟩ := Option.bind_eq_some_iff.mp h
  split at h
  · next there there' body =>
      split at h
      · obtain ⟨rfl, rfl, rfl, rfl⟩ := by simpa using h
        exact ⟨method, body⟩
      · cases h
  · cases h

theorem arity_of_initializerOf {program : Program} {id : ClassId} {key : MethodKey}
    {entry : MethodEntry} {address : Nat} {localCount : UInt16}
    (h : initializerOf program id = some (key, entry, address, localCount)) : key.arity = 0 := by
  obtain ⟨name, -, h⟩ := Option.bind_eq_some_iff.mp h
  obtain ⟨found, -, h⟩ := Option.bind_eq_some_iff.mp h
  split at h
  · split at h
    · obtain ⟨rfl, -⟩ := by simpa using h
      rfl
    · cases h
  · cases h

theorem invoke_moves {answer : Unit} (h : invoke setup scene = .ok answer next) :
    Calls setup scene.thread.ip scene next := by
  obtain ⟨args, _, ha, h⟩ := bind_eq_ok_iff.mp h
  have found := rests (fun _ _ => .of_pop) ha
  obtain ⟨name, _, hn, h⟩ := bind_eq_ok_iff.mp h
  have found := (rests (fun _ _ => .of_pop) hn).trans found
  obtain ⟨target, _, ht, h⟩ := bind_eq_ok_iff.mp h
  have found := (rests (fun _ _ => .of_pop) ht).trans found
  cases args with
  | array id =>
      obtain ⟨_, _, hh, h⟩ := bind_eq_ok_iff.mp h
      have found := (rests (fun _ _ => .of_heap) hh).trans found
      obtain ⟨_, _, hp, h⟩ := bind_eq_ok_iff.mp h
      obtain ⟨rfl, rfl⟩ := program_eq_ok_iff.mp hp
      obtain ⟨_, _, hc, h⟩ := bind_eq_ok_iff.mp h
      have found := (rests (fun _ _ => .of_memberClass _ _) hc).trans found
      obtain ⟨_, _, hm, h⟩ := bind_eq_ok_iff.mp h
      have found := (rests (fun _ _ => .of_memberName _ _) hm).trans found
      split at h
      · exact absurd h throw_bind_ne_ok
      · split at h
        · exact absurd h throw_ne_ok
        · obtain ⟨_, _, hp, h⟩ := bind_eq_ok_iff.mp h
          have found := (rests (fun _ _ => .of_push _) hp).trans found
          obtain ⟨_, _, hi, h⟩ := bind_eq_ok_iff.mp h
          have found := (rests (fun _ _ => .of_forM_array (fun _ => .of_push _) _) hi).trans found
          exact found.ip ▸ (callMethod_moves h).of_rests found
  | _ => exact absurd h throw_ne_ok

theorem initializeClass_moves {id : ClassId} {resumeIp : Nat} {entered : Bool}
    (h : initializeClass id resumeIp setup scene = .ok entered next) :
    Calls setup resumeIp scene next := by
  obtain ⟨_, _, hg, h⟩ := bind_eq_ok_iff.mp h
  obtain ⟨rfl, rfl⟩ := get_eq_ok_iff.mp hg
  split at h
  · obtain ⟨rfl, rfl⟩ := pure_eq_ok_iff.mp h
    exact ⟨rfl, .inl rfl⟩
  · obtain ⟨_, _, hp, h⟩ := bind_eq_ok_iff.mp h
    obtain ⟨rfl, rfl⟩ := program_eq_ok_iff.mp hp
    obtain ⟨_, _, hs, h⟩ := bind_eq_ok_iff.mp h
    have begun := rests (fun _ _ => .of_onStore _) hs
    obtain ⟨_, _, hc, h⟩ := bind_eq_ok_iff.mp h
    have same := ClassDef.Similar.refl Eq (fun _ => rfl) (setup.program.catalog.get id)
    have found := (rests (fun _ _ => .of_storeConstants id same) hc).trans begun
    cases hi : initializerOf setup.program id with
    | none =>
        rw [hi] at h
        obtain ⟨rfl, rfl⟩ := pure_eq_ok_iff.mp h
        exact ⟨found.id, .inl found.registers⟩
    | some initializer =>
        obtain ⟨key, entry, address, localCount⟩ := initializer
        rw [hi] at h
        obtain ⟨_, _, hv, h⟩ := bind_eq_ok_iff.mp h
        have found := (rests (fun _ _ => .of_push _) hv).trans found
        obtain ⟨_, _, he, h⟩ := bind_eq_ok_iff.mp h
        obtain ⟨rfl, rfl⟩ := pure_eq_ok_iff.mp h
        obtain ⟨same, room, dp, moved⟩ := enterFrame_moves he
        obtain ⟨method, body⟩ := initializerOf_eq_some hi
        exact Calls.of_rests found ⟨same, .inr (moved ▸ .intro _ dp method body room)⟩

theorem loadClass_moves {index : UInt32} {offset : Nat} {answer : Unit}
    (h : loadClass index offset setup scene = .ok answer next) : Calls setup offset scene next := by
  obtain ⟨_, _, hm, h⟩ := bind_eq_ok_iff.mp h
  have looked := rests (fun _ _ => .of_moduleRecord) hm
  obtain ⟨_, _, hr, h⟩ := bind_eq_ok_iff.mp h
  have found := (rests (fun _ _ => .of_require _) hr).trans looked
  obtain ⟨entered, _, hi, h⟩ := bind_eq_ok_iff.mp h
  have calls := (initializeClass_moves hi).of_rests found
  cases entered with
  | true =>
      obtain ⟨rfl, rfl⟩ := pure_eq_ok_iff.mp h
      exact calls
  | false =>
      have pushed := rests (fun _ _ => .of_push _) h
      exact ⟨pushed.id.trans calls.1, by rw [pushed.registers]; exact calls.2⟩

/-! ## Branches -/

theorem id_enterFinally (exit : ExitAction) (thread : Thread) :
    (thread.enterFinally exit).id = thread.id := by
  unfold Thread.enterFinally
  split <;> rfl

theorem id_branchTo (target : Nat) (thread : Thread) : (thread.branchTo target).id = thread.id := by
  unfold Thread.branchTo
  split
  · split
    · rfl
    · exact id_enterFinally _ _
  · rfl

theorem branched_congr {thread other : Thread} (h : other.registers = thread.registers)
    (target : Option Nat) :
    (other.branched target).registers = (thread.branched target).registers := by
  cases target with
  | none => exact h
  | some target => exact Thread.branchTo_congr h target

/-- Whether a part of an instruction has branched to an address, if there is one. -/
def Branches (target : Option Nat) (scene next : Scene) : Prop :=
  next.thread.id = scene.thread.id ∧
    next.thread.registers = (scene.thread.branched target).registers

theorem Branches.of_rests {target : Option Nat} {middle : Scene} (found : middle.Rests scene)
    (h : Branches target middle next) : Branches target scene next :=
  ⟨h.1.trans found.id, h.2.trans (branched_congr found.registers target)⟩

theorem jump_branches {target : Nat} {answer : Unit}
    (h : jump target setup scene = .ok answer next) : Branches (some target) scene next := by
  obtain rfl := onThread_eq_ok_iff.mp h
  exact ⟨id_branchTo _ _, rfl⟩

theorem stays_branches {answer : Unit} (h : (pure () : Step Unit) setup scene = .ok answer next) :
    Branches none scene next := by
  obtain ⟨rfl, rfl⟩ := pure_eq_ok_iff.mp h
  exact ⟨rfl, rfl⟩

theorem pop_eq_ok {value : Value} (h : pop setup scene = .ok value next) :
    next.Rests scene ∧ scene.thread.stack.slots.back? = some value ∧
      next.thread.stack.slots = scene.thread.stack.slots.pop := by
  unfold pop onStack Stack.pop at h
  dsimp only at h
  cases top : scene.thread.stack.slots.back? with
  | none =>
      rw [top] at h
      cases h
  | some found =>
      rw [top] at h
      cases h
      exact ⟨⟨rfl, rfl⟩, rfl, rfl⟩

theorem jumpIf_branches {opcode : Opcode} {wanted : Bool} {target : Nat} {answer : Unit}
    (h : jumpIf opcode wanted target setup scene = .ok answer next) :
    Branches (if scene.thread.condition? == some wanted then some target else none)
      scene next := by
  obtain ⟨value, _, hp, h⟩ := bind_eq_ok_iff.mp h
  obtain ⟨found, top, -⟩ := pop_eq_ok hp
  cases hv : value.asBool? with
  | none =>
      rw [hv] at h
      exact absurd h throw_ne_ok
  | some condition =>
      rw [hv] at h
      dsimp only at h
      have given : scene.thread.condition? = some condition := by
        rw [Thread.condition?, top, Option.bind_some, hv]
      have same : (scene.thread.condition? == some wanted) = (condition == wanted) := by
        rw [given]
        rfl
      rw [same]
      cases hw : condition == wanted with
      | true =>
          rw [hw] at h
          exact (jump_branches h).of_rests found
      | false =>
          rw [hw] at h
          exact (stays_branches h).of_rests found

theorem jumpIfCompare_branches {op : ComparisonOp} {target : Nat} {answer : Unit}
    (h : jumpIfCompare op target setup scene = .ok answer next) :
    Branches (if scene.thread.compares op then some target else none) scene next := by
  obtain ⟨b, middle, hb, h⟩ := bind_eq_ok_iff.mp h
  obtain ⟨found, upper, left⟩ := pop_eq_ok hb
  obtain ⟨a, _, ha, h⟩ := bind_eq_ok_iff.mp h
  obtain ⟨found', lower, -⟩ := pop_eq_ok ha
  obtain ⟨holds, _, hc, h⟩ := bind_eq_ok_iff.mp h
  rw [left] at lower
  have same : scene.thread.compares op = holds := by
    unfold Thread.compares
    rw [upper, lower]
    dsimp only
    cases compared : Value.comparison op a b with
    | error fault =>
        rw [compared] at hc
        exact absurd hc throw_ne_ok
    | ok found =>
        rw [compared] at hc
        exact (pure_eq_ok_iff.mp hc).1
  have found := (rests (fun _ _ => .of_require _) hc).trans (found'.trans found)
  rw [same]
  cases holds with
  | true => exact (jump_branches h).of_rests found
  | false => exact (stays_branches h).of_rests found

theorem jumpByCase_branches {instruction : Instruction} {answer : Unit}
    (h : jumpByCase instruction setup scene = .ok answer next) :
    Branches (scene.thread.selected? instruction) scene next := by
  obtain ⟨value, _, hp, h⟩ := bind_eq_ok_iff.mp h
  obtain ⟨found, top, -⟩ := pop_eq_ok hp
  unfold Thread.selected?
  rw [top, Option.bind_some]
  cases hv : value.asInteger? with
  | none =>
      rw [hv] at h
      exact absurd h throw_ne_ok
  | some number =>
      rw [hv] at h
      cases ho : instruction.operand with
      | table distances =>
          rw [ho] at h
          dsimp only at h ⊢
          split at h
          · next inside =>
              rw [if_pos inside]
              cases hd : distances[number.toInt.toNat]? with
              | none =>
                  rw [hd] at h
                  exact (stays_branches h).of_rests found
              | some distance =>
                  rw [hd] at h
                  exact (jump_branches h).of_rests found
          · next outside =>
              rw [if_neg outside]
              exact (stays_branches h).of_rests found
      | _ =>
          rw [ho] at h
          exact (stays_branches h).of_rests found

/-! ## Finally bodies -/

theorem carryOut_moves {exit : ExitAction} {signal : Signal}
    (h : carryOut exit setup scene = .ok signal next) :
    next.thread.id = scene.thread.id ∧
      scene.thread.CarriesOut exit next.thread.registers signal := by
  cases exit with
  | fallThrough =>
      obtain ⟨rfl, rfl⟩ := pure_eq_ok_iff.mp h
      exact ⟨rfl, rfl, rfl⟩
  | ret => exact returnFrom_returns h
  | retValue value => exact returnFrom_returns h
  | retConstructor => exact returnFrom_returns h
  | branch target =>
      obtain ⟨_, _, hj, h⟩ := bind_eq_ok_iff.mp h
      obtain ⟨rfl, rfl⟩ := pure_eq_ok_iff.mp h
      obtain ⟨same, moved⟩ := jump_branches hj
      exact ⟨same, moved, rfl⟩
  | rethrow exception =>
      obtain ⟨_, _, hr, h⟩ := bind_eq_ok_iff.mp h
      obtain ⟨rfl, rfl⟩ := pure_eq_ok_iff.mp h
      obtain ⟨same, raises⟩ := raise_raises hr
      exact ⟨same, raises, rfl⟩

theorem currentPhase_eq_ok {phase : Option TryPhase}
    (h : currentPhase setup scene = .ok phase next) :
    scene.thread.currentTry?.map (·.phase) = phase ∧ scene = next :=
  ofThread_eq_ok_iff.mp h

theorem leaveTry_moves {answer : Unit} (h : leaveTry setup scene = .ok answer next) :
    next.thread.id = scene.thread.id ∧ ∃ record, scene.thread.currentTry? = some record ∧
      record.intercepts ∧
      next.thread.registers = (scene.thread.enterFinally .fallThrough).registers := by
  obtain ⟨phase, _, hp, h⟩ := bind_eq_ok_iff.mp h
  obtain ⟨current, rfl⟩ := currentPhase_eq_ok hp
  cases phase with
  | none => exact absurd h throw_ne_ok
  | some phase =>
      obtain ⟨record, found, same⟩ := Option.map_eq_some_iff.mp current
      cases phase with
      | inTry =>
          obtain rfl := onThread_eq_ok_iff.mp h
          refine ⟨id_enterFinally _ _, record, found, ?_, rfl⟩
          rw [TryRecord.intercepts, same]
      | _ => exact absurd h throw_ne_ok

theorem leaveCatch_moves {answer : Unit} (h : leaveCatch setup scene = .ok answer next) :
    next.thread.id = scene.thread.id ∧ ∃ record, scene.thread.currentTry? = some record ∧
      record.intercepts ∧
      next.thread.registers = (scene.thread.enterFinally .fallThrough).registers := by
  obtain ⟨phase, _, hp, h⟩ := bind_eq_ok_iff.mp h
  obtain ⟨current, rfl⟩ := currentPhase_eq_ok hp
  cases phase with
  | none => exact absurd h throw_ne_ok
  | some phase =>
      obtain ⟨record, found, same⟩ := Option.map_eq_some_iff.mp current
      cases phase with
      | inCatch exception =>
          obtain rfl := onThread_eq_ok_iff.mp h
          refine ⟨id_enterFinally _ _, record, found, ?_, rfl⟩
          rw [TryRecord.intercepts, same]
      | _ => exact absurd h throw_ne_ok

theorem reraise_moves {answer : Unit} (h : reraise setup scene = .ok answer next) :
    next.thread.id = scene.thread.id ∧ ∃ record exception,
      scene.thread.currentTry? = some record ∧ record.phase = .inCatch exception ∧
      next.thread.registers =
        ((scene.thread.rewind record).enterFinally (.rethrow exception)).registers := by
  obtain ⟨current, _, hc, h⟩ := bind_eq_ok_iff.mp h
  obtain ⟨found, rfl⟩ := ofThread_eq_ok_iff.mp hc
  cases current with
  | none => exact absurd h throw_ne_ok
  | some record =>
      dsimp only at h
      cases phase : record.phase with
      | inCatch exception =>
          rw [phase] at h
          obtain rfl := onThread_eq_ok_iff.mp h
          exact ⟨id_enterFinally _ _, record, exception, found, phase, rfl⟩
      | _ =>
          rw [phase] at h
          exact absurd h throw_ne_ok

theorem leaveFinally_moves {signal : Signal}
    (h : leaveFinally setup scene = .ok signal next) :
    next.thread.id = scene.thread.id ∧ ∃ record exit, scene.thread.currentTry? = some record ∧
      record.phase = .inFinally exit ∧
      Thread.CarriesOut { scene.thread with handlers := scene.thread.handlers.tail } exit
        next.thread.registers signal := by
  obtain ⟨phase, _, hp, h⟩ := bind_eq_ok_iff.mp h
  obtain ⟨current, rfl⟩ := currentPhase_eq_ok hp
  cases phase with
  | none => exact absurd h throw_ne_ok
  | some phase =>
      obtain ⟨record, found, same⟩ := Option.map_eq_some_iff.mp current
      cases phase with
      | inFinally exit =>
          obtain ⟨_, _, ht, h⟩ := bind_eq_ok_iff.mp h
          obtain rfl := onThread_eq_ok_iff.mp ht
          obtain ⟨id, moved⟩ := carryOut_moves h
          exact ⟨id, record, exit, found, same, moved⟩
      | _ => exact absurd h throw_ne_ok

/-! ## All instructions -/

/-- A part that asks nothing of the scheduler. -/
theorem proceed_eq_ok {step : Step Unit} {signal : Signal}
    (h : (do step; pure Signal.proceed : Step Signal) setup scene = .ok signal next) :
    ∃ answer, step setup scene = .ok answer next := by
  obtain ⟨answer, _, hs, h⟩ := bind_eq_ok_iff.mp h
  obtain ⟨-, rfl⟩ := pure_eq_ok_iff.mp h
  exact ⟨answer, hs⟩

/-- An instruction that looks at no address leaves the registers alone. -/
theorem execute_rests {instruction : Instruction} {signal : Signal}
    (still : instruction.opcode.movesRegisters = false)
    (h : execute instruction setup scene = .ok signal next) : next.Rests scene :=
  rests (fun _ _ => .of_execute rfl rfl still) h

theorem execute_moves {instruction : Instruction} {signal : Signal}
    (h : execute instruction setup scene = .ok signal next) :
    next.thread.id = scene.thread.id ∧
      scene.thread.Moves setup instruction next.thread.registers signal := by
  by_cases moves : instruction.opcode.movesRegisters = true
  · unfold execute at h
    unfold Thread.Moves
    cases hop : instruction.opcode with
    | jmp =>
        rw [hop] at h
        obtain ⟨_, h⟩ := proceed_eq_ok h
        obtain ⟨same, moved⟩ := jump_branches h
        rw [Thread.branch?, hop]
        exact ⟨same, moved⟩
    | jt | jf =>
        rw [hop] at h
        obtain ⟨_, h⟩ := proceed_eq_ok h
        obtain ⟨same, moved⟩ := jumpIf_branches h
        rw [Thread.branch?, hop]
        exact ⟨same, moved⟩
    | jce | jcne | jcl | jcle | jcg | jcge =>
        rw [hop] at h
        obtain ⟨_, h⟩ := proceed_eq_ok h
        obtain ⟨same, moved⟩ := jumpIfCompare_branches h
        rw [Thread.branch?, hop]
        exact ⟨same, moved⟩
    | caseOf =>
        rw [hop] at h
        obtain ⟨_, h⟩ := proceed_eq_ok h
        obtain ⟨same, moved⟩ := jumpByCase_branches h
        rw [Thread.branch?, hop]
        exact ⟨same, moved⟩
    | ret | retCtor =>
        rw [hop] at h
        exact returnFrom_returns h
    | retVal =>
        rw [hop] at h
        obtain ⟨value, _, hp, h⟩ := bind_eq_ok_iff.mp h
        have found := rests (fun _ _ => .of_pop) hp
        obtain ⟨same, returns⟩ := returnFrom_returns h
        exact ⟨same.trans found.id, value, returns.congr found.registers⟩
    | loadClass =>
        rw [hop] at h
        obtain ⟨_, h⟩ := proceed_eq_ok h
        exact loadClass_moves h
    | call =>
        rw [hop] at h
        obtain ⟨_, h⟩ := proceed_eq_ok h
        exact call_moves h
    | invoke =>
        rw [hop] at h
        obtain ⟨_, h⟩ := proceed_eq_ok h
        exact invoke_moves h
    | enterTry =>
        rw [hop] at h
        obtain ⟨_, h⟩ := proceed_eq_ok h
        rw [Thread.enterTry_eq_entered] at h
        obtain rfl := onThread_eq_ok_iff.mp h
        exact ⟨rfl, rfl⟩
    | leaveTry =>
        rw [hop] at h
        obtain ⟨_, h⟩ := proceed_eq_ok h
        exact leaveTry_moves h
    | leaveCatch =>
        rw [hop] at h
        obtain ⟨_, h⟩ := proceed_eq_ok h
        exact leaveCatch_moves h
    | leaveFinally =>
        rw [hop] at h
        exact leaveFinally_moves h
    | raise =>
        rw [hop] at h
        obtain ⟨exception, _, hp, h⟩ := bind_eq_ok_iff.mp h
        have found := rests (fun _ _ => .of_pop) hp
        obtain ⟨_, h⟩ := proceed_eq_ok h
        obtain ⟨same, raises⟩ := raise_raises h
        exact ⟨same.trans found.id, exception, raises.congr found.registers⟩
    | reraise =>
        rw [hop] at h
        obtain ⟨_, h⟩ := proceed_eq_ok h
        exact reraise_moves h
    | _ =>
        rw [hop] at moves
        cases moves
  · have still : instruction.opcode.movesRegisters = false := by simpa using moves
    have left := execute_rests still h
    refine ⟨left.id, ?_⟩
    unfold Thread.Moves
    cases hop : instruction.opcode <;> rw [hop] at still <;>
      first | exact left.registers | cases still

end Step

end ObjectMachine
