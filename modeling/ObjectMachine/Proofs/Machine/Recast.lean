import ObjectMachine.Proofs.Machine.Conventions

/-!
# Frames that have been entered otherwise

How a method has been entered is noted in its frame, and nothing but the return from that frame asks
for it. A thread and the same thread with one frame recast as one of another kind do the same as
long as the frame is there.
-/

namespace ObjectMachine

def Frame.asKind (kind : FrameKind) : Frame → Frame
  | .method declaring key _ => .method declaring key kind
  | .entry => .entry

@[simp]
theorem Frame.declaring?_asKind (frame : Frame) (kind : FrameKind) :
    (frame.asKind kind).declaring? = frame.declaring? := by
  cases frame <;> rfl

def CallRecord.asKind (kind : FrameKind) (call : CallRecord) : CallRecord :=
  { call with frame := call.frame.asKind kind }

namespace Thread

/-- The thread with the frame at a depth of its calls as if that had been entered otherwise. -/
def recast (depth : Nat) (kind : FrameKind) (thread : Thread) : Thread :=
  { thread with
    calls := thread.calls.modify depth (·.asKind kind)
    frame := if thread.calls.size = depth then thread.frame.asKind kind else thread.frame }

variable {thread other : Thread} {depth : Nat} {kind : FrameKind}

@[simp]
theorem size_recast : (thread.recast depth kind).calls.size = thread.calls.size :=
  Array.size_modify

theorem getElem?_recast (place : Nat) : (thread.recast depth kind).calls[place]? =
    thread.calls[place]?.map fun call =>
      if depth = place then call.asKind kind else call := by
  change (thread.calls.modify depth _)[place]? = _
  rw [Array.getElem?_modify]
  split
  · rfl
  · exact Option.map_id'.symm

/-- Two threads are the same if all frames and everything else of theirs is. -/
theorem ext_frames (rest : { other with calls := #[], frame := .entry } =
      { thread with calls := #[], frame := .entry })
    (calls : ∀ place : Nat, other.calls[place]? = thread.calls[place]?)
    (frame : other.frame = thread.frame) : other = thread := by
  have same : other.calls = thread.calls := Array.ext_getElem? calls
  cases thread
  cases other
  simp_all

/-- There is no frame beyond the current one. -/
theorem recast_of_lt (h : thread.calls.size < depth) : thread.recast depth kind = thread := by
  refine ext_frames rfl (fun place => ?_) (if_neg (Nat.ne_of_lt h))
  rw [getElem?_recast]
  cases there : thread.calls[place]? with
  | none => rfl
  | some call =>
      have inside := (Array.getElem?_eq_some_iff.mp there).1
      rw [Option.map_some, if_neg (by omega)]

theorem registers_recast_congr (h : other.registers = thread.registers) :
    (other.recast depth kind).registers = (thread.recast depth kind).registers := by
  rw [eq_of_registers h]
  rfl

@[simp]
theorem currentTry?_recast : (thread.recast depth kind).currentTry? = thread.currentTry? := by
  unfold currentTry?
  rw [size_recast]
  rfl

@[simp]
theorem interceptor?_recast : (thread.recast depth kind).interceptor? = thread.interceptor? :=
  congrArg (Option.filter TryRecord.intercepts) currentTry?_recast

@[simp]
theorem entered_recast (instruction : Instruction) :
    (thread.recast depth kind).entered instruction = thread.entered instruction := by
  unfold entered
  rw [size_recast]
  rfl

theorem enterFinally_recast (exit : ExitAction) :
    (thread.recast depth kind).enterFinally exit =
      (thread.enterFinally exit).recast depth kind := by
  obtain ⟨id, state, stack, calls, handlers, dp, ip, moduleId, frame⟩ := thread
  cases handlers <;> rfl

theorem branchTo_recast (target : Nat) :
    (thread.recast depth kind).branchTo target = (thread.branchTo target).recast depth kind := by
  unfold branchTo
  rw [interceptor?_recast]
  split
  · split
    · rfl
    · exact enterFinally_recast _
  · rfl

/-- A throw goes back to the frame at its depth. -/
theorem rewind_frame (thread : Thread) (record : TryRecord) : (thread.rewind record).frame =
    (thread.calls[record.callDepth]?.map (·.frame)).getD thread.frame := by
  unfold rewind
  cases thread.calls[record.callDepth]? <;> rfl

/-- A frame that a throw leaves takes its kind with it. -/
theorem rewind_recast (record : TryRecord) :
    (thread.recast depth kind).rewind record = (thread.rewind record).recast depth kind := by
  have left : (thread.rewind record).calls.size = min record.callDepth thread.calls.size :=
    Array.size_shrink
  refine ext_frames rfl (fun place => ?_) ?_
  · change ((thread.recast depth kind).calls.shrink record.callDepth)[place]? = _
    rw [getElem?_recast]
    change _ = (thread.calls.shrink record.callDepth)[place]?.map _
    rw [getElem?_shrink, getElem?_shrink, getElem?_recast]
    split <;> rfl
  · change ((thread.recast depth kind).rewind record).frame =
      if (thread.rewind record).calls.size = depth then (thread.rewind record).frame.asKind kind
      else (thread.rewind record).frame
    rw [left, rewind_frame, rewind_frame, getElem?_recast]
    cases there : thread.calls[record.callDepth]? with
    | none =>
        have outside := Array.getElem?_eq_none_iff.mp there
        rw [Nat.min_eq_right outside]
        rfl
    | some call =>
        have inside := (Array.getElem?_eq_some_iff.mp there).1
        rw [Nat.min_eq_left (Nat.le_of_lt inside)]
        dsimp only [Option.map_some, Option.getD_some]
        by_cases own : depth = record.callDepth
        · rw [if_pos own, if_pos own.symm]
          rfl
        · rw [if_neg own, if_neg (Ne.symm own)]

/-- A call keeps the frame that it is made in, of whichever kind. -/
theorem push_recast (dp returnIp : Nat) (moduleId : ModuleId) :
    (thread.recast depth kind).calls.push ⟨dp, returnIp, moduleId,
        (thread.recast depth kind).frame⟩ =
      (thread.calls.push ⟨dp, returnIp, moduleId, thread.frame⟩).modify depth (·.asKind kind) := by
  apply Array.ext_getElem?
  intro place
  rw [Array.getElem?_modify, Array.getElem?_push, Array.getElem?_push, size_recast,
    getElem?_recast]
  by_cases last : place = thread.calls.size
  · rw [if_pos last, if_pos last]
    unfold recast
    by_cases own : thread.calls.size = depth
    · rw [if_pos own, if_pos (last.trans own).symm]
      rfl
    · rw [if_neg own, if_neg (fun same => own (last.symm.trans same.symm))]
  · rw [if_neg last, if_neg last]
    split
    · rfl
    · exact Option.map_id'

theorem back?_recast : (thread.recast depth kind).calls.back? = thread.calls.back?.map fun call =>
    if depth = thread.calls.size - 1 then call.asKind kind else call := by
  rw [Array.back?_eq_getElem?, Array.back?_eq_getElem?, size_recast, getElem?_recast]

/-- A return leaves the frames around it as they are. -/
theorem popCall_recast (thread : Thread) (call : CallRecord) :
    (thread.recast depth kind).popCall.restore
        (if depth = thread.calls.size - 1 then call.asKind kind else call) =
      (thread.popCall.restore call).recast depth kind := by
  have less : thread.calls.pop.size = thread.calls.size - 1 := Array.size_pop
  refine ext_frames ?_ (fun place => ?_) ?_
  · unfold popCall restore recast
    dsimp only
    rw [Array.size_pop, Array.size_pop, Array.size_modify]
    split <;> rfl
  · rw [getElem?_recast]
    change (thread.recast depth kind).calls.pop[place]? = (thread.calls.pop[place]?).map _
    rw [Array.getElem?_pop, Array.getElem?_pop, size_recast, getElem?_recast]
    split <;> rfl
  · change CallRecord.frame _ =
      if thread.calls.pop.size = depth then call.frame.asKind kind else call.frame
    rw [less]
    by_cases own : depth = thread.calls.size - 1
    · rw [if_pos own, if_pos own.symm]
      rfl
    · rw [if_neg own, if_neg (Ne.symm own)]

end Thread

def Scene.recast (depth : Nat) (kind : FrameKind) (scene : Scene) : Scene :=
  { scene with thread := scene.thread.recast depth kind }

theorem Setup.similar_self (setup : Setup) : setup.Similar Eq setup :=
  .refl Eq (fun _ => rfl) setup

/-- The coupling of a program with itself in which a frame of the thread is recast, and there are
some calls below. -/
def Coupling.recast (setup : Setup) (depth : Nat) (kind : FrameKind) (low : Nat) : Coupling where
  left := setup
  right := setup
  Address := Eq
  similar := setup.similar_self
  Kept scene scene' := scene' = scene.recast depth kind ∧ low ≤ scene.thread.calls.size
  alike := by
    rintro scene _ ⟨rfl, -⟩
    refine ⟨rfl, rfl, rfl, rfl, rfl, ?_, rfl⟩
    change _ = Frame.declaring? (if _ then _ else _)
    split
    · exact (Frame.declaring?_asKind _ _).symm
    · rfl
  rebuild := by
    rintro scene _ next next' ⟨rfl, inside⟩ rests rests' alike
    refine ⟨?_, ?_⟩
    · have registers : (scene.thread.recast depth kind).registers =
          (next.thread.recast depth kind).registers :=
        (Thread.registers_recast_congr rests.registers).symm
      have thread : next'.thread = next.thread.recast depth kind := by
        rw [Thread.eq_of_registers (rests'.registers.trans registers), ← alike.id,
          ← alike.state, ← alike.stack]
        rfl
      obtain ⟨thread', world'⟩ := next'
      exact congr (congrArg Scene.mk thread) alike.world.symm
    · have same : next.thread.calls = scene.thread.calls :=
        congrArg Registers.calls rests.registers
      exact same ▸ inside

namespace Coupling.Agree

open Step

variable {setup : Setup} {depth low : Nat} {kind : FrameKind}

/-- A change of the thread that does the same to a recast one. -/
theorem of_recast {change : Thread → Thread}
    (h : ∀ thread : Thread, change (thread.recast depth kind) =
      (change thread).recast depth kind) :
    (recast setup depth kind 0).Agree Eq (onThread change) (onThread change) := by
  refine of_onThread ?_
  rintro scene _ ⟨rfl, -⟩
  exact ⟨congrArg (Scene.mk · scene.world) (h scene.thread), Nat.zero_le _⟩

/-- A part of the thread that is the same in a recast one. -/
theorem of_recastPart {part : Thread → α}
    (h : ∀ thread : Thread, part (thread.recast depth kind) = part thread) :
    (recast setup depth kind low).Agree Eq (ofThread part) (ofThread part) := by
  refine of_ofThread ?_
  rintro scene _ ⟨rfl, -⟩
  exact (h scene.thread).symm

theorem of_jumpRecast (target : Nat) :
    (recast setup depth kind 0).Agree Eq (jump target) (jump target) :=
  of_recast fun _ => Thread.branchTo_recast target

theorem of_jumpByCaseRecast (instruction : Instruction) :
    (recast setup depth kind 0).Agree Eq (jumpByCase instruction) (jumpByCase instruction) := by
  refine of_pop.bind fun value => ?_
  split
  · exact of_throw _
  · split
    · split
      · split
        · exact of_jumpRecast _
        · exact of_pure rfl
      · exact of_pure rfl
    · exact of_pure rfl

theorem of_enterTryRecast (instruction : Instruction) :
    (recast setup depth kind 0).Agree Eq (enterTry instruction) (enterTry instruction) := by
  rw [Thread.enterTry_eq_entered]
  refine of_recast fun thread => ?_
  rw [Thread.entered_recast]
  rfl

theorem of_currentPhaseRecast :
    (recast setup depth kind low).Agree Eq currentPhase currentPhase :=
  of_recastPart fun _ => by rw [Thread.currentTry?_recast]

theorem of_leaveTryRecast : (recast setup depth kind 0).Agree Eq leaveTry leaveTry := by
  refine of_currentPhaseRecast.bind fun phase => ?_
  split
  · exact of_recast fun _ => Thread.enterFinally_recast _
  · exact of_throw _

theorem of_leaveCatchRecast : (recast setup depth kind 0).Agree Eq leaveCatch leaveCatch := by
  refine of_currentPhaseRecast.bind fun phase => ?_
  split
  · exact of_recast fun _ => Thread.enterFinally_recast _
  · exact of_throw _

theorem of_reraiseRecast : (recast setup depth kind 0).Agree Eq reraise reraise := by
  refine (of_recastPart fun _ => Thread.currentTry?_recast).bind fun record => ?_
  split
  · split
    · refine of_recast fun thread => ?_
      rw [Thread.rewind_recast, Thread.enterFinally_recast]
    · exact of_throw _
  · exact of_throw _

theorem of_raiseRecast (exception : Value) :
    (recast setup depth kind 0).Agree Eq (raise exception) (raise exception) := by
  have around : (recast setup depth kind 0).Agree Eq (ofThread (·.handlers))
      (ofThread (·.handlers)) := of_recastPart fun _ => rfl
  have turns (change : List TryRecord → List TryRecord) : (recast setup depth kind 0).Agree Eq
      (onThread fun thread => { thread with handlers := change thread.handlers })
      (onThread fun thread => { thread with handlers := change thread.handlers }) :=
    of_recast fun _ => rfl
  have goes (ip : Nat) : (recast setup depth kind 0).Agree Eq
      (onThread fun thread => { thread with ip }) (onThread fun thread => { thread with ip }) :=
    of_recast fun _ => rfl
  refine (turns (·.dropWhile (·.phase.isInFinally))).bind fun _ => around.bind fun handlers => ?_
  split
  · exact (of_describe _).bind fun _ => of_throw _
  · refine (of_recast fun _ => Thread.rewind_recast _).bind fun _ => ?_
    split
    · exact (turns fun _ => _).bind fun _ => (of_push exception).bind fun _ => goes _
    · exact of_recast fun _ => Thread.enterFinally_recast _

end Coupling.Agree

namespace Step

variable {setup : Setup} {scene next : Scene} {depth : Nat} {kind : FrameKind}

theorem eq_ok_of_recast {step : Step α} {answer : α}
    (h : (Coupling.recast setup depth kind 0).Agree Eq step step)
    (hr : step setup scene = .ok answer next) :
    step setup (scene.recast depth kind) = .ok answer (next.recast depth kind) := by
  obtain ⟨_, _, other, rfl, rfl, -⟩ := h.of_ok ⟨rfl, Nat.zero_le _⟩ hr
  exact other

/-! ## Returns -/

theorem onStack_bind (first : Stack.Operation α) (following : α → Stack.Operation β) :
    onStack (first >>= following) = onStack first >>= fun value => onStack (following value) := by
  funext setup scene
  change onStack (fun stack => EStateM.bind first following stack) setup scene =
    EStateM.bind (onStack first setup) (fun value => onStack (following value) setup) scene
  unfold onStack EStateM.bind
  dsimp only
  cases first scene.thread.stack <;> rfl

/-- What a return leaves of its frame is a matter of the stack. -/
theorem exists_onStack_leaveFrame (kind : FrameKind) (form : ReturnForm) (dp : Nat) :
    ∃ operation, leaveFrame kind form dp = onStack operation := by
  have putting (value : Value) : ∃ operation,
      (do truncate dp; push value : Step Unit) = onStack operation :=
    ⟨_, (onStack_bind (modify (Stack.truncate · dp) : Stack.Operation Unit)
      fun _ => Stack.push value).symm⟩
  unfold leaveFrame
  split
  · exact ⟨_, rfl⟩
  · exact ⟨_, rfl⟩
  · exact ⟨_, rfl⟩
  · exact putting _
  · exact putting _
  · exact ⟨_, rfl⟩

theorem leaveFrame_congr {form : ReturnForm} {dp : Nat} {answer : Unit}
    (h : leaveFrame kind form dp setup scene = .ok answer next) (other : Scene)
    (same : other.thread.stack = scene.thread.stack) :
    leaveFrame kind form dp setup other =
      .ok answer { other with thread := { other.thread with stack := next.thread.stack } } := by
  obtain ⟨operation, leaves⟩ := exists_onStack_leaveFrame kind form dp
  rw [leaves] at h ⊢
  obtain ⟨stack, left, rfl⟩ := onStack_eq_ok_iff.mp h
  exact onStack_eq_ok_iff.mpr ⟨stack, same ▸ left, rfl⟩

/-- A return that is put off. -/
theorem returnFrom_of_isSome {form : ReturnForm} (within : scene.thread.interceptor?.isSome) :
    returnFrom form setup scene =
      .ok .proceed { scene with thread := scene.thread.enterFinally form.exit } := by
  unfold returnFrom
  rw [ofThread_bind, if_pos within]
  rfl

/-- A return from the code outside of all methods. -/
theorem returnFrom_of_outside {form : ReturnForm} (free : scene.thread.interceptor? = none)
    (outside : scene.thread.calls.back? = none) :
    returnFrom form setup scene = .ok .leave scene := by
  unfold returnFrom
  rw [ofThread_bind, free]
  change (ofThread _ >>= _) setup scene = _
  rw [ofThread_bind, outside]
  rfl

/-- A return that pops a call. -/
theorem returnFrom_of_back? {form : ReturnForm} {call : CallRecord}
    (free : scene.thread.interceptor? = none) (top : scene.thread.calls.back? = some call) :
    returnFrom form setup scene =
      (do
        leaveFrame scene.thread.frame.kind form scene.thread.dp
        onThread (·.restore call)
        pure .proceed : Step Signal) setup { scene with thread := scene.thread.popCall } := by
  unfold returnFrom
  rw [ofThread_bind, free]
  change (ofThread _ >>= _) setup scene = _
  rw [ofThread_bind, top]
  cases framed : scene.thread.frame <;>
  · change (ofThread _ >>= _) setup scene = _
    rw [ofThread_bind, framed]
    rfl

/-- A return from another frame than the one that is recast. -/
theorem returnFrom_recast {form : ReturnForm} {signal : Signal}
    (h : returnFrom form setup scene = .ok signal next)
    (stays : depth ≤ next.thread.calls.size) :
    returnFrom form setup (scene.recast depth kind) = .ok signal (next.recast depth kind) := by
  have same : (scene.recast depth kind).thread.interceptor? = scene.thread.interceptor? :=
    Thread.interceptor?_recast
  have back : (scene.recast depth kind).thread.calls.back? = scene.thread.calls.back?.map _ :=
    Thread.back?_recast
  cases within : scene.thread.interceptor? with
  | some record =>
      rw [returnFrom_of_isSome (within ▸ rfl)] at h
      cases h
      rw [returnFrom_of_isSome (by rw [same, within]; rfl)]
      exact congrArg _ (congrArg (Scene.mk · scene.world) (Thread.enterFinally_recast _))
  | none =>
      rw [within] at same
      cases top : scene.thread.calls.back? with
      | none =>
          rw [returnFrom_of_outside within top] at h
          cases h
          rw [top] at back
          exact returnFrom_of_outside same back
      | some call =>
          rw [top] at back
          rw [returnFrom_of_back? within top] at h
          rw [returnFrom_of_back? same back]
          obtain ⟨answer, middle, left, h⟩ := bind_eq_ok_iff.mp h
          obtain ⟨stack, rfl, -⟩ := leaveFrame_eq_ok left
          cases h
          -- The frame that is left lies above the one that is recast.
          have inside : 0 < scene.thread.calls.size := by
            rw [Array.back?_eq_getElem?] at top
            have := (Array.getElem?_eq_some_iff.mp top).1
            omega
          have less : scene.thread.calls.pop.size = scene.thread.calls.size - 1 := Array.size_pop
          have stays : depth ≤ scene.thread.calls.pop.size := stays
          have frame : (scene.recast depth kind).thread.frame = scene.thread.frame :=
            if_neg (by omega)
          have again := leaveFrame_congr left { scene.recast depth kind with
            thread := (scene.recast depth kind).thread.popCall } rfl
          rw [frame]
          refine (bind_of_ok again).trans ?_
          exact congrArg (EStateM.Result.ok Signal.proceed) (congrArg (Scene.mk · scene.world)
            (Thread.popCall_recast { scene.thread with stack } call))

/-! ## Calls -/

/-- All that entering a frame can lead to. -/
theorem enterFrame_eq (key : MethodKey) (entry : MethodEntry) (address : Nat)
    (localCount : UInt16) (kind : FrameKind) (returnIp : Nat) :
    enterFrame key entry address localCount kind returnIp setup scene =
      let thread := scene.thread
      let calls := thread.calls.push ⟨thread.dp, returnIp, thread.moduleId, thread.frame⟩
      if setup.limits.callDepth ≤ thread.calls.size then
        .error (.callDepthExceeded setup.limits.callDepth) scene
      else if thread.stack.depth < key.arity.toNat + 1 then .error .stackUnderflow scene
      else
        match Stack.reserve localCount.toNat thread.stack with
        | .ok _ stack =>
          .ok () { scene with thread := { thread with
            stack
            calls
            dp := thread.stack.depth - (key.arity.toNat + 1)
            ip := address
            moduleId := entry.moduleId
            frame := .method entry.declaring key kind } }
        | .error fault stack =>
          .error fault { scene with thread := { thread with stack, calls } } := by
  unfold enterFrame
  rw [bind_of_ok (read_eq_ok_iff.mpr ⟨rfl, rfl⟩), ofThread_bind]
  dsimp only
  by_cases full : setup.limits.callDepth ≤ scene.thread.calls.size
  · rw [if_pos full, if_pos full]
    rfl
  · rw [if_neg full, if_neg full, ofThread_bind]
    by_cases short : scene.thread.stack.depth < key.arity.toNat + 1
    · rw [if_pos short, if_pos short]
      rfl
    · rw [if_neg short, if_neg short, onThread_bind]
      change EStateM.bind (onStack (Stack.reserve localCount.toNat) setup) _ _ = _
      unfold EStateM.bind onStack
      dsimp only
      cases Stack.reserve localCount.toNat scene.thread.stack <;> rfl

/-- Whether a part of an instruction leaves a frame below where it is, and does the same if that
frame is recast. -/
def Recasts (setup : Setup) (depth : Nat) (kind : FrameKind) (step : Step α) : Prop :=
  ∀ (scene next : Scene) (answer : α), depth ≤ scene.thread.calls.size →
    step setup scene = .ok answer next → depth ≤ next.thread.calls.size ∧
      step setup (scene.recast depth kind) = .ok answer (next.recast depth kind)

namespace Recasts

theorem of_agree {step : Step α}
    (h : (Coupling.recast setup depth kind depth).Agree Eq step step) :
    Recasts setup depth kind step := by
  intro scene next answer inside hr
  obtain ⟨_, _, other, rfl, rfl, stays⟩ := h.of_ok ⟨rfl, inside⟩ hr
  exact ⟨stays, other⟩

theorem of_pure (value : α) : Recasts setup depth kind (pure value) :=
  of_agree (.of_pure rfl)

theorem of_throw (fault : Fault) : Recasts setup depth kind (throw fault : Step α) :=
  of_agree (.of_throw fault)

theorem bind {step : Step α} {following : α → Step β} (h : Recasts setup depth kind step)
    (hf : ∀ value, Recasts setup depth kind (following value)) :
    Recasts setup depth kind (step >>= following) := by
  intro scene next answer inside hr
  obtain ⟨value, middle, first, rest⟩ := bind_eq_ok_iff.mp hr
  obtain ⟨there, first'⟩ := h _ _ _ inside first
  obtain ⟨stays, rest'⟩ := hf value _ _ _ there rest
  exact ⟨stays, (bind_of_ok first').trans rest'⟩

theorem of_program_bind {following : Program → Step α}
    (h : Recasts setup depth kind (following setup.program)) :
    Recasts setup depth kind (program >>= following) :=
  h

/-- What follows may look at all but the thread. -/
theorem of_get_bind {following : Scene → Step α}
    (same : ∀ scene : Scene, following (scene.recast depth kind) = following scene)
    (h : ∀ scene, Recasts setup depth kind (following scene)) :
    Recasts setup depth kind (get >>= following) := by
  intro scene next answer inside hr
  obtain ⟨stays, again⟩ := h scene _ _ _ inside hr
  refine ⟨stays, ?_⟩
  rw [← same scene] at again
  exact again

theorem of_enterFrame (key : MethodKey) (entry : MethodEntry) (address : Nat)
    (localCount : UInt16) (frameKind : FrameKind) (returnIp : Nat) :
    Recasts setup depth kind (enterFrame key entry address localCount frameKind returnIp) := by
  intro scene next answer inside h
  obtain ⟨room, enough, stack, reserved, rfl⟩ := enterFrame_eq_ok h
  have deeper : (scene.thread.calls.push
      ⟨scene.thread.dp, returnIp, scene.thread.moduleId, scene.thread.frame⟩).size =
        scene.thread.calls.size + 1 := Array.size_push _
  refine ⟨by dsimp only; omega, ?_⟩
  have same : (scene.recast depth kind).thread.calls.size = scene.thread.calls.size :=
    Thread.size_recast
  have slots : (scene.recast depth kind).thread.stack = scene.thread.stack := rfl
  rw [enterFrame_eq]
  dsimp only
  rw [same, slots, if_neg (Nat.not_le_of_lt room), if_neg (Nat.not_lt_of_le enough), reserved]
  refine congrArg (EStateM.Result.ok ()) (congrArg (Scene.mk · scene.world)
    (Thread.ext_frames rfl (fun place => ?_) ?_))
  · exact congrArg (·[place]?) (Thread.push_recast scene.thread.dp returnIp scene.thread.moduleId)
  · exact (if_neg (by dsimp only; omega)).symm

theorem of_callNative (info : ClassDef) (receiver : Value) (key : MethodKey) :
    Recasts setup depth kind (callNative info receiver key) :=
  of_agree (.of_callNative (ClassDef.Similar.refl Eq (fun _ => rfl) info) receiver key)

theorem of_enterMethod (key : MethodKey) (frameKind : FrameKind) (info : ClassDef)
    (receiver : Value) (entry : MethodEntry) :
    Recasts setup depth kind (enterMethod key frameKind info receiver entry) := by
  unfold enterMethod
  split
  · exact of_callNative _ _ _
  · have ip : Recasts setup depth kind (ofThread (·.ip)) := of_agree (.of_recastPart fun _ => rfl)
    exact ip.bind fun _ => of_enterFrame _ _ _ _ _ _

theorem of_callMethod (key : MethodKey) (frameKind : FrameKind) :
    Recasts setup depth kind (callMethod key frameKind) := by
  refine of_program_bind ((of_agree (.of_onStack _)).bind fun receiver =>
    (of_agree (.of_memberClass _ _)).bind fun id => ?_)
  dsimp only
  split
  · exact of_throw _
  · split
    · exact of_throw _
    · exact of_enterMethod _ _ _ _ _

theorem of_call (index : UInt32) : Recasts setup depth kind (call index) :=
  (of_agree .of_moduleRecord).bind fun _ => (of_agree (.of_require _)).bind fun _ =>
    of_callMethod _ _

theorem of_invoke : Recasts setup depth kind invoke := by
  refine (of_agree .of_pop).bind fun args => (of_agree .of_pop).bind fun name =>
    (of_agree .of_pop).bind fun target => ?_
  split
  · refine (of_agree .of_heap).bind fun heap => of_program_bind
      ((of_agree (.of_memberClass _ _)).bind fun id =>
        (of_agree (.of_memberName _ _)).bind fun method => ?_)
    dsimp only
    split
    · exact of_agree (.of_throw_bind _)
    · split
      · exact of_throw _
      · exact (of_agree (.of_push _)).bind fun _ =>
          (of_agree (.of_forM_array (fun _ => .of_push _) _)).bind fun _ => of_callMethod _ _
  · exact of_throw _

theorem of_initializeClass (id : ClassId) (resumeIp : Nat) :
    Recasts setup depth kind (initializeClass id resumeIp) := by
  have info := ClassDef.Similar.refl Eq (fun _ => rfl) (setup.program.catalog.get id)
  refine of_get_bind ?_ fun scene => ?_
  · exact fun _ => rfl
  · split
    · exact of_pure _
    · refine of_program_bind ((of_agree (.of_onStore _)).bind fun _ =>
        (of_agree (.of_storeConstants id info)).bind fun _ => ?_)
      split
      · exact of_pure _
      · exact (of_agree (.of_push _)).bind fun _ => (of_enterFrame _ _ _ _ _ _).bind fun _ =>
          of_pure _

theorem of_loadClass (index : UInt32) (offset : Nat) :
    Recasts setup depth kind (loadClass index offset) := by
  refine (of_agree .of_moduleRecord).bind fun _ => (of_agree (.of_require _)).bind fun id =>
    (of_initializeClass id offset).bind fun entered => ?_
  split
  · exact of_pure _
  · exact of_agree (.of_push _)

end Recasts

/-! ## All instructions -/

theorem carryOut_recast {exit : ExitAction} {signal : Signal}
    (h : carryOut exit setup scene = .ok signal next) (stays : depth ≤ next.thread.calls.size) :
    carryOut exit setup (scene.recast depth kind) = .ok signal (next.recast depth kind) := by
  cases exit with
  | fallThrough => exact eq_ok_of_recast (.of_pure rfl) h
  | ret => exact returnFrom_recast h stays
  | retValue value => exact returnFrom_recast h stays
  | retConstructor => exact returnFrom_recast h stays
  | branch target => exact eq_ok_of_recast ((Coupling.Agree.of_jumpRecast target).proceed) h
  | rethrow exception => exact eq_ok_of_recast ((Coupling.Agree.of_raiseRecast exception).proceed) h

theorem leaveFinally_recast {signal : Signal} (h : leaveFinally setup scene = .ok signal next)
    (stays : depth ≤ next.thread.calls.size) :
    leaveFinally setup (scene.recast depth kind) = .ok signal (next.recast depth kind) := by
  have same : (scene.recast depth kind).thread.currentTry? = scene.thread.currentTry? :=
    Thread.currentTry?_recast
  unfold leaveFinally currentPhase at h ⊢
  rw [ofThread_bind] at h ⊢
  rw [same]
  cases phase : scene.thread.currentTry?.map (·.phase) with
  | none =>
      rw [phase] at h
      exact absurd h throw_ne_ok
  | some phase' =>
      rw [phase] at h
      cases phase' with
      | inFinally exit =>
          have left : carryOut exit setup { scene with thread :=
            { scene.thread with handlers := scene.thread.handlers.tail } } = .ok signal next := h
          exact carryOut_recast left stays
      | inTry | inCatch => exact absurd h throw_ne_ok

/-- An instruction does the same whatever kind of call has entered one of the frames, as long as it
does not return from that frame. -/
theorem execute_recast {instruction : Instruction} {signal : Signal}
    (h : execute instruction setup scene = .ok signal next)
    (inside : depth ≤ scene.thread.calls.size) (stays : depth ≤ next.thread.calls.size) :
    execute instruction setup (scene.recast depth kind) = .ok signal (next.recast depth kind) := by
  by_cases moves : instruction.opcode.movesRegisters = true
  · have calls {step : Step Unit} (recasts : Recasts setup depth kind step)
        (h : (do step; pure Signal.proceed : Step Signal) setup scene = .ok signal next) :=
      (recasts.bind (fun _ => .of_pure Signal.proceed) _ _ _ inside h).2
    unfold execute at h ⊢
    dsimp only at h ⊢
    cases opcode : instruction.opcode <;> rw [opcode] at h <;> dsimp only at h ⊢
    case jmp => exact eq_ok_of_recast (.proceed (.of_jumpRecast _)) h
    case jt | jf => exact eq_ok_of_recast (.proceed (.of_jumpIf _ _ (.of_jumpRecast _))) h
    case jce | jcne | jcl | jcle | jcg | jcge =>
      exact eq_ok_of_recast (.proceed (.of_jumpIfCompare _ (.of_jumpRecast _))) h
    case caseOf => exact eq_ok_of_recast (.proceed (.of_jumpByCaseRecast _)) h
    case ret | retCtor => exact returnFrom_recast h stays
    case retVal =>
      obtain ⟨value, middle, popped, h⟩ := bind_eq_ok_iff.mp h
      exact (bind_of_ok (eq_ok_of_recast .of_pop popped)).trans (returnFrom_recast h stays)
    case loadClass => exact calls (.of_loadClass _ _) h
    case call => exact calls (.of_call _) h
    case invoke => exact calls .of_invoke h
    case enterTry => exact eq_ok_of_recast (.proceed (.of_enterTryRecast _)) h
    case leaveTry => exact eq_ok_of_recast (.proceed .of_leaveTryRecast) h
    case leaveCatch => exact eq_ok_of_recast (.proceed .of_leaveCatchRecast) h
    case leaveFinally => exact leaveFinally_recast h stays
    case raise =>
      exact eq_ok_of_recast (Coupling.Agree.of_pop.bind fun _ => .proceed (.of_raiseRecast _)) h
    case reraise => exact eq_ok_of_recast (.proceed .of_reraiseRecast) h
    all_goals
      rw [opcode] at moves
      cases moves
  · exact eq_ok_of_recast (.of_execute rfl rfl (by simpa using moves)) h

end Step

end ObjectMachine
