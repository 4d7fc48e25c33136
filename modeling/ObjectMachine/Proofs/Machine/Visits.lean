import ObjectMachine.Proofs.Machine.Recast

/-!
# Visits of a method

What a thread executes from the entry of a method to the return from it does not depend on how the
method has been entered. Only what the return leaves on the stack does.

Other threads run in between and change the world. A strand of instructions of one thread takes the
world as it finds it.
-/

namespace ObjectMachine

namespace Stack

def cut (height : Nat) (values : List Value) (stack : Stack) : Stack :=
  { stack with slots := (stack.slots.toList.take height ++ values).toArray }

def returned (kind : FrameKind) (form : ReturnForm) (dp : Nat) (stack : Stack) : Stack :=
  stack.cut dp (form.leaves kind (stack.get? dp))

theorem truncate_eq_cut (stack : Stack) (height : Nat) :
    stack.truncate height = stack.cut height [] := by
  unfold truncate cut
  rw [List.append_nil, ← Array.toList_shrink]

theorem truncate_succ_eq_cut (stack : Stack) (height : Nat) :
    stack.truncate (height + 1) = stack.cut height (stack.get? height).toList := by
  have same : stack.slots.toList.take height ++ (stack.get? height).toList =
      stack.slots.toList.take (height + 1) := by
    rw [List.take_add_one, Array.getElem?_toList]
    rfl
  unfold truncate cut
  rw [same, ← Array.toList_shrink]

theorem push_truncate (value : Value) (stack : Stack) {height : Nat} (room : height < stack.limit) :
    push value (stack.truncate height) = .ok () (stack.cut height [value]) := by
  have low : (stack.slots.shrink height).size ≤ height := by
    rw [Array.size_shrink]
    exact Nat.min_le_left _ _
  unfold push
  rw [if_neg (by change ¬ stack.limit ≤ (stack.slots.shrink height).size; omega)]
  unfold truncate cut
  rw [← Array.toList_shrink, ← Array.toList_push]

end Stack

namespace Step

variable {setup : Setup} {scene next : Scene} {form : ReturnForm}

/-- All that there is to a return from a frame, if the result has room where the receiver is. -/
theorem leaveFrame_of_room (kind : FrameKind) {dp : Nat} (room : dp < scene.thread.stack.limit) :
    leaveFrame kind form dp setup scene = .ok () { scene with thread := { scene.thread with
      stack := scene.thread.stack.returned kind form dp } } := by
  have cuts : truncate dp setup scene = .ok () { scene with thread := { scene.thread with
      stack := scene.thread.stack.truncate dp } } := truncate_eq_ok_iff.mpr rfl
  have bare : truncate dp setup scene = .ok () { scene with thread := { scene.thread with
      stack := scene.thread.stack.cut dp [] } } := by
    rw [cuts, Stack.truncate_eq_cut]
  have keeping : truncate (dp + 1) setup scene = .ok () { scene with thread := { scene.thread with
      stack := scene.thread.stack.cut dp (scene.thread.stack.get? dp).toList } } :=
    truncate_eq_ok_iff.mpr (by rw [Stack.truncate_succ_eq_cut])
  have putting (value : Value) : (do truncate dp; push value : Step Unit) setup scene =
      .ok () { scene with thread := { scene.thread with
        stack := scene.thread.stack.cut dp [value] } } :=
    (bind_of_ok cuts).trans
      (onStack_eq_ok_iff.mpr ⟨_, Stack.push_truncate value _ room, rfl⟩)
  cases kind with
  | initializer => exact bare
  | constructor => exact keeping
  | invoke =>
      cases form with
      | void => exact putting .null
      | value result => exact putting result
      | constructor => exact keeping
  | normal =>
      cases form with
      | void => exact bare
      | value result => exact putting result
      | constructor => exact keeping

theorem returnFrom_of_room {call : CallRecord} (free : scene.thread.interceptor? = none)
    (top : scene.thread.calls.back? = some call)
    (room : scene.thread.dp < scene.thread.stack.limit) :
    returnFrom form setup scene = .ok .proceed { scene with
      thread := { scene.thread.popCall.restore call with
        stack := scene.thread.stack.returned scene.thread.frame.kind form scene.thread.dp } } := by
  rw [returnFrom_of_back? free top]
  refine (bind_of_ok (leaveFrame_of_room _ ?_)).trans rfl
  exact room

/-- A return that pops a call has not been put off. -/
theorem interceptor?_of_popped {signal : Signal}
    (h : returnFrom form setup scene = .ok signal next)
    (pops : next.thread.calls.size < scene.thread.calls.size) :
    scene.thread.interceptor? = none := by
  cases within : scene.thread.interceptor? with
  | none => rfl
  | some record =>
      rw [returnFrom_of_isSome (within ▸ rfl)] at h
      cases h
      have same : (scene.thread.enterFinally form.exit).calls = scene.thread.calls := by
        unfold Thread.enterFinally
        split <;> rfl
      exact absurd (same ▸ pops) (Nat.lt_irrefl _)

end Step

namespace Thread

variable {thread next : Thread} {depth : Nat} {kind : FrameKind}

theorem Idles.recast (h : next.Idles thread) :
    (next.recast depth kind).Idles (thread.recast depth kind) := by
  rw [h.eq]
  exact ⟨rfl⟩

theorem Waits.recast (h : next.Waits thread) :
    (next.recast depth kind).Waits (thread.recast depth kind) :=
  ⟨by rw [h.eq]; rfl, h.stack⟩

theorem Answered.recast {signal : Signal} (h : thread.Answered signal next) :
    (thread.recast depth kind).Answered signal (next.recast depth kind) := by
  cases h with
  | idles forks leaves idles => exact .idles forks leaves idles.recast
  | forks id state pushed => exact .forks id state pushed

@[simp]
theorem recast_recast (kind' : FrameKind) :
    (thread.recast depth kind).recast depth kind' = thread.recast depth kind' := by
  have twice (frame : Frame) : (frame.asKind kind).asKind kind' = frame.asKind kind' := by
    cases frame <;> rfl
  refine ext_frames rfl (fun place => ?_) ?_
  · rw [getElem?_recast, getElem?_recast, getElem?_recast, Option.map_map]
    congr 1
    funext call
    dsimp only [Function.comp_apply]
    split
    · exact congrArg (CallRecord.mk _ _ _) (twice call.frame)
    · rfl
  · unfold recast
    dsimp only
    rw [Array.size_modify]
    split
    · exact twice _
    · rfl

/-- A recast thread returns as the thread does. -/
theorem returned?_recast (instruction : Instruction) :
    (thread.recast depth kind).returned? instruction =
      (thread.returned? instruction).map fun (returner, form) =>
        (returner.recast depth kind, form) := by
  unfold returned?
  rw [currentTry?_recast]
  split
  · rfl
  · rw [Option.map_map]
    rfl
  · rfl
  · rw [Option.map_map]
    rfl
  · rfl

end Thread

namespace Registers

/-- Which kind of call has entered the frames does not matter to the try constructs. -/
theorem Framed.recast {thread : Thread} (h : thread.registers.Framed) (depth : Nat)
    (kind : FrameKind) : (thread.recast depth kind).registers.Framed := by
  have same (place : Nat) : (thread.recast depth kind).registers.context? place =
      thread.registers.context? place := by
    unfold context?
    change (if place = (thread.recast depth kind).calls.size then _ else
      ((thread.recast depth kind).calls[place]?).map _) = _
    rw [Thread.size_recast, Thread.getElem?_recast, Option.map_map]
    congr 2
    funext call
    dsimp only [Function.comp_apply]
    split <;> rfl
  refine ⟨⟨h.nested.order, fun record member => ?_⟩, fun record member => ?_⟩
  · exact Nat.le_trans (h.nested.depth record member) (Nat.le_of_eq Thread.size_recast.symm)
  · rw [same]
    exact h.context record member

end Registers

/-- An instruction that a thread has executed, what it has found and left, and the thread when the
scheduler has answered it. -/
structure Deed where
  instruction : Instruction
  found : Scene
  signal : Signal
  left : Scene
  after : Thread

namespace Deed

/-- Whether a deed is what a thread does next. It may have waited before. -/
structure Done (setup : Setup) (thread : Thread) (deed : Deed) : Prop where
  fetched : setup.program.code.fetch thread.ip = .ok deed.instruction
  waits : deed.found.thread.Waits
    { thread with ip := deed.instruction.offset + deed.instruction.size }
  executed : Step.execute deed.instruction setup deed.found = .ok deed.signal deed.left
  answered : deed.left.thread.Answered deed.signal deed.after

def recast (depth : Nat) (kind : FrameKind) (deed : Deed) : Deed :=
  { deed with
    found := deed.found.recast depth kind
    left := deed.left.recast depth kind
    after := deed.after.recast depth kind }

def act (deed : Deed) : Act :=
  ⟨deed.instruction, deed.found.thread, deed.after⟩

/-- A deed as the return from a frame of another kind, given the stack that this leaves. -/
def leaving (depth : Nat) (kind : FrameKind) (stack : Stack) (deed : Deed) : Deed :=
  { deed with
    found := deed.found.recast depth kind
    left := { deed.left with thread := { deed.left.thread with stack } }
    after := { deed.after with stack } }

namespace Done

variable {setup : Setup} {thread : Thread} {deed : Deed} {depth : Nat}

theorem found_registers (h : deed.Done setup thread) : deed.found.thread.registers =
    { thread.registers with ip := deed.instruction.offset + deed.instruction.size } :=
  h.waits.registers

theorem found_calls (h : deed.Done setup thread) : deed.found.thread.calls = thread.calls :=
  congrArg Registers.calls h.found_registers

theorem after_calls (h : deed.Done setup thread) : deed.after.calls = deed.left.thread.calls :=
  congrArg Registers.calls h.answered.registers

/-- An instruction that does not return from a frame is executed as well if that is recast. -/
theorem recast (h : deed.Done setup thread) (kind : FrameKind) (inside : depth ≤ thread.calls.size)
    (stays : depth ≤ deed.after.calls.size) :
    (deed.recast depth kind).Done setup (thread.recast depth kind) where
  fetched := h.fetched
  waits := h.waits.recast
  executed := Step.execute_recast h.executed (h.found_calls ▸ inside) (h.after_calls ▸ stays)
  answered := h.answered.recast

theorem moves (h : deed.Done setup thread) :
    deed.found.thread.Moves setup deed.instruction deed.after.registers deed.signal := by
  rw [h.answered.registers]
  exact (Step.execute_moves h.executed).2

theorem framed (h : deed.Done setup thread) (framed : thread.registers.Framed) :
    deed.after.registers.Framed :=
  h.moves.framed (h.found_registers ▸ framed.withIp _)

theorem sameUpTo (h : deed.Done setup thread) (framed : thread.registers.Framed)
    (inside : depth ≤ thread.calls.size) (stays : depth ≤ deed.after.calls.size) :
    Registers.SameUpTo depth thread.registers deed.after.registers := by
  have same := h.moves.sameUpTo (h.found_registers ▸ framed.withIp _) (h.found_calls ▸ inside) stays
  rw [h.found_registers] at same
  exact ⟨same.calls, same.activation, same.outer⟩

theorem of_waits {waiting : Thread} (h : deed.Done setup waiting) (waits : waiting.Waits thread) :
    deed.Done setup thread where
  fetched := by
    rw [← h.fetched, waits.eq]
  waits := h.waits.trans ⟨by rw [waits.eq], waits.stack⟩
  executed := h.executed
  answered := h.answered

theorem fits (h : deed.Done setup thread) : thread.stack.Fits deed.after.stack := by
  have behind : deed.found.thread.ip = deed.instruction.offset + deed.instruction.size :=
    congrArg Registers.ip h.found_registers
  exact h.waits.fits.trans ((Step.execute_fits h.executed behind).trans h.answered.fits)

end Done

end Deed

inductive Strand (setup : Setup) (start : Thread) : List Deed → Thread → Prop
  | start : Strand setup start [] start
  | step {deeds : List Deed} {thread : Thread} {deed : Deed} :
      Strand setup start deeds thread → deed.Done setup thread →
      Strand setup start (deeds ++ [deed]) deed.after

namespace Strand

variable {setup : Setup} {start thread : Thread} {deeds : List Deed} {depth : Nat}

theorem unsnoc {deed : Deed} (h : Strand setup start (deeds ++ [deed]) thread) :
    thread = deed.after ∧ ∃ before, Strand setup start deeds before ∧ deed.Done setup before := by
  generalize all : deeds ++ [deed] = list at h
  cases h with
  | start => exact absurd all (List.append_ne_nil_of_right_ne_nil _ (List.cons_ne_nil _ _))
  | @step earlier before other strand done =>
      obtain ⟨rfl, same⟩ := List.append_inj' all rfl
      obtain rfl := List.singleton_inj.mp same
      exact ⟨rfl, before, strand, done⟩

/-- A thread that stays in a frame does the same if that is recast. -/
theorem recast (h : Strand setup start deeds thread) (kind : FrameKind)
    (inside : depth ≤ start.calls.size) (stays : ∀ deed ∈ deeds, depth ≤ deed.after.calls.size) :
    depth ≤ thread.calls.size ∧ Strand setup (start.recast depth kind)
      (deeds.map (·.recast depth kind)) (thread.recast depth kind) := by
  induction h with
  | start => exact ⟨inside, .start⟩
  | @step deeds thread deed _ done ih =>
      obtain ⟨there, strand⟩ := ih fun deed member => stays deed (List.mem_append_left _ member)
      have stays := stays deed (List.mem_append_right _ (List.mem_singleton.mpr rfl))
      refine ⟨stays, ?_⟩
      rw [List.map_append, List.map_singleton]
      exact strand.step (done.recast kind there stays)

theorem sameUpTo (h : Strand setup start deeds thread) (framed : start.registers.Framed)
    (inside : depth ≤ start.calls.size) (stays : ∀ deed ∈ deeds, depth ≤ deed.after.calls.size) :
    depth ≤ thread.calls.size ∧ Registers.SameUpTo depth start.registers thread.registers := by
  suffices thread.registers.Framed ∧ depth ≤ thread.calls.size ∧
      Registers.SameUpTo depth start.registers thread.registers from this.2
  induction h with
  | start => exact ⟨framed, inside, .refl _⟩
  | @step deeds thread deed _ done ih =>
      obtain ⟨framed, there, same⟩ :=
        ih fun deed member => stays deed (List.mem_append_left _ member)
      have stays := stays deed (List.mem_append_right _ (List.mem_singleton.mpr rfl))
      exact ⟨done.framed framed, stays, same.trans (done.sameUpTo framed there stays)⟩

theorem fits (h : Strand setup start deeds thread) : start.stack.Fits thread.stack := by
  induction h with
  | start => exact .refl _
  | step _ done ih => exact ih.trans done.fits

end Strand

namespace Thread

variable {thread returner : Thread} {instruction : Instruction} {form : ReturnForm}

/-- A return begins with the registers of its instruction but for the try constructs. -/
theorem returned?_registers (h : thread.returned? instruction = some (returner, form)) :
    returner.calls = thread.calls ∧ returner.dp = thread.dp ∧ returner.frame = thread.frame := by
  obtain ⟨same, -⟩ := returned?_frame h
  exact ⟨congrArg Registers.calls same, congrArg Registers.dp same, congrArg Registers.frame same⟩

theorem returned?_limit (h : thread.returned? instruction = some (returner, form)) :
    returner.stack.limit = thread.stack.limit := by
  rcases returned?_eq_some h with ⟨-, rfl, -⟩ | ⟨value, -, -, rfl, -⟩ | ⟨-, rfl, -⟩ |
    ⟨record, exit, -, -, -, -, rfl⟩ <;> rfl

theorem popCall_recast_here (call : CallRecord) (kind : FrameKind)
    (inside : 0 < thread.calls.size) :
    (thread.recast thread.calls.size kind).popCall.restore call = thread.popCall.restore call := by
  have less : (thread.popCall.restore call).calls.size = thread.calls.size - 1 := Array.size_pop
  have same : (thread.recast thread.calls.size kind).popCall.restore
      (if thread.calls.size = thread.calls.size - 1 then call.asKind kind else call) = _ :=
    popCall_recast thread call
  rw [if_neg (by omega)] at same
  rw [same, recast_of_lt (by omega)]

end Thread

namespace Step

variable {setup : Setup} {scene : Scene} {returner : Thread} {instruction : Instruction}
  {form : ReturnForm} {call : CallRecord}

theorem execute_of_popped
    (returns : scene.thread.returned? instruction = some (returner, form))
    (free : returner.interceptor? = none) (top : returner.calls.back? = some call)
    (room : returner.dp < returner.stack.limit) :
    execute instruction setup scene = .ok .proceed { scene with
      thread := { returner.popCall.restore call with
        stack := returner.stack.returned returner.frame.kind form returner.dp } } :=
  (execute_of_returned returns).trans (returnFrom_of_room free top room)

theorem execute_of_popped_recast (kind : FrameKind)
    (returns : scene.thread.returned? instruction = some (returner, form))
    (free : returner.interceptor? = none) (top : returner.calls.back? = some call)
    (room : returner.dp < returner.stack.limit) (method : returner.frame ≠ .entry) :
    execute instruction setup (scene.recast returner.calls.size kind) = .ok .proceed { scene with
      thread := { returner.popCall.restore call with
        stack := returner.stack.returned kind form returner.dp } } := by
  have inside : 0 < returner.calls.size := by
    rw [Array.back?_eq_getElem?] at top
    have := (Array.getElem?_eq_some_iff.mp top).1
    omega
  have returns : (scene.recast returner.calls.size kind).thread.returned? instruction =
      some (returner.recast returner.calls.size kind, form) := by
    change (scene.thread.recast _ _).returned? _ = _
    rw [Thread.returned?_recast, returns]
    rfl
  have top : (returner.recast returner.calls.size kind).calls.back? = some call := by
    rw [Thread.back?_recast, top, Option.map_some, if_neg (by omega)]
  have kinds : (returner.recast returner.calls.size kind).frame.kind = kind := by
    unfold Thread.recast
    rw [if_pos rfl]
    cases framed : returner.frame with
    | entry => exact absurd framed method
    | method => rfl
  rw [execute_of_popped returns (Thread.interceptor?_recast.trans free) top room, kinds,
    Thread.popCall_recast_here call kind inside]
  rfl

end Step

namespace Deed.Done

variable {setup : Setup} {thread returner : Thread} {back : Deed} {form : ReturnForm}

theorem popped (h : back.Done setup thread)
    (returns : back.found.thread.returned? back.instruction = some (returner, form))
    (leaves : back.after.calls.size < thread.calls.size) :
    returner.interceptor? = none ∧ back.after.calls.size + 1 = thread.calls.size ∧
      ∃ call, returner.calls.back? = some call := by
  obtain ⟨calls, -, -⟩ := Thread.returned?_registers returns
  have executed := h.executed
  rw [Step.execute_of_returned returns] at executed
  have pops : back.left.thread.calls.size < returner.calls.size := by
    rw [← h.after_calls, calls, h.found_calls]
    exact leaves
  obtain ⟨-, call, stack, top, left, -⟩ := Step.returnFrom_popped executed pops
  have less : back.left.thread.calls.size = returner.calls.size - 1 := by
    rw [left]
    exact Array.size_pop
  refine ⟨Step.interceptor?_of_popped executed pops, ?_, call, top⟩
  rw [h.after_calls, ← h.found_calls, ← calls]
  omega

/-- A return leaves what its frame tells it to, and a return from a frame of another kind leaves
what that tells it to. -/
theorem leaving (h : back.Done setup thread)
    (returns : back.found.thread.returned? back.instruction = some (returner, form))
    (leaves : back.after.calls.size < thread.calls.size) (method : thread.frame ≠ .entry)
    (room : thread.dp < thread.stack.limit) (kind : FrameKind) :
    back.after.stack = returner.stack.returned thread.frame.kind form thread.dp ∧
      (back.leaving thread.calls.size kind (returner.stack.returned kind form thread.dp)).Done setup
        (thread.recast thread.calls.size kind) := by
  obtain ⟨free, -, call, top⟩ := h.popped returns leaves
  obtain ⟨calls, dp, frame⟩ := Thread.returned?_registers returns
  have calls : returner.calls = thread.calls := calls.trans h.found_calls
  have dp : returner.dp = thread.dp := dp.trans (congrArg Registers.dp h.found_registers)
  have frame : returner.frame = thread.frame :=
    frame.trans (congrArg Registers.frame h.found_registers)
  have limit : returner.stack.limit = thread.stack.limit :=
    (Thread.returned?_limit returns).trans h.waits.fits.limit
  rw [← limit, ← dp] at room
  obtain ⟨asked, left⟩ := EStateM.Result.ok.inj
    (h.executed.symm.trans (Step.execute_of_popped returns free top room))
  have other : Step.execute back.instruction setup _ = _ :=
    Step.execute_of_popped_recast kind returns free top room (frame ▸ method)
  rw [frame, dp] at left
  rw [calls, dp] at other
  have answered := h.answered
  rw [asked] at answered
  have idles : back.after.Idles back.left.thread := by
    cases answered with
    | idles _ _ idles => exact idles
  refine ⟨?_, h.fetched, h.waits.recast, ?_, ?_⟩
  · rw [idles.stack, left]
  · refine other.trans ?_
    change _ = EStateM.Result.ok back.signal
      ({ back.left with thread := { back.left.thread with stack := _ } } : Scene)
    rw [asked, left]
  · change Thread.Answered _ back.signal _
    rw [asked]
    refine .idles nofun nofun ⟨?_⟩
    change ({ back.after with stack := _ } : Thread) = _
    rw [idles.eq]
    rfl

end Deed.Done

/-- Whether a thread stays in the frame that it starts in for some deeds, and then returns from
it. -/
structure Visit (setup : Setup) (start : Thread) (within : List Deed) (thread : Thread)
    (back : Deed) (returner : Thread) (form : ReturnForm) : Prop where
  strand : Strand setup start within thread
  stays : ∀ deed ∈ within, start.calls.size ≤ deed.after.calls.size
  done : back.Done setup thread
  returns : back.found.thread.returned? back.instruction = some (returner, form)
  leaves : back.after.calls.size < start.calls.size

namespace Visit

variable {setup : Setup} {start thread returner : Thread} {within : List Deed} {back : Deed}
  {form : ReturnForm}

theorem here (h : Visit setup start within thread back returner form)
    (framed : start.registers.Framed) :
    thread.calls.size = start.calls.size ∧ thread.dp = start.dp ∧ thread.frame = start.frame := by
  obtain ⟨inside, same⟩ := h.strand.sameUpTo framed (Nat.le_refl _) h.stays
  have leaves := h.leaves
  obtain ⟨-, less, -⟩ := h.done.popped h.returns (by omega)
  have here : thread.calls.size = start.calls.size := by omega
  obtain ⟨dp, -, frame⟩ := same.current_eq rfl here
  exact ⟨here, dp, frame⟩

/-- A visit leaves what its frame tells it to. There is the same visit of a frame of another kind,
which leaves what that tells it to. -/
theorem recast (h : Visit setup start within thread back returner form)
    (framed : start.registers.Framed) (method : start.frame ≠ .entry)
    (room : start.dp < start.stack.limit) (kind : FrameKind) :
    back.after.stack = returner.stack.returned start.frame.kind form start.dp ∧
      Visit setup (start.recast start.calls.size kind)
        (within.map (·.recast start.calls.size kind)) (thread.recast start.calls.size kind)
        (back.leaving start.calls.size kind (returner.stack.returned kind form start.dp))
        (returner.recast start.calls.size kind) form := by
  obtain ⟨here, dp, frame⟩ := h.here framed
  have limit := h.strand.fits.limit
  obtain ⟨inside, strand⟩ := h.strand.recast kind (Nat.le_refl _) h.stays
  obtain ⟨stack, done⟩ := h.done.leaving h.returns (here ▸ h.leaves) (frame ▸ method)
    (by rwa [dp, limit]) kind
  rw [frame, dp] at stack
  rw [here, dp] at done
  refine ⟨stack, strand, fun deed member => ?_, done, ?_, ?_⟩
  · obtain ⟨deed, found, rfl⟩ := List.mem_map.mp member
    rw [Thread.size_recast]
    exact (h.stays deed found).trans (Nat.le_of_eq Thread.size_recast.symm)
  · change (back.found.thread.recast _ _).returned? back.instruction = _
    rw [Thread.returned?_recast, h.returns]
    rfl
  · rw [Thread.size_recast]
    exact h.leaves

end Visit

/-- Whether the visits of a method only differ in what the return leaves if the method is entered
in one way or another. -/
def Thread.Interchangeable (setup : Setup) (start : Thread) : Prop :=
  ∀ (kind kind' : FrameKind) (within : List Deed) (thread : Thread) (back : Deed)
    (returner : Thread) (form : ReturnForm),
    let depth := start.calls.size
    Visit setup (start.recast depth kind) within thread back returner form →
      back.after.stack = returner.stack.returned kind form start.dp ∧
        Visit setup (start.recast depth kind') (within.map (·.recast depth kind'))
          (thread.recast depth kind')
          (back.leaving depth kind' (returner.stack.returned kind' form start.dp))
          (returner.recast depth kind') form

/-- How a method has been entered matters to no instruction but the return from it. -/
theorem Thread.interchangeable {setup : Setup} {start : Thread} (framed : start.registers.Framed)
    (method : start.frame ≠ .entry) (room : start.dp < start.stack.limit) :
    start.Interchangeable setup := by
  intro kind kind' within thread back returner form depth visit
  have own : (start.recast depth kind).frame.kind = kind ∧
      (start.recast depth kind).frame ≠ .entry := by
    unfold recast
    rw [if_pos rfl]
    cases entered : start.frame with
    | entry => exact absurd entered method
    | method => exact ⟨rfl, nofun⟩
  have visits := visit.recast (framed.recast depth kind) own.2 room kind'
  rwa [own.1, size_recast, recast_recast] at visits

namespace Machine

variable {setup : Setup} {first machine : Machine} {start thread : Thread}

theorem Course.exists_strand {acts : List Act} (h : Course setup first start acts machine thread) :
    ∃ deeds waiting, Strand setup start deeds waiting ∧ thread.Waits waiting ∧
      deeds.map Deed.act = acts := by
  induction h with
  | start => exact ⟨[], start, .start, .refl _, rfl⟩
  | @step acts machine next thread after act _ _ _ proceeds ih =>
      obtain ⟨deeds, waiting, strand, waits, rfl⟩ := ih
      cases proceeds with
      | rests rests =>
          exact ⟨deeds, waiting, strand, rests.waits.trans waits, (List.append_nil _).symm⟩
      | @acts instruction scene result signal _ executes fetched idles answered =>
          have done : Deed.Done setup thread ⟨instruction, scene, signal, result, after⟩ :=
            ⟨fetched, idles.waits, executes.execute, answered⟩
          exact ⟨_, after, strand.step (done.of_waits waits), .refl _, List.map_append⟩

/-- The course of a thread from the entry of a method to the return is a visit of it. -/
theorem Course.exists_visit {between : List Act} {back : Act} {returner : Thread}
    {form : ReturnForm} (h : Course setup first start (between ++ [back]) machine thread)
    (stays : ∀ act ∈ between, start.calls.size ≤ act.after.calls.size)
    (returns : back.before.returned? back.instruction = some (returner, form))
    (leaves : back.after.calls.size < start.calls.size) :
    ∃ within inner last, Visit setup start within inner last returner form ∧
      within.map Deed.act = between ∧ last.act = back := by
  obtain ⟨deeds, waiting, strand, -, acts⟩ := h.exists_strand
  obtain ⟨within, rest, rfl, rfl, ends⟩ := List.map_eq_append_iff.mp acts
  obtain ⟨last, rfl, rfl⟩ := List.map_eq_singleton_iff.mp ends
  obtain ⟨-, inner, strand, done⟩ := strand.unsnoc
  exact ⟨within, inner, last, ⟨strand, fun deed member =>
    stays deed.act (List.mem_map_of_mem member), done, returns, leaves⟩, rfl, rfl⟩

/-- What a thread of a run has done in a method it would have done as well if the method had been
entered otherwise. It would have come back to the same place with what the return leaves then. -/
theorem Course.recast_visit (reachable : Reachable setup first) {between : List Act} {back : Act}
    {returner : Thread} {form : ReturnForm}
    (h : Course setup first start (between ++ [back]) machine thread)
    (stays : ∀ act ∈ between, start.calls.size ≤ act.after.calls.size)
    (returns : back.before.returned? back.instruction = some (returner, form))
    (leaves : back.after.calls.size < start.calls.size) (method : start.frame ≠ .entry)
    (room : start.dp < start.stack.limit) (kind : FrameKind) :
    back.after.stack = returner.stack.returned start.frame.kind form start.dp ∧
      ∃ within inner last other, Visit setup (start.recast start.calls.size kind) within inner last
          other form ∧
        within.map (·.instruction) = between.map (·.instruction) ∧
        last.instruction = back.instruction ∧
        last.after =
          { back.after with stack := returner.stack.returned kind form start.dp } := by
  obtain ⟨within, inner, last, visit, rfl, rfl⟩ := h.exists_visit stays returns leaves
  have framed := (reachable.framed) start h.start_mem
  obtain ⟨stack, again⟩ := visit.recast framed method room kind
  refine ⟨stack, _, _, _, _, again, ?_, rfl, rfl⟩
  rw [List.map_map, List.map_map]
  rfl

end Machine

end ObjectMachine
