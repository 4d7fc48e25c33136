import ObjectMachine.Proofs.Machine.Returns

/-!
# The frames of try constructs

A try construct keeps the data pointer and the module of the frame that has entered it. As long as
the construct is there these are still those of the frame at its depth, whether that is the current
one or one that waits for a call to return. So a throw, which takes them from the construct, goes
back to the frame as it was.
-/

namespace ObjectMachine

/-- What is current while the code of a frame is executed. -/
structure Activation where
  dp : Nat
  moduleId : ModuleId
  frame : Frame

namespace Registers

/-- The activation at a depth, which is the current one or waits for a call to return. -/
def activation? (registers : Registers) (depth : Nat) : Option Activation :=
  if depth = registers.calls.size then
    some ⟨registers.dp, registers.moduleId, registers.frame⟩
  else registers.calls[depth]?.map fun call => ⟨call.dp, call.moduleId, call.frame⟩

theorem activation?_here (registers : Registers) :
    registers.activation? registers.calls.size =
      some ⟨registers.dp, registers.moduleId, registers.frame⟩ :=
  if_pos rfl

theorem activation?_waiting (registers : Registers) {depth : Nat}
    (waits : depth ≠ registers.calls.size) :
    registers.activation? depth =
      registers.calls[depth]?.map fun call => ⟨call.dp, call.moduleId, call.frame⟩ :=
  if_neg waits

def context? (registers : Registers) (depth : Nat) : Option (Nat × ModuleId) :=
  if depth = registers.calls.size then some (registers.dp, registers.moduleId)
  else registers.calls[depth]?.map fun call => (call.dp, call.moduleId)

theorem context?_here (registers : Registers) :
    registers.context? registers.calls.size = some (registers.dp, registers.moduleId) :=
  if_pos rfl

theorem context?_eq (registers : Registers) (depth : Nat) :
    registers.context? depth =
      (registers.activation? depth).map fun active => (active.dp, active.moduleId) := by
  unfold context? activation?
  split
  · rfl
  · rw [Option.map_map]
    rfl

def Unwinds (registers after : Registers) : Prop :=
  ∀ depth ≤ after.calls.size, depth ≤ registers.calls.size →
    after.context? depth = registers.context? depth

/-- Whether every construct keeps the data pointer and the module of its frame. -/
structure Framed (registers : Registers) : Prop where
  nested : registers.Nested
  context : ∀ record ∈ registers.handlers,
    registers.context? record.callDepth = some (record.dp, record.moduleId)

variable {registers after : Registers}

theorem Unwinds.of_activation? (h : ∀ depth ≤ after.calls.size, depth ≤ registers.calls.size →
    after.activation? depth = registers.activation? depth) : registers.Unwinds after := by
  intro depth above below
  rw [context?_eq, h depth above below, context?_eq]

theorem Unwinds.of_same (calls : after.calls = registers.calls) (dp : after.dp = registers.dp)
    (moduleId : after.moduleId = registers.moduleId) : registers.Unwinds after := by
  intro depth _ _
  unfold context?
  rw [calls, dp, moduleId]

namespace Framed

/-- The constructs that are left are framed if their frames are as they were. -/
theorem unwind (h : registers.Framed) (unwinds : registers.Unwinds after) (nested : after.Nested)
    (kept : ∀ record ∈ after.handlers, ∃ old ∈ registers.handlers,
      record.callDepth = old.callDepth ∧ record.dp = old.dp ∧ record.moduleId = old.moduleId) :
    after.Framed := by
  refine ⟨nested, fun record member => ?_⟩
  obtain ⟨old, found, depth, dp, moduleId⟩ := kept record member
  have above := nested.depth record member
  have below := h.nested.depth old found
  rw [unwinds _ above (depth ▸ below), depth, dp, moduleId]
  exact h.context old found

theorem suffix (h : registers.Framed) (unwinds : registers.Unwinds after) (nested : after.Nested)
    (left : after.handlers <:+ registers.handlers) : after.Framed :=
  h.unwind unwinds nested fun record member => ⟨record, left.subset member, rfl, rfl, rfl⟩

theorem tail (h : registers.Framed) :
    Framed { registers with handlers := registers.handlers.tail } :=
  have left : registers.handlers.tail <:+ registers.handlers := List.tail_suffix _
  h.suffix (.of_same rfl rfl rfl) (h.nested.suffix left (Nat.le_refl _)) left

theorem withIp (h : registers.Framed) (ip : Nat) : Framed { registers with ip } :=
  ⟨h.nested.withIp ip, h.context⟩

/-- Changing the phase of the innermost construct leaves it in its frame. -/
theorem of_phase (h : registers.Framed) (unwinds : registers.Unwinds after)
    (nested : after.Nested) {record record' : TryRecord} {outer : List TryRecord}
    (left : record :: outer <:+ registers.handlers) (handlers : after.handlers = record' :: outer)
    (same : { record' with phase := record.phase } = record) : after.Framed := by
  refine h.unwind unwinds nested fun other member => ?_
  rw [handlers] at member
  rcases List.mem_cons.mp member with rfl | member
  · refine ⟨record, left.subset List.mem_cons_self, ?_⟩
    rw [← same]
    exact ⟨rfl, rfl, rfl⟩
  · exact ⟨other, left.subset (List.mem_cons_of_mem _ member), rfl, rfl, rfl⟩

end Framed

end Registers

namespace Thread

variable {thread : Thread}

/-! ## Going back to a frame -/

/-- The frame of a construct is current again after a throw that it takes. -/
theorem activation?_of_framed (h : thread.registers.Framed) {record : TryRecord}
    (member : record ∈ thread.handlers) :
    thread.registers.activation? record.callDepth =
      some ⟨record.dp, record.moduleId, (thread.rewind record).frame⟩ := by
  have context := h.context record member
  rw [Registers.context?_eq] at context
  obtain ⟨active, found, same⟩ := Option.map_eq_some_iff.mp context
  obtain ⟨dp, moduleId⟩ := Prod.mk.inj same
  rw [found, ← dp, ← moduleId]
  refine congrArg some (congrArg (Activation.mk active.dp active.moduleId) ?_)
  unfold Thread.rewind
  dsimp only
  by_cases own : record.callDepth = thread.calls.size
  · rw [own] at found
    rw [own, Array.getElem?_eq_none (Nat.le_refl _)]
    rw [← Option.some.inj (thread.registers.activation?_here.symm.trans found)]
    rfl
  · rw [Registers.activation?_waiting _ own] at found
    obtain ⟨call, waits, same⟩ := Option.map_eq_some_iff.mp found
    have waits : thread.calls[record.callDepth]? = some call := waits
    rw [waits, ← same]

theorem size_calls_rewind (h : thread.registers.Nested) {record : TryRecord}
    (member : record ∈ thread.handlers) :
    (thread.rewind record).calls.size = record.callDepth := by
  have there : record.callDepth ≤ thread.calls.size := h.depth record member
  change (thread.calls.shrink record.callDepth).size = _
  rw [Array.size_shrink]
  exact Nat.min_eq_left there

theorem activation?_rewind (h : thread.registers.Framed) {record : TryRecord}
    (member : record ∈ thread.handlers) {depth : Nat} (le : depth ≤ record.callDepth) :
    (thread.rewind record).registers.activation? depth = thread.registers.activation? depth := by
  have size := size_calls_rewind h.nested member
  -- The frame of the construct becomes the current one; those below it wait as before.
  rcases Nat.eq_or_lt_of_le le with rfl | inside
  · rw [activation?_of_framed h member]
    conv_lhs => rw [← size]
    exact (thread.rewind record).registers.activation?_here
  · have there : record.callDepth ≤ thread.calls.size := h.nested.depth record member
    have waits : depth ≠ (thread.rewind record).calls.size := by omega
    have waits' : depth ≠ thread.calls.size := by omega
    rw [Registers.activation?_waiting _ waits, Registers.activation?_waiting _ waits']
    change (thread.calls.shrink record.callDepth)[depth]?.map _ = thread.calls[depth]?.map _
    rw [getElem?_shrink, if_pos inside]

theorem unwinds_rewind (h : thread.registers.Framed) {record : TryRecord}
    (member : record ∈ thread.handlers) :
    thread.registers.Unwinds (thread.rewind record).registers := by
  refine .of_activation? fun depth above _ => activation?_rewind h member ?_
  change depth ≤ (thread.calls.shrink record.callDepth).size at above
  rw [Array.size_shrink] at above
  omega

theorem activation?_popCall {call : CallRecord} (top : thread.calls.back? = some call) {depth : Nat}
    (le : depth ≤ thread.calls.pop.size) :
    (thread.popCall.restore call).registers.activation? depth =
      thread.registers.activation? depth := by
  rw [Array.back?_eq_getElem?] at top
  have inside := (Array.getElem?_eq_some_iff.mp top).1
  rw [Array.size_pop] at le
  have waits : depth ≠ thread.registers.calls.size :=
    Nat.ne_of_lt (show depth < thread.calls.size by omega)
  rw [Registers.activation?_waiting _ waits]
  change (if depth = thread.calls.pop.size then
      some (Activation.mk call.dp call.moduleId call.frame)
    else thread.calls.pop[depth]?.map _) = thread.calls[depth]?.map _
  rw [Array.size_pop]
  by_cases last : depth = thread.calls.size - 1
  · rw [if_pos last, last, top]
    rfl
  · rw [if_neg last, Array.getElem?_pop, if_pos (by omega)]

theorem unwinds_popCall {call : CallRecord} (top : thread.calls.back? = some call) :
    thread.registers.Unwinds (thread.popCall.restore call).registers :=
  .of_activation? fun _ above _ => activation?_popCall top above

theorem activation?_push (call : CallRecord) {after : Registers}
    (calls : after.calls = thread.calls.push call) (dp : call.dp = thread.dp)
    (moduleId : call.moduleId = thread.moduleId) (frame : call.frame = thread.frame) {depth : Nat}
    (le : depth ≤ thread.calls.size) :
    after.activation? depth = thread.registers.activation? depth := by
  have waits : depth ≠ after.calls.size := by
    rw [calls, Array.size_push]
    omega
  rw [Registers.activation?_waiting _ waits, calls, Array.getElem?_push]
  by_cases own : depth = thread.calls.size
  · rw [if_pos own, own]
    refine Eq.trans ?_ thread.registers.activation?_here.symm
    change some (Activation.mk call.dp call.moduleId call.frame) = _
    rw [dp, moduleId, frame]
    rfl
  · rw [if_neg own, Registers.activation?_waiting _ own]
    rfl

theorem unwinds_push (call : CallRecord) {after : Registers}
    (calls : after.calls = thread.calls.push call) (dp : call.dp = thread.dp)
    (moduleId : call.moduleId = thread.moduleId) (frame : call.frame = thread.frame) :
    thread.registers.Unwinds after :=
  .of_activation? fun _ _ below => activation?_push call calls dp moduleId frame below

/-! ## Each instruction -/

theorem framed_enterFinally (h : thread.registers.Framed) (exit : ExitAction) :
    (thread.enterFinally exit).registers.Framed := by
  have nested := nested_enterFinally h.nested exit
  unfold enterFinally at nested ⊢
  split
  · next record outer found =>
      rw [found] at nested
      have all : record :: outer <:+ thread.handlers := found ▸ List.suffix_rfl
      exact h.of_phase (.of_same rfl rfl rfl) nested all rfl rfl
  · exact h

theorem framed_branchTo (h : thread.registers.Framed) (target : Nat) :
    (thread.branchTo target).registers.Framed := by
  unfold branchTo
  split
  · split
    · exact h.withIp target
    · exact framed_enterFinally h _
  · exact h.withIp target

theorem Returns.framed {form : ReturnForm} {after : Registers} {signal : Signal}
    (hr : thread.Returns form after signal) (h : thread.registers.Framed) : after.Framed := by
  have nested := hr.nested h.nested
  cases hr with
  | deferred intercepted => exact framed_enterFinally h _
  | left free bottom => exact h
  | popped free top =>
      exact h.suffix (unwinds_popCall top) nested (List.dropWhile_suffix _)

theorem Raises.framed {exception : Value} {after : Registers}
    (hr : thread.Raises exception after) (h : thread.registers.Framed) : after.Framed := by
  have nested := hr.nested h.nested
  have left {record : TryRecord} {outer : List TryRecord}
      (found : thread.handlers.dropWhile (·.phase.isInFinally) = record :: outer) :
      record :: outer <:+ thread.handlers := found ▸ List.dropWhile_suffix _
  cases hr with
  | @caught record outer onCatch found phase there =>
      exact h.of_phase (unwinds_rewind h ((left found).subset List.mem_cons_self)) nested
        (left found) rfl rfl
  | @passed record outer found only =>
      exact h.of_phase (unwinds_rewind h ((left found).subset List.mem_cons_self)) nested
        (left found) rfl rfl

theorem CarriesOut.framed {exit : ExitAction} {after : Registers} {signal : Signal}
    (hc : thread.CarriesOut exit after signal) (h : thread.registers.Framed) : after.Framed := by
  cases exit with
  | fallThrough => exact hc.1 ▸ h
  | ret | retValue | retConstructor => exact Returns.framed hc h
  | branch target => exact hc.1 ▸ framed_branchTo h target
  | rethrow exception => exact hc.1.framed h

theorem Enters.framed {setup : Setup} {returnIp : Nat} {after : Registers}
    (he : thread.Enters setup returnIp after) (h : thread.registers.Framed) : after.Framed := by
  have nested := he.nested h.nested
  obtain ⟨kind, dp, -, -, -⟩ := he
  exact h.suffix (unwinds_push _ rfl rfl rfl rfl) nested List.suffix_rfl

/-- Every instruction leaves every construct in its frame. -/
theorem Moves.framed {setup : Setup} {instruction : Instruction} {after : Registers}
    {signal : Signal} (hm : thread.Moves setup instruction after signal)
    (h : thread.registers.Framed) : after.Framed := by
  have nested := hm.nested h.nested
  cases hm.shifts with
  | stays => exact h
  | branches => exact framed_branchTo h _
  | returns returns => exact returns.framed h
  | enters _ enters => exact enters.framed h
  | tries =>
      refine ⟨nested, fun record member => ?_⟩
      rcases List.mem_cons.mp member with rfl | member
      · exact Registers.context?_here thread.registers
      · exact h.context record member
  | turns => exact framed_enterFinally h _
  | ends _ _ _ out => exact CarriesOut.framed out h.tail
  | raises raises => exact raises.framed h

end Thread

namespace Machine

/-- In all threads of all reachable machines, the constructs keep the contexts of their frames. -/
theorem Reachable.framed {setup : Setup} {machine : Machine}
    (reachable : Reachable setup machine) :
    ∀ thread ∈ machine.roster.threads, thread.registers.Framed :=
  reachable.registers ⟨⟨.nil, nofun⟩, nofun⟩ fun framed _ behind moves _ =>
    moves.framed (behind ▸ framed.withIp _)

theorem Executes.framed {setup : Setup} {machine : Machine} {instruction : Instruction}
    {scene next : Scene} {signal : Signal}
    (executes : machine.Executes setup instruction scene signal next)
    (reachable : Reachable setup machine) : scene.thread.registers.Framed := by
  obtain ⟨⟨current, ready, rfl⟩, -⟩ := executes
  obtain ⟨⟨old, member, -, -, behind⟩, -⟩ := ready_eq_execute ready
  exact behind ▸ (reachable.framed old member).withIp _

end Machine

end ObjectMachine
