import Mathlib.Data.List.TakeWhile
import ObjectMachine.Proofs.Machine.Frames

/-!
# The frames around the current one

While a frame is there, whatever its code does leaves the frames around it as they are: their data
pointers, modules and return addresses, and the try constructs that they have entered. A return
from a frame that it has called, or a throw that comes out of such a frame, makes it current again
as it was.
-/

namespace ObjectMachine

namespace Registers

def outerTries (registers : Registers) (depth : Nat) : List TryRecord :=
  registers.handlers.filter (·.callDepth < depth)

/-- Whether the frame at a depth is still the same one, and so are those around it. -/
structure SameUpTo (depth : Nat) (registers after : Registers) : Prop where
  calls : ∀ place < depth, after.calls[place]? = registers.calls[place]?
  activation : after.activation? depth = registers.activation? depth
  outer : after.outerTries depth = registers.outerTries depth

variable {registers after : Registers} {depth : Nat}

/-- The innermost constructs are of no concern to a frame if they have been entered in it, or in
frames that it has called. -/
theorem outerTries_of_append (left : List TryRecord) {right : List TryRecord}
    (all : registers.handlers = left ++ right) (inner : ∀ record ∈ left, depth ≤ record.callDepth) :
    registers.outerTries depth = right.filter (·.callDepth < depth) := by
  have none : left.filter (·.callDepth < depth) = [] := by
    rw [List.filter_eq_nil_iff]
    intro record member
    have := inner record member
    simpa using this
  rw [outerTries, all, List.filter_append, none, List.nil_append]

/-- The constructs of the frames around the one that a call has entered are all those of the
caller. -/
theorem Nested.outerTries_of_lt (h : registers.Nested) (lt : registers.calls.size < depth) :
    registers.outerTries depth = registers.handlers := by
  refine List.filter_eq_self.mpr fun record member => ?_
  have := h.depth record member
  simp only [decide_eq_true_eq]
  omega

namespace SameUpTo

theorem refl (registers : Registers) : SameUpTo depth registers registers :=
  ⟨fun _ _ => rfl, rfl, rfl⟩

theorem trans {last : Registers} (h : SameUpTo depth registers after)
    (h' : SameUpTo depth after last) : SameUpTo depth registers last where
  calls place inside := (h'.calls place inside).trans (h.calls place inside)
  activation := h'.activation.trans h.activation
  outer := h'.outer.trans h.outer

/-- The frame at a depth is current in both, and the calls around it are the same. -/
theorem calls_eq (h : SameUpTo depth registers after) (here : registers.calls.size = depth)
    (here' : after.calls.size = depth) : after.calls = registers.calls := by
  refine Array.ext_getElem? fun place => ?_
  by_cases inside : place < depth
  · exact h.calls place inside
  · rw [Array.getElem?_eq_none (by omega), Array.getElem?_eq_none (by omega)]

theorem current_eq (h : SameUpTo depth registers after) (here : registers.calls.size = depth)
    (here' : after.calls.size = depth) :
    after.dp = registers.dp ∧ after.moduleId = registers.moduleId ∧
      after.frame = registers.frame := by
  have same := h.activation
  rw [← here', activation?_here, here', ← here, activation?_here] at same
  simpa using same

/-- A frame that a call has entered still has the constructs of the caller around it. -/
theorem outerTries_eq {caller : Registers} (h : SameUpTo depth registers after)
    (nested : caller.Nested) (handlers : registers.handlers = caller.handlers)
    (deeper : caller.calls.size < depth) : after.outerTries depth = caller.handlers :=
  calc after.outerTries depth
      = registers.outerTries depth := h.outer
    _ = caller.outerTries depth := congrArg (List.filter _) handlers
    _ = caller.handlers := nested.outerTries_of_lt deeper

end SameUpTo

end Registers

namespace Thread

open Registers

variable {thread : Thread} {depth : Nat}

/-! ## Each instruction -/

theorem sameUpTo_enterFinally {record : TryRecord} (current : thread.currentTry? = some record)
    (inside : depth ≤ thread.calls.size) (exit : ExitAction) :
    SameUpTo depth thread.registers (thread.enterFinally exit).registers := by
  obtain ⟨outer, found, own⟩ := currentTry?_eq_some.mp current
  have all : thread.registers.handlers = [record] ++ outer := found
  unfold enterFinally
  rw [found]
  refine ⟨fun _ _ => rfl, rfl, ?_⟩
  rw [outerTries_of_append _ all (by simpa [own] using inside)]
  exact outerTries_of_append [{ record with phase := .inFinally exit }] rfl
    (by simpa [own] using inside)

theorem sameUpTo_branchTo (inside : depth ≤ thread.calls.size) (target : Nat) :
    SameUpTo depth thread.registers (thread.branchTo target).registers := by
  unfold branchTo
  cases within : thread.interceptor? with
  | none => exact ⟨fun _ _ => rfl, rfl, rfl⟩
  | some record =>
      dsimp only
      split
      · exact ⟨fun _ _ => rfl, rfl, rfl⟩
      · exact sameUpTo_enterFinally (Option.filter_eq_some_iff.mp within).1 inside _

theorem outerTries_popCall (call : CallRecord) (left : depth ≤ thread.calls.pop.size) :
    (thread.popCall.restore call).registers.outerTries depth =
      thread.registers.outerTries depth := by
  have split : thread.registers.handlers =
      thread.handlers.takeWhile (thread.calls.pop.size < ·.callDepth) ++
        thread.popCall.handlers :=
    List.takeWhile_append_dropWhile.symm
  refine (outerTries_of_append _ split fun record member => ?_).symm
  have := List.mem_takeWhile_imp member
  simp only [decide_eq_true_eq] at this
  omega

theorem Returns.sameUpTo {form : ReturnForm} {after : Registers} {signal : Signal}
    (hr : thread.Returns form after signal) (inside : depth ≤ thread.calls.size)
    (left : depth ≤ after.calls.size) : SameUpTo depth thread.registers after := by
  cases hr with
  | deferred intercepted =>
      obtain ⟨record, within⟩ := Option.isSome_iff_exists.mp intercepted
      exact sameUpTo_enterFinally (Option.filter_eq_some_iff.mp within).1 inside _
  | left => exact .refl _
  | @popped call free top =>
      change depth ≤ thread.calls.pop.size at left
      refine ⟨fun place there => ?_, activation?_popCall top left, outerTries_popCall call left⟩
      change thread.calls.pop[place]? = thread.calls[place]?
      rw [Array.size_pop] at left
      rw [Array.getElem?_pop, if_pos (by omega)]

theorem sameUpTo_rewind (h : thread.registers.Framed) {record : TryRecord}
    {outer : List TryRecord}
    (found : thread.handlers.dropWhile (·.phase.isInFinally) = record :: outer)
    (left : depth ≤ record.callDepth) (record' : TryRecord)
    (same : record'.callDepth = record.callDepth) (ip : Nat) :
    SameUpTo depth thread.registers
      { (thread.rewind record).registers with handlers := record' :: outer, ip } := by
  have suffix : record :: outer <:+ thread.handlers := found ▸ List.dropWhile_suffix _
  have member : record ∈ thread.handlers := suffix.subset List.mem_cons_self
  have there : record.callDepth ≤ thread.calls.size := h.nested.depth record member
  refine ⟨fun place inside => ?_, activation?_rewind h member left, ?_⟩
  · change (thread.calls.shrink record.callDepth)[place]? = thread.calls[place]?
    rw [getElem?_shrink, if_pos (Nat.lt_of_lt_of_le inside left)]
  · -- The constructs that the throw leaves lie in the frame of the one that takes it, or deeper.
    have split : thread.registers.handlers =
        (thread.handlers.takeWhile (·.phase.isInFinally) ++ [record]) ++ outer := by
      rw [List.append_assoc, List.singleton_append, ← found]
      exact List.takeWhile_append_dropWhile.symm
    have order := h.nested.order
    rw [split, List.append_assoc] at order
    have before : outerTries { (thread.rewind record).registers with
        handlers := record' :: outer, ip } depth = outer.filter (·.callDepth < depth) :=
      outerTries_of_append [record'] rfl (by simpa [same] using left)
    rw [before]
    refine (outerTries_of_append _ split fun other inner => ?_).symm
    rcases List.mem_append.mp inner with inner | inner
    · have above := (List.pairwise_append.mp order).2.2 other inner record
        (List.mem_append_left _ List.mem_cons_self)
      omega
    · rw [List.mem_singleton.mp inner]
      exact left

theorem Raises.sameUpTo {exception : Value} {after : Registers}
    (hr : thread.Raises exception after) (h : thread.registers.Framed)
    (left : depth ≤ after.calls.size) : SameUpTo depth thread.registers after := by
  have size {record : TryRecord} {outer : List TryRecord}
      (found : thread.handlers.dropWhile (·.phase.isInFinally) = record :: outer)
      (left : depth ≤ (thread.rewind record).calls.size) : depth ≤ record.callDepth := by
    have suffix : record :: outer <:+ thread.handlers := found ▸ List.dropWhile_suffix _
    rwa [size_calls_rewind h.nested (suffix.subset List.mem_cons_self)] at left
  cases hr with
  | @caught record _ _ found =>
      exact sameUpTo_rewind h found (size found left)
        { record with phase := .inCatch exception } rfl _
  | @passed record _ found =>
      exact sameUpTo_rewind h found (size found left)
        { record with phase := .inFinally (.rethrow exception) } rfl _

theorem Enters.sameUpTo {setup : Setup} {returnIp : Nat} {after : Registers}
    (he : thread.Enters setup returnIp after) (inside : depth ≤ thread.calls.size) :
    SameUpTo depth thread.registers after := by
  obtain ⟨kind, dp, -, -, -⟩ := he
  refine ⟨fun place there => ?_, activation?_push _ rfl rfl rfl rfl inside, rfl⟩
  change (thread.calls.push _)[place]? = thread.calls[place]?
  rw [Array.getElem?_push, if_neg (by omega)]

theorem CarriesOut.sameUpTo {exit : ExitAction} {after : Registers} {signal : Signal}
    (hc : thread.CarriesOut exit after signal) (h : thread.registers.Framed)
    (inside : depth ≤ thread.calls.size) (left : depth ≤ after.calls.size) :
    SameUpTo depth thread.registers after := by
  cases exit with
  | fallThrough => exact hc.1 ▸ .refl _
  | ret | retValue | retConstructor => exact Returns.sameUpTo hc inside left
  | branch target => exact hc.1 ▸ sameUpTo_branchTo inside target
  | rethrow exception => exact hc.1.sameUpTo h left

/-- No instruction changes the frames that it neither enters nor leaves. -/
theorem Moves.sameUpTo {setup : Setup} {instruction : Instruction} {after : Registers}
    {signal : Signal} (hm : thread.Moves setup instruction after signal)
    (h : thread.registers.Framed) (inside : depth ≤ thread.calls.size)
    (left : depth ≤ after.calls.size) : SameUpTo depth thread.registers after := by
  cases hm.shifts with
  | stays => exact .refl _
  | branches => exact sameUpTo_branchTo inside _
  | returns returns => exact returns.sameUpTo inside left
  | enters _ enters => exact enters.sameUpTo inside
  | tries =>
      refine ⟨fun _ _ => rfl, rfl, ?_⟩
      exact outerTries_of_append [thread.entered instruction] rfl
        (by simpa [entered] using inside)
  | turns current => exact sameUpTo_enterFinally current inside _
  | @ends record exit after _ current _ out =>
      obtain ⟨outer, found, own⟩ := currentTry?_eq_some.mp current
      have rest := CarriesOut.sameUpTo out h.tail inside left
      refine ⟨rest.calls, rest.activation, rest.outer.trans ?_⟩
      have all : thread.registers.handlers = [record] ++ outer := found
      rw [outerTries_of_append _ all (by simpa [own] using inside)]
      change thread.handlers.tail.filter _ = _
      rw [found, List.tail_cons]
  | raises raises => exact raises.sameUpTo h left

end Thread

end ObjectMachine
