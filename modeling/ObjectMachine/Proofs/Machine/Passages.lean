import ObjectMachine.Proofs.Machine.Invocations
import ObjectMachine.Proofs.Program.Carried

/-!
# Passages of a thread

In a passage a thread executes instructions that neither look at the world nor change it, and that
ask nothing of the scheduler. So whatever the other threads do in the meantime, it gets to the same
place with the same stack. Constants, locals, subtractions and branches make up such passages.
-/

namespace ObjectMachine

namespace Thread

def standing (address : Nat) (values : List Value) (thread : Thread) : Thread :=
  { thread with
    ip := address
    stack := { thread.stack with slots := thread.stack.slots ++ values.toArray } }

def storing (slot : UInt32) (value : Value) (thread : Thread) : Thread :=
  { thread with
    stack := { thread.stack with
      slots := thread.stack.slots.setIfInBounds (thread.dp + slot.toNat) value } }

def slot? (slot : UInt32) (thread : Thread) : Option Value :=
  thread.stack.get? (thread.dp + slot.toNat)

theorem slot?_storing {thread : Thread} {slot : UInt32} {value : Value}
    (inside : thread.dp + slot.toNat < thread.stack.depth) :
    (thread.storing slot value).slot? slot = some value :=
  Array.getElem?_setIfInBounds_self_of_lt inside

theorem depth_storing (thread : Thread) (slot : UInt32) (value : Value) :
    (thread.storing slot value).stack.depth = thread.stack.depth :=
  Array.size_setIfInBounds

end Thread

/-! ## Passages -/

/-- Whether so many instructions lead from one thread to another, in whatever state it waits for its
turns and whatever the world is then. -/
inductive Passes (setup : Setup) (start : Thread) : Nat → Thread → Prop
  | start : Passes setup start 0 start
  | step {count : Nat} {thread next : Thread} {instruction : Instruction} :
      Passes setup start count thread → setup.program.code.fetch thread.ip = .ok instruction →
      (∀ state world, Step.execute instruction setup
          ⟨{ thread with ip := instruction.offset + instruction.size, state }, world⟩ =
        .ok .proceed ⟨{ next with state }, world⟩) →
      Passes setup start (count + 1) next

namespace Passes

variable {setup : Setup} {start thread last : Thread} {count more : Nat}

theorem trans (h : Passes setup start count thread) (h' : Passes setup thread more last) :
    Passes setup start (count + more) last := by
  induction h' with
  | start => exact h
  | step _ fetched executes ih => exact ih.step fetched executes

/-- What a thread does is what its passage says, as long as nothing is put on its stack while it
waits. The world is not changed. -/
theorem of_strand {deeds : List Deed} {stack : Stack} (strand : Strand setup start deeds thread)
    (h : Passes setup start deeds.length last)
    (undisturbed : start.stack.Undisturbed (deeds.map Deed.act) stack) :
    ({ thread with stack } : Thread).Idles last ∧
      ∀ deed ∈ deeds, deed.left.world = deed.found.world := by
  induction strand generalizing last stack with
  | start =>
      obtain rfl : stack = start.stack := undisturbed
      cases h
      exact ⟨.refl _, fun _ member => absurd member List.not_mem_nil⟩
  | @step deeds before deed _ done ih =>
      rw [List.length_append, List.length_singleton] at h
      rw [List.map_append] at undisturbed
      obtain ⟨earlier, rfl⟩ := Stack.undisturbed_concat.mp undisturbed
      cases h with
      | @step _ between _ instruction passes fetched executes =>
          obtain ⟨idles, kept⟩ := ih passes earlier
          have same : deed.instruction = instruction := by
            have found := done.fetched
            rw [show before.ip = between.ip from congrArg Registers.ip idles.registers] at found
            exact Except.ok.inj (found.symm.trans fetched)
          have found : deed.found = ⟨{ between with
              ip := instruction.offset + instruction.size
              state := deed.found.thread.state }, deed.found.world⟩ := by
            have behind := done.waits.eq
            rw [same] at behind
            have resumed := congrArg (fun thread : Thread => { thread with
              ip := instruction.offset + instruction.size
              state := deed.found.thread.state }) idles.eq
            exact congrArg (Scene.mk · deed.found.world) (behind.trans resumed)
          have executed := done.executed
          rw [found, same, executes] at executed
          injection executed with signal left
          have answered := done.answered
          rw [← signal, ← left] at answered
          refine ⟨?_, fun other member => ?_⟩
          · cases answered with
            | idles _ _ waits => exact waits.trans ⟨rfl⟩
          · rcases List.mem_append.mp member with earlier | new
            · exact kept other earlier
            · rw [List.mem_singleton.mp new, ← left]

/-- In every run a thread gets to where its passage leads once it has had so many turns. -/
theorem of_course {first machine : Machine} {acts : List Act}
    (course : Machine.Course setup first start acts machine thread)
    (h : Passes setup start acts.length last)
    (undisturbed : start.stack.Undisturbed acts thread.stack) : thread.Idles last := by
  obtain ⟨deeds, waiting, strand, waits, rfl⟩ := course.exists_strand
  rw [List.length_map] at h
  refine Thread.Idles.trans ?_ (of_strand strand h undisturbed).1
  exact ⟨by rw [waits.eq]⟩

end Passes

/-! ## Instructions of a passage -/

def Instruction.caseFor (distances : List Int32) (number : Int) (instruction : Instruction) :
    Option Nat :=
  if 0 ≤ number then distances[number.toNat]?.map instruction.target else none

namespace Step

variable {setup : Setup} (thread : Thread) {world : World} {instruction : Instruction}
  {address : Nat} {values : List Value} {value : Value} {slot : UInt32}

theorem pop_standing (values : List Value) (value : Value) :
    pop setup ⟨thread.standing address (values ++ [value]), world⟩ =
      .ok value ⟨thread.standing address values, world⟩ := by
  have pops : pop setup (Scene.holding (values ++ [value]) ⟨{ thread with ip := address }, world⟩) =
      _ := pop_holding values value
  exact pops

theorem push_standing (value : Value)
    (room : thread.stack.depth + values.length < thread.stack.limit) :
    push value setup ⟨thread.standing address values, world⟩ =
      .ok () ⟨thread.standing address (values ++ [value]), world⟩ := by
  have pushes : push value setup (Scene.holding values ⟨{ thread with ip := address }, world⟩) =
      _ := push_holding value room
  exact pushes

theorem jump_standing (free : thread.interceptor? = none) (target : Nat) :
    jump target setup ⟨thread.standing address values, world⟩ =
      .ok () ⟨thread.standing target values, world⟩ := by
  have same : (thread.standing address values).branchTo target =
      thread.standing target values := by
    have outside : (thread.standing address values).interceptor? = none := free
    rw [Thread.branchTo, outside]
    rfl
  exact congrArg (fun thread => EStateM.Result.ok () (Scene.mk thread world)) same

theorem storeLocal_standing (inside : thread.dp + slot.toNat < thread.stack.depth) :
    storeLocal slot setup ⟨thread.standing address [value], world⟩ =
      .ok () ⟨(thread.storing slot value).standing address [], world⟩ := by
  have size : (thread.standing address []).stack.slots = thread.stack.slots := Array.append_empty
  have puts : onStack (Stack.put (thread.dp + slot.toNat) value) setup
      ⟨thread.standing address [], world⟩ =
        .ok true ⟨(thread.storing slot value).standing address [], world⟩ := by
    refine onStack_eq_ok_iff.mpr ⟨_, if_pos (size ▸ inside), ?_⟩
    rw [size]
    unfold Thread.standing Thread.storing
    dsimp only
    rw [Array.append_empty]
  unfold storeLocal
  refine (bind_of_ok (pop_standing thread [] value)).trans ?_
  exact bind_of_ok puts

theorem loadLocal_standing (held : thread.slot? slot = some value)
    (room : thread.stack.depth < thread.stack.limit) :
    loadLocal slot setup ⟨thread.standing address [], world⟩ =
      .ok () ⟨thread.standing address [value], world⟩ := by
  have same : (thread.standing address []).stack.get? (thread.dp + slot.toNat) = some value := by
    unfold Thread.standing Stack.get?
    dsimp only
    rw [Array.append_empty]
    exact held
  have looks : ofThread (fun thread => thread.stack.get? (thread.dp + slot.toNat)) setup
      ⟨thread.standing address [], world⟩ = .ok (some value) ⟨thread.standing address [], world⟩ :=
    congrArg (EStateM.Result.ok · _) same
  unfold loadLocal
  exact (bind_of_ok looks).trans (push_standing thread value room)

theorem subtract_standing {a b : Value} (computes : Value.arithmetic .sub a b = .ok value)
    (room : thread.stack.depth < thread.stack.limit) :
    arithmetic .sub setup ⟨thread.standing address [a, b], world⟩ =
      .ok () ⟨thread.standing address [value], world⟩ := by
  have given : require (Value.arithmetic .sub a b) setup ⟨thread.standing address [], world⟩ =
      .ok value ⟨thread.standing address [], world⟩ := by
    rw [computes]
    rfl
  unfold arithmetic binary
  refine (bind_of_ok (pop_standing thread [a] b)).trans ?_
  refine (bind_of_ok (pop_standing thread [] a)).trans ?_
  exact (bind_of_ok given).trans (push_standing thread value room)

theorem jumpIfCompare_standing {a b : Value} {op : ComparisonOp} {holds : Bool}
    (compares : Value.comparison op a b = .ok holds) (free : thread.interceptor? = none)
    (target : Nat) :
    jumpIfCompare op target setup ⟨thread.standing address [a, b], world⟩ =
      .ok () ⟨thread.standing (if holds then target else address) [], world⟩ := by
  unfold jumpIfCompare
  refine (bind_of_ok (pop_standing thread [a] b)).trans ?_
  refine (bind_of_ok (pop_standing thread [] a)).trans ?_
  rw [compares]
  cases holds with
  | true => exact jump_standing thread free target
  | false => rfl

theorem jumpByCase_standing {number : Int64} {distances : List Int32}
    (whole : value.asInteger? = some number) (table : instruction.operand = .table distances)
    (free : thread.interceptor? = none) :
    jumpByCase instruction setup ⟨thread.standing address [value], world⟩ =
      .ok () ⟨thread.standing ((instruction.caseFor distances number.toInt).getD address) [],
        world⟩ := by
  unfold jumpByCase
  refine (bind_of_ok (pop_standing thread [] value)).trans ?_
  rw [whole, table, Instruction.caseFor]
  dsimp only
  split
  · cases distances[number.toInt.toNat]? with
    | some distance => exact jump_standing thread free _
    | none => rfl
  · rfl

end Step

/-! ## Carried instructions -/

namespace Passes

open Emission

variable {setup : Setup} {lies : Label → Nat → Prop} {address : Nat} {parts : List Part}
  {thread : Thread} {values : List Value} {value a b : Value} {slot : UInt32}

theorem one {instruction : Instruction} {next : Thread}
    (fetched : setup.program.code.fetch address = .ok instruction)
    (executes : ∀ state world, Step.execute instruction setup
        ⟨({ thread with state } : Thread).standing (instruction.offset + instruction.size) values,
          world⟩ = .ok .proceed ⟨{ next with state }, world⟩) :
    Passes setup (thread.standing address values) 1 next :=
  .step .start fetched executes

theorem storeLocal (inside : thread.dp + slot.toNat < thread.stack.depth)
    (carries : setup.program.code.Carries lies address (Call.indexed .storeLocal slot :: parts)) :
    ∃ behind, setup.program.code.Carries lies behind parts ∧
      Passes setup (thread.standing address [value]) 1
        ((thread.storing slot value).standing behind []) := by
  obtain ⟨instruction, distances, fetched, opcode, operand, -, carries⟩ := carries
  have index : instruction.index = slot := by
    rw [Instruction.index, operand]
    rfl
  refine ⟨_, carries, one fetched fun state world => ?_⟩
  unfold Step.execute
  rw [opcode, index]
  exact Step.bind_of_ok (Step.storeLocal_standing { thread with state } inside)

theorem loadLocal (held : thread.slot? slot = some value)
    (room : thread.stack.depth < thread.stack.limit)
    (carries : setup.program.code.Carries lies address (Call.indexed .loadLocal slot :: parts)) :
    ∃ behind, setup.program.code.Carries lies behind parts ∧
      Passes setup (thread.standing address []) 1 (thread.standing behind [value]) := by
  obtain ⟨instruction, distances, fetched, opcode, operand, -, carries⟩ := carries
  have index : instruction.index = slot := by
    rw [Instruction.index, operand]
    rfl
  refine ⟨_, carries, one fetched fun state world => ?_⟩
  unfold Step.execute
  rw [opcode, index]
  exact Step.bind_of_ok (Step.loadLocal_standing { thread with state } held room)

theorem pushInt {number : Int32}
    (room : thread.stack.depth + values.length < thread.stack.limit)
    (carries : setup.program.code.Carries lies address
      (Call.plain .pushInt (.int number) :: parts)) :
    ∃ behind, setup.program.code.Carries lies behind parts ∧
      Passes setup (thread.standing address values) 1
        (thread.standing behind (values ++ [.int number])) := by
  obtain ⟨instruction, distances, fetched, opcode, operand, -, carries⟩ := carries
  have constant : instruction.constant = .int number := by
    rw [Instruction.constant, operand]
    rfl
  refine ⟨_, carries, one fetched fun state world => ?_⟩
  unfold Step.execute
  rw [opcode, constant]
  exact Step.bind_of_ok (Step.push_standing { thread with state } _ room)

theorem subtract (computes : Value.arithmetic .sub a b = .ok value)
    (room : thread.stack.depth < thread.stack.limit)
    (carries : setup.program.code.Carries lies address (Call.plain .sub .absent :: parts)) :
    ∃ behind, setup.program.code.Carries lies behind parts ∧
      Passes setup (thread.standing address [a, b]) 1 (thread.standing behind [value]) := by
  obtain ⟨instruction, distances, fetched, opcode, operand, -, carries⟩ := carries
  refine ⟨_, carries, one fetched fun state world => ?_⟩
  unfold Step.execute
  rw [opcode]
  exact Step.bind_of_ok (Step.subtract_standing { thread with state } computes room)

theorem jump {label : Label} (free : thread.interceptor? = none)
    (carries : setup.program.code.Carries lies address (Call.branching .jmp label :: parts)) :
    ∃ target, lies label target ∧
      Passes setup (thread.standing address values) 1 (thread.standing target values) := by
  obtain ⟨instruction, distances, fetched, opcode, operand, leads, -⟩ := carries
  refine ⟨_, leads _ (List.mem_singleton_self _) label rfl, one fetched fun state world => ?_⟩
  unfold Step.execute
  rw [opcode, operand]
  exact Step.bind_of_ok (Step.jump_standing { thread with state } free _)

theorem jumpIfEqual {label : Label} {holds : Bool}
    (compares : Value.comparison .eq a b = .ok holds) (free : thread.interceptor? = none)
    (carries : setup.program.code.Carries lies address (Call.branching .jce label :: parts)) :
    ∃ behind target, setup.program.code.Carries lies behind parts ∧ lies label target ∧
      Passes setup (thread.standing address [a, b]) 1
        (thread.standing (if holds then target else behind) []) := by
  obtain ⟨instruction, distances, fetched, opcode, operand, leads, carries⟩ := carries
  refine ⟨_, _, carries, leads _ (List.mem_singleton_self _) label rfl,
    one fetched fun state world => ?_⟩
  unfold Step.execute
  rw [opcode, operand]
  exact Step.bind_of_ok
    (Step.jumpIfCompare_standing { thread with state } compares free _)

variable {labels : List Label} {number : Int64}

theorem jumpByCase {label : Label} (whole : value.asInteger? = some number)
    (positive : 0 ≤ number.toInt) (listed : labels[number.toInt.toNat]? = some label)
    (free : thread.interceptor? = none)
    (carries : setup.program.code.Carries lies address
      (.put .caseOf .wide (.cases labels) :: parts)) :
    ∃ target, lies label target ∧
      Passes setup (thread.standing address [value]) 1 (thread.standing target []) := by
  obtain ⟨instruction, distances, fetched, opcode, operand, leads, -⟩ := carries
  have slot : (Destination.label label, number.toInt.toNat) ∈ (Form.cases labels).slots := by
    refine List.mk_mem_zipIdx_iff_getElem?.mpr ?_
    rw [List.getElem?_map, listed]
    rfl
  have selects : instruction.caseFor (labels.map fun label => distances (.label label))
      number.toInt = some (instruction.target (distances (.label label))) := by
    rw [Instruction.caseFor, if_pos positive, List.getElem?_map, listed]
    rfl
  refine ⟨_, leads _ slot label rfl, one fetched fun state world => ?_⟩
  unfold Step.execute
  rw [opcode]
  refine (Step.bind_of_ok
    (Step.jumpByCase_standing { thread with state } whole operand free)).trans ?_
  rw [selects]
  rfl

theorem passByCase (whole : value.asInteger? = some number)
    (outside : 0 ≤ number.toInt → labels.length ≤ number.toInt.toNat)
    (free : thread.interceptor? = none)
    (carries : setup.program.code.Carries lies address
      (.put .caseOf .wide (.cases labels) :: parts)) :
    ∃ behind, setup.program.code.Carries lies behind parts ∧
      Passes setup (thread.standing address [value]) 1 (thread.standing behind []) := by
  obtain ⟨instruction, distances, fetched, opcode, operand, -, carries⟩ := carries
  have selects : instruction.caseFor (labels.map fun label => distances (.label label))
      number.toInt = none := by
    unfold Instruction.caseFor
    split
    · next positive =>
        rw [List.getElem?_eq_none (by rw [List.length_map]; exact outside positive),
          Option.map_none]
    · rfl
  refine ⟨_, carries, one fetched fun state world => ?_⟩
  unfold Step.execute
  rw [opcode]
  refine (Step.bind_of_ok
    (Step.jumpByCase_standing { thread with state } whole operand free)).trans ?_
  rw [selects]
  rfl

end Passes

end ObjectMachine
