import ObjectMachine.Proofs.Machine.Conventions
import ObjectMachine.Proofs.Machine.Isolation
import ObjectMachine.Proofs.Machine.Loading
import ObjectMachine.Proofs.Program.Entry

/-!
# Threads in the entry sequence

Outside of all methods a thread is in the entry sequence. It goes through that from the beginning,
and comes back to it from the initializer of the main class, to load the class once more, and from
the main method, to exit. How high its stack is at most is known until the main method is called.
-/

namespace ObjectMachine

namespace Thread

variable {setup : Setup} {thread : Thread} {instruction : Instruction} {after : Registers}
  {signal : Signal}

theorem Raises.exists_handler {exception : Value} (h : thread.Raises exception after)
    (nested : thread.registers.Nested) :
    ∃ record ∈ thread.handlers, after.calls.size = record.callDepth := by
  have inside {record : TryRecord} {outer : List TryRecord}
      (found : thread.handlers.dropWhile (·.phase.isInFinally) = record :: outer) :
      record ∈ thread.handlers ∧ (thread.rewind record).calls.size = record.callDepth := by
    have member : record ∈ thread.handlers :=
      (List.dropWhile_suffix _).subset (found ▸ List.mem_cons_self)
    exact ⟨member, size_calls_rewind nested member⟩
  cases h with
  | caught found => exact ⟨_, (inside found).1, (inside found).2⟩
  | passed found => exact ⟨_, (inside found).1, (inside found).2⟩

/-- An instruction that leaves the current frame returns from it, unless a construct of a frame
around takes what it throws. -/
theorem Moves.exists_returned (h : thread.Moves setup instruction after signal)
    (nested : thread.registers.Nested) (pops : after.calls.size < thread.calls.size)
    (deep : ∀ record ∈ thread.handlers, after.calls.size < record.callDepth)
    (operand : instruction.opcode = .retVal → ∃ value, thread.stack.slots.back? = some value) :
    ∃ returner form, thread.returned? instruction = some (returner, form) := by
  have unthrown {other : Thread} {exception : Value} (raises : other.Raises exception after)
      (left : other.handlers <:+ thread.handlers) (calls : other.calls = thread.calls) : False := by
    have nested' : other.registers.Nested :=
      nested.suffix left (Nat.le_of_eq (congrArg Array.size calls.symm))
    obtain ⟨record, member, depth⟩ := raises.exists_handler nested'
    exact absurd depth (Nat.ne_of_lt (deep record (left.subset member)))
  have stays (calls : after.calls = thread.calls) : False := by
    rw [calls] at pops
    exact Nat.lt_irrefl _ pops
  unfold returned?
  unfold Moves at h
  cases opcode : instruction.opcode with
  | ret => exact ⟨_, _, rfl⟩
  | retVal =>
      obtain ⟨value, top⟩ := operand opcode
      rw [top]
      exact ⟨_, _, rfl⟩
  | retCtor => exact ⟨_, _, rfl⟩
  | leaveFinally =>
      rw [opcode] at h
      obtain ⟨record, exit, current, phase, out⟩ := h
      rw [current, Option.map_some, phase]
      cases exit with
      | ret | retValue | retConstructor => exact ⟨_, _, rfl⟩
      | fallThrough => exact (stays (congrArg Registers.calls out.1)).elim
      | branch target =>
          exact (stays ((congrArg Registers.calls out.1).trans (calls_branchTo target))).elim
      | rethrow exception => exact (unthrown out.1 (List.tail_suffix _) rfl).elim
  | raise =>
      rw [opcode] at h
      obtain ⟨exception, raises⟩ := h
      exact (unthrown raises List.suffix_rfl rfl).elim
  | reraise =>
      rw [opcode] at h
      obtain ⟨record, exception, current, phase, rfl⟩ := h
      exact (unthrown (raises_of_reraise current phase) List.suffix_rfl rfl).elim
  | call | invoke | loadClass =>
      rw [opcode] at h
      rcases h with rfl | entered
      · exact (stays rfl).elim
      · cases entered with
        | intro =>
            rw [Array.size_push] at pops
            omega
  | jmp | jt | jf | jce | jcne | jcl | jcle | jcg | jcge | caseOf =>
      rw [opcode] at h
      exact (stays ((congrArg Registers.calls h).trans (calls_branched _))).elim
  | leaveTry | leaveCatch =>
      rw [opcode] at h
      obtain ⟨record, -, -, rfl⟩ := h
      exact (stays (calls_enterFinally _)).elim
  | _ =>
      rw [opcode] at h
      exact (stays (congrArg Registers.calls h)).elim

theorem Moves.of_calls (h : thread.Moves setup instruction after signal)
    (calls : instruction.opcode = .loadClass ∨ instruction.opcode = .call)
    (same : after.calls = thread.calls) : after = thread.registers := by
  unfold Moves at h
  have rests : after = thread.registers ∨ ∃ returnIp, thread.Enters setup returnIp after := by
    rcases calls with load | call
    · rw [load] at h
      exact h.imp_right fun enters => ⟨_, enters⟩
    · rw [call] at h
      exact h.imp_right fun enters => ⟨_, enters⟩
  rcases rests with rests | ⟨returnIp, enters⟩
  · exact rests
  · cases enters with
    | intro =>
        have size := congrArg Array.size same
        rw [Array.size_push] at size
        omega

end Thread

theorem Instruction.returnAddress_of_call {instruction : Instruction}
    (call : instruction.opcode = .call) :
    instruction.returnAddress = instruction.offset + instruction.size :=
  if_neg fun load => by cases call.symm.trans load

/-- A call or a load that enters no method leaves the registers alone. A load pushes one value then,
at most. -/
theorem Machine.Proceeds.stays {setup : Setup} {machine : Machine} {thread next : Thread}
    {act : Act} (h : machine.Proceeds setup thread (some act) next)
    (calls : act.instruction.opcode = .loadClass ∨ act.instruction.opcode = .call)
    (stays : ¬ act.before.calls.size < act.after.calls.size) :
    act.after.registers = act.before.registers ∧ (act.instruction.opcode = .loadClass →
      act.after.stack.depth ≤ act.before.stack.depth + 1) := by
  obtain ⟨-, -, -, world, signal, result, execute, answered⟩ := h.executes
  obtain ⟨rfl, called⟩ := Step.execute_called execute h.ip_before (by tauto)
  rw [answered.registers, answered.stack nofun]
  rcases called with ⟨pushed, same⟩ | ⟨base, _, key, kind, convention, called⟩
  · obtain ⟨low, le, -, up, -⟩ := pushed.kept
    exact ⟨(Step.execute_moves execute).2.of_calls calls same,
      fun _ => up.trans (Nat.succ_le_succ le)⟩
  · cases called with
    | native same _ depth =>
        refine ⟨same, fun load => ?_⟩
        rw [depth]
        cases convention with
        | call other => cases load.symm.trans other
        | invoke other => cases load.symm.trans other
        | loadClass => exact Nat.le_refl _
    | entered _ _ registers =>
        have size := (congrArg (·.calls.size) (answered.registers.trans registers)).trans
          (Array.size_push _)
        exact absurd (size ▸ Nat.lt_succ_self _) stays

/-! ## The sequence -/

theorem Link.length_entryCode (takesArgs : Bool) :
    (entryCode takesArgs).length = if takesArgs then 4 else 3 := by
  cases takesArgs <;> rfl

theorem Link.cases_entryCode {takesArgs : Bool} {step : Opcode × UInt32}
    {rest : List (Opcode × UInt32)} (h : step :: rest <:+ entryCode takesArgs) :
    (step.1 = .loadClass ∨ step.1 = .loadLocal) ∧ rest ≠ [] ∨
      step = (.call, 1) ∧ rest = [(.exit, 0)] ∨ step = (.exit, 0) := by
  cases takesArgs <;>
    simp only [entryCode, List.suffix_cons_iff, List.cons_append, List.nil_append, List.cons.injEq,
      List.suffix_nil, if_true, if_false, Bool.false_eq_true, reduceCtorEq, or_false] at h
  · rcases h with ⟨rfl, rfl⟩ | ⟨rfl, rfl⟩ | ⟨rfl, rfl⟩ <;> simp
  · rcases h with ⟨rfl, rfl⟩ | ⟨rfl, rfl⟩ | ⟨rfl, rfl⟩ | ⟨rfl, rfl⟩ <;> simp

namespace Registers

/-- Whether some instructions of the entry sequence are ahead of a thread, now or when the method
that the sequence has called returns. Before the main method is called, the stack is so high that it
may get to a given height by then. -/
inductive Ahead (segment : Segment) (most : Nat) (ahead : List (Opcode × UInt32))
    (registers : Registers) (height : Nat) : Prop
  | now : registers.calls.size = 0 → segment.Hosts registers.ip ahead →
      (1 < ahead.length → height + ahead.length ≤ most) → Ahead segment most ahead registers height
  | later {call : CallRecord} {active : Activation} : registers.calls[0]? = some call →
      segment.Hosts call.returnIp ahead → registers.activation? 1 = some active →
      (1 < ahead.length → active.frame.kind = .initializer ∧ active.dp + ahead.length ≤ most) →
      Ahead segment most ahead registers height

def AheadIn (program : Program) (key : MethodKey) (registers : Registers) (height : Nat) : Prop :=
  ∃ ahead ≠ [], ahead <:+ Link.entryCode (key.arity == 1) ∧
    registers.Ahead program.code ((Link.entryCode (key.arity == 1)).length + 1) ahead height

/-- Whether a thread goes through the entry sequence of a program whenever it is outside of all
methods. -/
structure FollowsEntry (program : Program) (key : MethodKey) (registers : Registers)
    (height : Nat) : Prop where
  ahead : AheadIn program key registers height
  bottom : registers.activation? 0 = some ⟨0, program.entryModule, .entry⟩
  tries : registers.outerTries 1 = []

/-- Whether an instruction at the position of a thread is one of the entry sequence, and some others
are the rest of that. -/
structure Faces (program : Program) (key : MethodKey) (registers : Registers) (height : Nat)
    (instruction : Instruction) (rest : List (Opcode × UInt32)) : Prop where
  suffix : instruction.outline :: rest <:+ Link.entryCode (key.arity == 1)
  here : program.code.Hosts registers.ip (instruction.outline :: rest)
  behind : program.code.Hosts (instruction.offset + instruction.size) rest
  low : rest ≠ [] → height + rest.length ≤ (Link.entryCode (key.arity == 1)).length

variable {program : Program} {key : MethodKey} {limits : Limits} {machine : Machine}
  {thread next : Thread} {act : Act} {rest : List (Opcode × UInt32)}

theorem FollowsEntry.faces {registers : Registers} {height : Nat}
    (h : registers.FollowsEntry program key height) (outside : registers.calls.size = 0)
    {instruction : Instruction} (fetched : program.code.fetch registers.ip = .ok instruction) :
    ∃ rest, registers.Faces program key height instruction rest := by
  obtain ⟨ahead, some, suffix, ahead'⟩ := h.ahead
  cases ahead' with
  | later waits =>
      have inside := (Array.getElem?_eq_some_iff.mp waits).1
      omega
  | now _ hosts low =>
      obtain ⟨step, rest, rfl⟩ := List.exists_cons_of_ne_nil some
      have here := hosts
      obtain ⟨found, fetched', rfl, behind⟩ := hosts
      obtain rfl := Except.ok.inj (fetched.symm.trans fetched')
      refine ⟨rest, suffix, here, behind, fun more => ?_⟩
      rw [List.length_cons] at low
      have := low (Nat.succ_lt_succ (List.length_pos_iff.mpr more))
      omega

/-- A thread outside of all methods is in the module of the entry. -/
theorem FollowsEntry.moduleId_eq {registers : Registers} {height : Nat}
    (h : registers.FollowsEntry program key height) (outside : registers.calls.size = 0) :
    registers.moduleId = program.entryModule := by
  have bottom := registers.activation?_here
  rw [outside, h.bottom] at bottom
  exact (congrArg Activation.moduleId (Option.some.inj bottom)).symm

theorem Ahead.of_push {segment : Segment} {most height : Nat} {ahead : List (Opcode × UInt32)}
    {after : Registers} {calls : Array CallRecord} {call : CallRecord} (outside : calls.size = 0)
    (pushed : after.calls = calls.push call) (hosts : segment.Hosts call.returnIp ahead)
    (low : 1 < ahead.length → after.frame.kind = .initializer ∧ after.dp + ahead.length ≤ most) :
    after.Ahead segment most ahead height := by
  have first : after.calls[0]? = some call := by
    rw [pushed, Array.getElem?_push, if_pos outside.symm]
  have size : after.calls.size = 1 := by
    rw [pushed, Array.size_push, outside]
  have active := after.activation?_here
  rw [size] at active
  exact .later first hosts active low

/-- The thread goes on in the sequence with an instruction that leaves the registers alone and
pushes at most one value. -/
theorem Faces.goesOn
    (faces : thread.registers.Faces program key thread.stack.depth act.instruction rest)
    (proceeds : machine.Proceeds ⟨program, limits⟩ thread (some act) next)
    (outside : thread.calls.size = 0) (more : rest ≠ [])
    (same : act.after.registers = act.before.registers)
    (pushes : 1 < rest.length → act.after.stack.depth ≤ act.before.stack.depth + 1) :
    act.after.registers.AheadIn program key act.after.stack.depth := by
  rw [proceeds.moves.2.1] at same
  rw [same]
  refine ⟨rest, more, (List.suffix_cons _ _).trans faces.suffix, .now outside faces.behind
    fun several => ?_⟩
  have height : act.before.stack.depth = thread.stack.depth :=
    congrArg Stack.depth proceeds.stack_before
  have := pushes several
  have := faces.low more
  omega

theorem Faces.enters
    (faces : thread.registers.Faces program key thread.stack.depth act.instruction rest)
    (proceeds : machine.Proceeds ⟨program, limits⟩ thread (some act) next)
    (outside : thread.calls.size = 0)
    (opcode : act.instruction.opcode = .loadClass ∨
      act.instruction.opcode = .call ∧ rest.length = 1)
    (enters : act.before.calls.size < act.after.calls.size) :
    act.after.registers.AheadIn program key act.after.stack.depth ∧
      act.after.handlers = thread.handlers := by
  obtain ⟨-, fetched, idles, -⟩ := proceeds.executes
  obtain ⟨base, height, key', kind, declaring, convention, pushed, handlers, dp, frame, -⟩ :=
    proceeds.called (by tauto) enters
  have calls : act.before.calls.size = 0 :=
    (congrArg (·.calls.size) idles.registers).trans outside
  refine ⟨?_, handlers.trans (congrArg Registers.handlers idles.registers)⟩
  rcases opcode with load | ⟨call, one⟩
  · refine ⟨_, List.cons_ne_nil _ _, faces.suffix, .of_push calls pushed ?_ fun several => ?_⟩
    · rw [Instruction.returnAddress, if_pos load, Segment.offset_of_fetch fetched]
      exact faces.here
    · have low := faces.low (List.length_pos_iff.mp (Nat.lt_of_succ_lt_succ several))
      rw [← congrArg Stack.depth idles.stack] at low
      cases convention with
      | call other => cases load.symm.trans other
      | invoke other => cases load.symm.trans other
      | loadClass =>
          refine ⟨congrArg Frame.kind frame, ?_⟩
          change act.after.dp + (rest.length + 1) ≤ _
          rw [dp]
          exact Nat.succ_le_succ low
  · refine ⟨rest, List.length_pos_iff.mp (by omega), (List.suffix_cons _ _).trans faces.suffix,
      .of_push calls pushed ?_ fun several => by omega⟩
    rw [Instruction.returnAddress_of_call call]
    exact faces.behind

/-- Outside of all methods a thread goes on in the sequence, or enters a method that is to return
there. -/
theorem FollowsEntry.outside
    (h : thread.registers.FollowsEntry program key thread.stack.depth)
    (proceeds : machine.Proceeds ⟨program, limits⟩ thread (some act) next)
    (outside : thread.calls.size = 0) :
    act.after.registers.AheadIn program key act.after.stack.depth ∧
      act.after.handlers = thread.handlers := by
  obtain ⟨rfl, fetched, -, world, signal, result, execute, answered⟩ := proceeds.executes
  obtain ⟨rest, faces⟩ := h.faces outside fetched
  have rests (more : rest ≠ []) (same : act.after.registers = act.before.registers)
      (pushes : 1 < rest.length → act.after.stack.depth ≤ act.before.stack.depth + 1) :
      act.after.registers.AheadIn program key act.after.stack.depth ∧
        act.after.handlers = thread.handlers :=
    ⟨faces.goesOn proceeds outside more same pushes, congrArg Registers.handlers
      (same.trans proceeds.moves.2.1)⟩
  have calling (opcode : act.instruction.opcode = .loadClass ∨
      act.instruction.opcode = .call ∧ rest.length = 1) (more : rest ≠ []) :
      act.after.registers.AheadIn program key act.after.stack.depth ∧
        act.after.handlers = thread.handlers := by
    by_cases enters : act.before.calls.size < act.after.calls.size
    · exact faces.enters proceeds outside opcode enters
    · obtain ⟨same, pushes⟩ := proceeds.stays (opcode.imp_right And.left) enters
      refine rests more same fun several => pushes (opcode.resolve_right fun call => ?_)
      omega
  rcases Link.cases_entryCode faces.suffix with ⟨load | load, more⟩ | ⟨call, rfl⟩ | exits
  · exact calling (.inl load) more
  · have opcode : act.instruction.opcode = .loadLocal := load
    obtain ⟨asked, grown⟩ := Step.execute_ends (by rw [opcode]; rfl) (by rw [opcode]; nofun)
      _ _ _ _ execute
    obtain ⟨low, le, -, up, -⟩ := grown.kept
    refine rests more ?_ fun _ => ?_
    · obtain ⟨-, -, _, moves⟩ := proceeds.moves
      unfold Thread.Moves at moves
      rw [opcode] at moves
      exact moves
    · rw [answered.stack asked]
      exact up.trans (Nat.succ_le_succ le)
  · exact calling (.inr ⟨congrArg Prod.fst call, rfl⟩) (List.cons_ne_nil _ _)
  · -- A thread that has left is not there any more.
    rw [Step.execute_exit (congrArg Prod.fst exits)] at execute
    cases execute
    exact absurd rfl answered.ne_leave

/-- A thread leaves its outermost method only by a return, since no construct takes what that
throws. -/
theorem FollowsEntry.exists_returned {height : Nat}
    (h : thread.registers.FollowsEntry program key height)
    (proceeds : machine.Proceeds ⟨program, limits⟩ thread (some act) next)
    (nested : thread.registers.Nested) (inside : 0 < thread.calls.size)
    (left : act.after.calls.size = 0) :
    ∃ returner form, act.before.returned? act.instruction = some (returner, form) := by
  obtain ⟨-, behind, signal, moves⟩ := proceeds.moves
  have calls : act.before.calls = thread.calls := congrArg Registers.calls behind
  have handlers : act.before.handlers = thread.handlers := congrArg Registers.handlers behind
  refine moves.exists_returned (behind ▸ nested.withIp _) ?_ ?_ ?_
  · change act.after.calls.size < _
    rw [left, calls]
    exact inside
  · intro record member
    rw [handlers] at member
    have none := List.filter_eq_nil_iff.mp h.tries record member
    change act.after.calls.size < _
    rw [left]
    exact Nat.pos_of_ne_zero (by simpa using none)
  · intro opcode
    obtain ⟨-, -, -, world, signal, result, execute, -⟩ := proceeds.executes
    unfold Step.execute at execute
    rw [opcode] at execute
    obtain ⟨value, _, popped, -⟩ := Step.bind_eq_ok_iff.mp execute
    obtain ⟨stack, popped, -⟩ := Step.onStack_eq_ok_iff.mp popped
    exact ⟨value, (Stack.pop_eq_ok popped).2.1⟩

/-- A thread comes back to the sequence by a return, from an initializer with nothing more on its
stack than before. -/
theorem FollowsEntry.back (h : thread.registers.FollowsEntry program key thread.stack.depth)
    (proceeds : machine.Proceeds ⟨program, limits⟩ thread (some act) next)
    (nested : thread.registers.Nested) (inside : 0 < thread.calls.size)
    (left : act.after.calls.size = 0) :
    act.after.registers.AheadIn program key act.after.stack.depth ∧ act.after.handlers = [] := by
  obtain ⟨ahead, some, suffix, ahead'⟩ := h.ahead
  cases ahead' with
  | now outside => exact absurd outside (Nat.ne_of_gt inside)
  | @later call active first hosts current low =>
      obtain ⟨returner, form, returns⟩ := h.exists_returned proceeds nested inside left
      obtain ⟨record, top, after, stack⟩ := proceeds.returned nested returns (by omega)
      have size : thread.calls.size = 1 := by
        have popped := (congrArg (·.calls.size) after).trans Array.size_pop
        change act.after.calls.size = thread.calls.size - 1 at popped
        omega
      have own : record = call := by
        rw [Array.back?_eq_getElem?, size] at top
        exact Option.some.inj (top.symm.trans first)
      have here := thread.registers.activation?_here
      change thread.registers.activation? thread.calls.size = _ at here
      rw [size, current] at here
      obtain rfl := Option.some.inj here
      refine ⟨⟨ahead, some, suffix, .now left ?_ fun several => ?_⟩, ?_⟩
      · rw [after, own]
        exact hosts
      · obtain ⟨kind, low⟩ := low several
        have kind : thread.frame.kind = .initializer := kind
        have low : thread.dp + ahead.length ≤ _ := low
        have height : act.after.stack.depth ≤ thread.dp := by
          change act.after.stack.slots.size ≤ _
          rw [← Array.length_toList, stack, kind, List.length_append, List.length_take]
          cases form <;> exact Nat.min_le_left _ _
        omega
      · refine (congrArg Registers.handlers after).trans ?_
        rw [size]
        exact h.tries

theorem FollowsEntry.proceeds {act : Option Act}
    (h : thread.registers.FollowsEntry program key thread.stack.depth)
    (framed : thread.registers.Framed)
    (proceeds : machine.Proceeds ⟨program, limits⟩ thread act next)
    (idles : act = none → next.Idles thread) :
    next.registers.FollowsEntry program key next.stack.depth := by
  have same := proceeds.sameUpTo framed (Nat.zero_le _) (Nat.zero_le _)
  have bottom := same.activation.trans h.bottom
  cases act with
  | none =>
      have idles := idles rfl
      rw [idles.registers, idles.stack]
      exact h
  | some act =>
      obtain rfl : next = act.after := proceeds.moves.1
      rcases Nat.eq_zero_or_pos thread.calls.size with outside | inside
      · obtain ⟨ahead, handlers⟩ := h.outside proceeds outside
        have same : act.after.registers.outerTries 1 = thread.registers.outerTries 1 :=
          congrArg (List.filter _) handlers
        exact ⟨ahead, bottom, same.trans h.tries⟩
      · rcases Nat.eq_zero_or_pos act.after.calls.size with left | stays
        · obtain ⟨ahead, handlers⟩ := h.back proceeds framed.nested inside left
          exact ⟨ahead, bottom, (congrArg (List.filter _) handlers :)⟩
        · -- The frame that the sequence has entered is still there.
          have same := proceeds.sameUpTo framed inside stays
          obtain ⟨ahead, some, suffix, ahead'⟩ := h.ahead
          refine ⟨⟨ahead, some, suffix, ?_⟩, bottom, same.outer.trans h.tries⟩
          cases ahead' with
          | now outside => exact absurd outside (Nat.ne_of_gt inside)
          | later first hosts current low =>
              exact .later ((same.calls 0 Nat.zero_lt_one).trans first) hosts
                (same.activation.trans current) low

end Registers

/-- In a run of a program that enters its main method, every thread goes through the entry sequence
whenever it is outside of all methods. The numbers of threads must not have gone round, since a
thread may find zeros on its stack then. -/
theorem Progress.followsEntry {program : Program} {key : MethodKey} {limits : Limits}
    {store : Store} {source : TickSource} {args : List String} {first machine : Machine}
    {count : Nat} (enters : program.EntersMain key)
    (start : Machine.start ⟨program, limits⟩ store source args = .running first)
    (reached : advance ⟨program, limits⟩ count (.running first) = .running machine)
    (few : forks (history ⟨program, limits⟩ count (.running first)) < UInt32.size - 1) :
    ∀ thread ∈ machine.roster.threads,
      thread.registers.FollowsEntry program key thread.stack.depth := by
  have begins : Moment.Begins ⟨program, limits⟩ ⟨first, false⟩ := ⟨rfl, store, source, args, start⟩
  induction count generalizing machine with
  | zero =>
      cases reached
      have h := start
      unfold Machine.start at h
      dsimp only at h
      split at h
      · next stack pushed =>
          obtain ⟨-, rfl⟩ := Stack.push_eq_ok pushed
          cases h
          intro thread member
          obtain rfl := List.mem_singleton.mp member
          refine ⟨⟨_, ?_, List.suffix_rfl, .now rfl enters.hosts fun _ => ?_⟩, rfl, rfl⟩
          · exact List.cons_ne_nil _ _
          · exact Nat.le_of_eq (Nat.add_comm _ _)
      · cases h
  | succ count ih =>
      obtain ⟨before, there, step⟩ := advance_succ reached
      rw [history_add] at few
      have few := forks_lt_of_append few
      have reachable : Machine.Reachable ⟨program, limits⟩ before := .of_advance (start ▸ there)
      intro after member
      obtain ⟨thread, found, act, proceeds⟩ := Machine.exists_proceeds step member
      refine (ih there few thread found).proceeds (reachable.framed thread found) proceeds ?_
      rintro rfl
      cases proceeds with
      | rests rests =>
          have occurs : Moment.Occurs ⟨program, limits⟩ _ ⟨before, false⟩ :=
            ⟨⟨first, false⟩, begins, leads_of_advance there⟩
          exact occurs.idles_of_rests few found rests

/-! ## The main method -/

theorem Step.call_names {setup : Setup} {scene next : Scene} {index : UInt32} {answer : Unit}
    (h : call index setup scene = .ok answer next)
    (deeper : scene.thread.calls.size < next.thread.calls.size) :
    ∃ key declaring,
      (setup.program.moduleOf scene.thread.moduleId).methodCall index = .ok key ∧
      next.thread.frame =
        .method declaring key (callKind setup.program.symbols key .normal) := by
  unfold call at h
  rw [bind_of_ok moduleRecord_eq_ok] at h
  obtain ⟨key, _, hr, h⟩ := bind_eq_ok_iff.mp h
  obtain ⟨named, rfl⟩ := require_eq_ok hr
  obtain ⟨base, -, called⟩ := callMethod_called h
  cases called with
  | native same =>
      have same : next.thread.calls = scene.thread.calls := congrArg Registers.calls same
      rw [same] at deeper
      exact absurd deeper (Nat.lt_irrefl _)
  | entered _ _ registers =>
      exact ⟨key, _, named, congrArg Registers.frame registers⟩

theorem Program.EntersMain.callKind {program : Program} {key : MethodKey}
    (enters : program.EntersMain key) : Step.callKind program.symbols key .normal = .normal := by
  have name : program.symbols.name key.name = mainName := by
    rw [SymbolTable.name, Array.getD_eq_getD_getElem?, enters.named]
    rfl
  exact if_neg (by rw [name]; decide)

/-- A call in the module of the entry that enters a method of bytecode enters the main method. -/
theorem Machine.Proceeds.calls_main {program : Program} {key : MethodKey} {limits : Limits}
    (enters : program.EntersMain key) {machine : Machine} {thread next : Thread} {act : Act}
    (h : machine.Proceeds ⟨program, limits⟩ thread (some act) next)
    (named : act.instruction.outline = (.call, 1))
    (moduleId : act.before.moduleId = program.entryModule)
    (deeper : act.before.calls.size < act.after.calls.size) :
    ∃ declaring, act.after.frame = .method declaring key .normal := by
  obtain ⟨-, -, -, world, signal, result, execute, answered⟩ := h.executes
  have size := congrArg (·.calls.size) answered.registers
  change act.after.calls.size = result.thread.calls.size at size
  have opcode : act.instruction.opcode = .call := congrArg Prod.fst named
  have index : act.instruction.index = 1 := congrArg Prod.snd named
  unfold Step.execute at execute
  rw [opcode, index] at execute
  obtain ⟨_, _, called, asked⟩ := Step.bind_eq_ok_iff.mp execute
  obtain ⟨rfl, rfl⟩ := Step.pure_eq_ok_iff.mp asked
  obtain ⟨key', declaring, found, frame⟩ := Step.call_names called (by dsimp only; omega)
  change (program.moduleOf act.before.moduleId).methodCall 1 = .ok key' at found
  rw [moduleId, enters.method] at found
  obtain rfl := Except.ok.inj found
  change _ = Frame.method declaring key (Step.callKind program.symbols key .normal) at frame
  rw [enters.callKind] at frame
  exact ⟨declaring, (congrArg Registers.frame answered.registers).trans frame⟩

/-- The only call outside of all methods is that of the main method. That finds its receiver above
the argument slot at most, and is to return to the exit. -/
theorem Registers.FollowsEntry.calls_main {program : Program} {key : MethodKey} {limits : Limits}
    (enters : program.EntersMain key) {machine : Machine} {waiting next : Thread} {call : Act}
    (follows : waiting.registers.FollowsEntry program key waiting.stack.depth)
    (proceeds : machine.Proceeds ⟨program, limits⟩ waiting (some call) next)
    (opcode : call.instruction.opcode = .call) (outside : call.before.calls.size = 0)
    (inside : 0 < call.after.calls.size) :
    call.after.dp ≤ 1 ∧ (∃ declaring, call.after.frame = .method declaring key .normal) ∧
      program.code.Hosts call.instruction.returnAddress [(.exit, 0)] := by
  obtain ⟨-, fetched, idles, -⟩ := proceeds.executes
  have calls : waiting.calls.size = 0 :=
    (congrArg (·.calls.size) idles.registers).symm.trans outside
  obtain ⟨rest, suffix, -, hosts, low⟩ := follows.faces calls fetched
  rcases Link.cases_entryCode suffix with ⟨load | load, -⟩ | ⟨named, rfl⟩ | exits
  · cases opcode.symm.trans load
  · cases opcode.symm.trans load
  · obtain ⟨declaring, frame⟩ := proceeds.calls_main enters named
      ((congrArg Registers.moduleId idles.registers).trans (follows.moduleId_eq calls)) (by omega)
    obtain ⟨base, height, key', kind, declaring', convention, -, -, dp, frame', -⟩ :=
      proceeds.called (.inl opcode) (by omega)
    have same : key' = key := (Frame.method.inj (frame'.symm.trans frame)).2.1
    have operands : call.after.dp + (key.arity.toNat + 1) = call.before.stack.depth := by
      rw [dp, ← same]
      cases convention with
      | call _ operands => exact operands
      | invoke other => cases opcode.symm.trans other
      | loadClass other => cases opcode.symm.trans other
    refine ⟨?_, ⟨declaring, frame⟩, ?_⟩
    · have most := low (List.cons_ne_nil _ _)
      rw [List.length_singleton, Link.length_entryCode, ← congrArg Stack.depth idles.stack] at most
      change call.before.stack.depth + 1 ≤ _ at most
      rw [← operands] at most
      split at most
      · next one =>
          have arity : key.arity.toNat = 1 := congrArg UInt16.toNat (beq_iff_eq.mp one)
          omega
      · omega
    · rw [Instruction.returnAddress_of_call opcode]
      exact hosts
  · cases opcode.symm.trans (congrArg Prod.fst exits)

end ObjectMachine
