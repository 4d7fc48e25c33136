import ObjectMachine.Proofs.Machine.Reachable

/-!
# What a return leaves behind

The try constructs of a thread lie in the order of its frames. A return that pops a call drops
all constructs of its frame, and only those. If the innermost of them is in its try or catch body
the return is put off; whether an outer one is does not matter to it.
-/

namespace ObjectMachine

def ExitAction.returnForm? : ExitAction → Option ReturnForm
  | ret => some .void
  | retValue value => some (.value value)
  | retConstructor => some .constructor
  | fallThrough | branch _ | rethrow _ => none

namespace Registers

/-- Whether the try constructs lie in the order of the frames that have entered them. -/
structure Nested (registers : Registers) : Prop where
  order : registers.handlers.Pairwise fun inner outer => outer.callDepth ≤ inner.callDepth
  depth : ∀ record ∈ registers.handlers, record.callDepth ≤ registers.calls.size

namespace Nested

theorem withIp {registers : Registers} (h : registers.Nested) (ip : Nat) :
    Nested { registers with ip } :=
  ⟨h.order, h.depth⟩

theorem of_phase {registers after : Registers} {record : TryRecord} {outer : List TryRecord}
    (h : registers.Nested) (record' : TryRecord) (found : registers.handlers = record :: outer)
    (same : record'.callDepth = record.callDepth) (handlers : after.handlers = record' :: outer)
    (calls : record.callDepth ≤ after.calls.size) : after.Nested := by
  obtain ⟨order, -⟩ := h
  rw [found] at order
  obtain ⟨above, others⟩ := List.pairwise_cons.mp order
  refine ⟨?_, fun other member => ?_⟩
  · rw [handlers]
    exact List.pairwise_cons.mpr ⟨fun other member => same ▸ above other member, others⟩
  · rw [handlers] at member
    rcases List.mem_cons.mp member with rfl | member
    · exact same ▸ calls
    · exact Nat.le_trans (above other member) calls

theorem of_suffix {registers after : Registers} (h : registers.Nested)
    (handlers : after.handlers <:+ registers.handlers)
    (depth : ∀ record ∈ after.handlers, record.callDepth ≤ after.calls.size) : after.Nested :=
  ⟨h.order.sublist handlers.sublist, depth⟩

theorem suffix {registers after : Registers} (h : registers.Nested)
    (handlers : after.handlers <:+ registers.handlers)
    (calls : registers.calls.size ≤ after.calls.size) : after.Nested :=
  h.of_suffix handlers fun record member =>
    Nat.le_trans (h.depth record (handlers.subset member)) calls

end Nested

/-- In the order of their frames, the constructs above a depth are the innermost ones. -/
theorem split_at_depth {handlers : List TryRecord} (bound : Nat)
    (order : handlers.Pairwise fun inner outer => outer.callDepth ≤ inner.callDepth) :
    handlers = handlers.filter (bound < ·.callDepth) ++
        handlers.dropWhile (bound < ·.callDepth) ∧
      ∀ record ∈ handlers.dropWhile (bound < ·.callDepth), record.callDepth ≤ bound := by
  induction handlers with
  | nil => simp
  | cons record outer ih =>
      obtain ⟨above, others⟩ := List.pairwise_cons.mp order
      by_cases deeper : bound < record.callDepth
      · obtain ⟨split, rest⟩ := ih others
        simp only [List.filter_cons, List.dropWhile_cons, deeper, decide_true, if_true,
          List.cons_append, ← split, true_and]
        exact rest
      · have low : ∀ other ∈ record :: outer, other.callDepth ≤ bound := by
          intro other member
          rcases List.mem_cons.mp member with rfl | member
          · omega
          · have := above other member
            omega
        have none : (record :: outer).filter (bound < ·.callDepth) = [] := by
          rw [List.filter_eq_nil_iff]
          intro other member
          have := low other member
          simpa using this
        simp only [none, List.dropWhile_cons, deeper, decide_false, Bool.false_eq_true, if_false,
          List.nil_append, true_and]
        exact low

end Registers

namespace Thread

variable {thread : Thread}

/-! ## The order of the constructs is kept -/

theorem nested_enterFinally (h : thread.registers.Nested) (exit : ExitAction) :
    (thread.enterFinally exit).registers.Nested := by
  unfold enterFinally
  split
  · next record outer found =>
      have depth := h.depth record (by rw [registers, found]; exact List.mem_cons_self)
      exact h.of_phase { record with phase := .inFinally exit } found rfl rfl depth
  · exact h

theorem nested_branchTo (h : thread.registers.Nested) (target : Nat) :
    (thread.branchTo target).registers.Nested := by
  unfold branchTo
  split
  · split
    · exact h.suffix List.suffix_rfl (Nat.le_refl _)
    · exact nested_enterFinally h _
  · exact h.suffix List.suffix_rfl (Nat.le_refl _)

theorem nested_popCall (h : thread.registers.Nested) (call : CallRecord) :
    (thread.popCall.restore call).registers.Nested :=
  h.of_suffix (List.dropWhile_suffix _)
    (Registers.split_at_depth thread.calls.pop.size h.order).2

theorem Returns.nested {form : ReturnForm} {registers : Registers} {signal : Signal}
    (hr : thread.Returns form registers signal) (h : thread.registers.Nested) :
    registers.Nested := by
  cases hr with
  | deferred intercepted => exact nested_enterFinally h _
  | left free bottom => exact h
  | popped free top => exact nested_popCall h _

theorem Raises.nested {exception : Value} {registers : Registers}
    (hr : thread.Raises exception registers) (h : thread.registers.Nested) :
    registers.Nested := by
  have rewound {record : TryRecord} {outer : List TryRecord}
      (found : thread.handlers.dropWhile (·.phase.isInFinally) = record :: outer) :
      ({ thread.registers with handlers := record :: outer } : Registers).Nested ∧
        record.callDepth ≤ (thread.rewind record).registers.calls.size := by
    have suffix : record :: outer <:+ thread.handlers := found ▸ List.dropWhile_suffix _
    have depth := h.depth record (suffix.subset List.mem_cons_self)
    refine ⟨h.suffix suffix (Nat.le_refl _), ?_⟩
    change record.callDepth ≤ (thread.calls.shrink record.callDepth).size
    rw [Array.size_shrink]
    exact Nat.le_min.mpr ⟨Nat.le_refl _, depth⟩
  cases hr with
  | @caught record outer onCatch found phase there =>
      obtain ⟨nested, depth⟩ := rewound found
      exact nested.of_phase { record with phase := .inCatch exception } rfl rfl rfl depth
  | @passed record outer found only =>
      obtain ⟨nested, depth⟩ := rewound found
      exact nested.of_phase { record with phase := .inFinally (.rethrow exception) } rfl rfl rfl
        depth

theorem CarriesOut.nested {exit : ExitAction} {registers : Registers} {signal : Signal}
    (hc : thread.CarriesOut exit registers signal) (h : thread.registers.Nested) :
    registers.Nested := by
  unfold CarriesOut at hc
  split at hc
  · exact hc.1 ▸ h
  · exact hc.nested h
  · exact hc.nested h
  · exact hc.nested h
  · exact hc.1 ▸ nested_branchTo h _
  · exact hc.1.nested h

theorem Enters.nested {setup : Setup} {returnIp : Nat} {registers : Registers}
    (he : thread.Enters setup returnIp registers) (h : thread.registers.Nested) :
    registers.Nested := by
  obtain ⟨kind, dp, -, -, -⟩ := he
  refine h.suffix List.suffix_rfl ?_
  simp only [Thread.registers, Array.size_push]
  omega

theorem Moves.nested {setup : Setup} {instruction : Instruction} {registers : Registers}
    {signal : Signal} (hm : thread.Moves setup instruction registers signal)
    (h : thread.registers.Nested) : registers.Nested := by
  cases hm.shifts with
  | stays => exact h
  | branches taken => exact nested_branchTo h _
  | returns returns => exact returns.nested h
  | enters _ enters => exact enters.nested h
  | tries =>
      refine ⟨List.pairwise_cons.mpr ⟨fun record member => h.depth record member, h.order⟩, ?_⟩
      intro record member
      rcases List.mem_cons.mp member with rfl | member
      · exact Nat.le_refl _
      · exact h.depth record member
  | turns => exact nested_enterFinally h _
  | ends _ _ _ out => exact CarriesOut.nested out (h.suffix (List.tail_suffix _) (Nat.le_refl _))
  | raises raises => exact raises.nested h

/-! ## Returns -/

def ownTries (thread : Thread) : List TryRecord :=
  thread.handlers.filter (·.callDepth = thread.calls.size)

/-- The thread that an instruction carries out a return in: that of a return itself, and for the
end of a finally body that has put a return off the thread without the construct that ends. -/
def returning? (instruction : Instruction) (thread : Thread) : Option Thread :=
  match instruction.opcode, thread.currentTry?.map (·.phase) with
  | .ret, _ | .retVal, _ | .retCtor, _ => some thread
  | .leaveFinally, some (TryPhase.inFinally exit) =>
    exit.returnForm?.map fun _ => { thread with handlers := thread.handlers.tail }
  | _, _ => none

theorem CarriesOut.returns {exit : ExitAction} {form : ReturnForm} {registers : Registers}
    {signal : Signal} (hc : thread.CarriesOut exit registers signal)
    (h : exit.returnForm? = some form) :
    thread.Returns form registers signal := by
  cases exit with
  | ret | retConstructor | retValue =>
      obtain rfl := Option.some.inj h
      exact hc
  | fallThrough | branch | rethrow => cases h

/-- An instruction that carries out a return does so in the frame that it is in. -/
theorem Moves.returns {setup : Setup} {instruction : Instruction} {other : Thread}
    {registers : Registers} {signal : Signal}
    (hm : thread.Moves setup instruction registers signal)
    (h : thread.returning? instruction = some other) :
    other.calls = thread.calls ∧ other.handlers <:+ thread.handlers ∧
      ∃ form, other.Returns form registers signal := by
  unfold returning? at h
  unfold Moves at hm
  cases hop : instruction.opcode with
  | ret | retCtor =>
      rw [hop] at h hm
      obtain rfl := Option.some.inj h
      exact ⟨rfl, List.suffix_rfl, _, hm⟩
  | retVal =>
      rw [hop] at h hm
      obtain rfl := Option.some.inj h
      obtain ⟨_, hm⟩ := hm
      exact ⟨rfl, List.suffix_rfl, _, hm⟩
  | leaveFinally =>
      rw [hop] at h hm
      obtain ⟨record, exit, found, phase, out⟩ := hm
      rw [found, Option.map_some, phase] at h
      obtain ⟨form, hf, rfl⟩ := Option.map_eq_some_iff.mp h
      exact ⟨rfl, List.tail_suffix _, form, out.returns hf⟩
  | _ =>
      rw [hop] at h
      cases h

/-- If the constructs lie in the order of the frames, the innermost one of the frame is the
innermost one of all. -/
theorem head?_ownTries (h : thread.registers.Nested) :
    thread.ownTries.head? = thread.currentTry? := by
  unfold ownTries currentTry?
  cases found : thread.handlers with
  | nil => rfl
  | cons record outer =>
      by_cases own : record.callDepth = thread.calls.size
      · rw [List.filter_cons_of_pos (by simpa using own)]
        simp only [own, if_true, List.head?_cons]
      · have order := h.order
        have depth := h.depth record (by rw [registers, found]; exact List.mem_cons_self)
        rw [registers, found] at order
        have below := (List.pairwise_cons.mp order).1
        have none : (record :: outer).filter (·.callDepth = thread.calls.size) = [] := by
          rw [List.filter_eq_nil_iff]
          intro other member
          have low : other.callDepth ≤ record.callDepth := by
            rcases List.mem_cons.mp member with rfl | member
            · exact Nat.le_refl _
            · exact below other member
          simp only [registers] at depth
          simp only [decide_eq_true_eq]
          omega
        rw [none]
        simp only [own, if_false, List.head?_nil]

/-- A return that is not put off finds the innermost construct of the frame in its finally
body. -/
theorem intercepts_of_free (h : thread.registers.Nested) (free : thread.interceptor? = none) :
    ∀ record ∈ thread.ownTries.head?, record.intercepts = false := by
  intro record first
  rw [head?_ownTries h] at first
  simpa using Option.filter_eq_none_iff.mp free record first

theorem popCall_drops (h : thread.registers.Nested) (call : 0 < thread.calls.size) :
    thread.handlers = thread.ownTries ++ thread.popCall.handlers ∧
      ∀ record ∈ thread.popCall.handlers, record.callDepth < thread.calls.size := by
  obtain ⟨split, rest⟩ := Registers.split_at_depth thread.calls.pop.size h.order
  have own : thread.handlers.filter (thread.calls.pop.size < ·.callDepth) = thread.ownTries := by
    refine List.filter_congr fun record member => ?_
    have depth : record.callDepth ≤ thread.calls.size := h.depth record member
    rw [Array.size_pop]
    exact decide_eq_decide.mpr (by omega)
  refine ⟨own ▸ split, fun record member => ?_⟩
  have low := rest record member
  rw [Array.size_pop] at low
  omega

theorem Returns.drops {form : ReturnForm} {after : Registers} {signal : Signal}
    (hr : thread.Returns form after signal) (h : thread.registers.Nested)
    (popped : after.calls.size < thread.calls.size) :
    after.calls = thread.calls.pop ∧
      thread.handlers = thread.ownTries ++ after.handlers ∧
      (∀ record ∈ after.handlers, record.callDepth < thread.calls.size) ∧
      ∀ record ∈ thread.ownTries.head?, record.intercepts = false := by
  cases hr with
  | deferred intercepted =>
      have same : (thread.enterFinally form.exit).registers.calls = thread.calls := by
        unfold enterFinally
        split <;> rfl
      rw [same] at popped
      exact absurd popped (Nat.lt_irrefl _)
  | left free bottom => exact absurd popped (Nat.lt_irrefl _)
  | popped free top =>
      obtain ⟨split, below⟩ := popCall_drops h (Nat.zero_lt_of_lt popped)
      exact ⟨rfl, split, below, intercepts_of_free h free⟩

end Thread

namespace Machine

variable {setup : Setup} {machine : Machine}

theorem Reachable.nested (reachable : Reachable setup machine) :
    ∀ thread ∈ machine.roster.threads, thread.registers.Nested :=
  reachable.registers ⟨.nil, nofun⟩ fun nested _ behind moves _ =>
    moves.nested (behind ▸ nested.withIp _)

theorem Executes.nested {instruction : Instruction} {scene next : Scene} {signal : Signal}
    (executes : machine.Executes setup instruction scene signal next)
    (reachable : Reachable setup machine) : scene.thread.registers.Nested := by
  obtain ⟨⟨current, ready, rfl⟩, -⟩ := executes
  obtain ⟨⟨old, member, -, -, behind⟩, -⟩ := ready_eq_execute ready
  exact behind ▸ (reachable.nested old member).withIp _

/-- A return that pops a call drops the constructs of its frame, all of them and no others. The
innermost one is in its finally body, but that is not so of those around it: the return skips a
finally body exactly if one of them is still in its try or catch body. -/
theorem Reachable.return_drops {instruction : Instruction} {scene next : Scene} {signal : Signal}
    {thread : Thread} (reachable : Reachable setup machine)
    (executes : machine.Executes setup instruction scene signal next)
    (returning : scene.thread.returning? instruction = some thread)
    (popped : next.thread.calls.size < thread.calls.size) :
    next.thread.calls = thread.calls.pop ∧
      thread.handlers = thread.ownTries ++ next.thread.handlers ∧
      (∀ record ∈ next.thread.handlers, record.callDepth < thread.calls.size) ∧
      (∀ record ∈ thread.ownTries.head?, record.intercepts = false) ∧
      ((∃ record ∈ thread.ownTries, record.intercepts) ↔
        ∃ record ∈ thread.ownTries.tail, record.intercepts) := by
  have nested := executes.nested reachable
  obtain ⟨calls, suffix, form, returns⟩ :=
    (Step.execute_moves executes.execute).2.returns returning
  have order : thread.registers.Nested :=
    nested.suffix suffix (Nat.le_of_eq (congrArg Array.size calls).symm)
  obtain ⟨pop, split, below, innermost⟩ := returns.drops order popped
  refine ⟨pop, split, below, innermost, ?_⟩
  cases own : thread.ownTries with
  | nil => simp
  | cons record outer =>
      have done : record.intercepts = false := innermost record (by rw [own]; rfl)
      simp [done]

/-- Two try constructs around each other, and a return in the inner finally body. -/
def returnsFromFinally : Setup :=
  (Setup.ofMain? [
    0x70, 0, 10,  -- entertry, without a catch body
    0x70, 0, 4,   -- entertry, without a catch body
    0x73,         -- leavetry
    0x31,         -- ret, in the inner finally body
    0x75,         -- leavefinally
    0x73,         -- leavetry
    0x75,         -- leavefinally, the outer finally body
    0x31] 0).get (by decide +kernel)

/-- Whether an instruction carries out a return that drops a construct outside of its finally
body. -/
def skips (instruction : Instruction) (scene next : Scene) : Bool :=
  (scene.thread.returning? instruction).any fun thread =>
    next.thread.calls.size < thread.calls.size && thread.ownTries.any (·.intercepts)

theorem returnsFromFinally_skips :
    ∃ machine instruction scene signal next thread,
      Reachable returnsFromFinally machine ∧
      machine.Executes returnsFromFinally instruction scene signal next ∧
      scene.thread.returning? instruction = some thread ∧
      next.thread.calls.size < thread.calls.size ∧
      ∃ record ∈ thread.ownTries, record.intercepts = true := by
  have skipping : nextSatisfies returnsFromFinally skips
      (Progress.advance returnsFromFinally 5
        (Machine.start returnsFromFinally (.ofCatalog returnsFromFinally.program.catalog)
          (.steps 100) [])) = true := by
    decide +kernel
  obtain ⟨machine, instruction, scene, signal, next, reached, executes, holds⟩ :=
    exists_of_nextSatisfies skipping
  obtain ⟨thread, returning, holds⟩ := (Option.any_eq_true _ _).mp holds
  obtain ⟨popped, skipped⟩ := Bool.and_eq_true_iff.mp holds
  exact ⟨machine, instruction, scene, signal, next, thread, .of_advance reached, executes,
    returning, of_decide_eq_true popped, List.any_eq_true.mp skipped⟩

/-- A return from a finally body skips the one around it. -/
theorem return_skips_finally :
    ¬ ∀ (setup : Setup) (machine : Machine) (instruction : Instruction) (scene next : Scene)
      (signal : Signal) (thread : Thread), Reachable setup machine →
      machine.Executes setup instruction scene signal next →
      scene.thread.returning? instruction = some thread →
      next.thread.calls.size < thread.calls.size →
      ∀ record ∈ thread.ownTries, record.phase.isInFinally := by
  intro never
  obtain ⟨machine, instruction, scene, signal, next, thread, reachable, executes, returning, popped,
    record, member, intercepts⟩ := returnsFromFinally_skips
  have done := never _ machine instruction scene next signal thread reachable executes returning
    popped record member
  unfold TryRecord.intercepts at intercepts
  unfold TryPhase.isInFinally at done
  cases hp : record.phase <;> simp [hp] at intercepts done

/-- The return from the inner finally body drops both constructs. -/
theorem return_drops_returnsFromFinally :
    ∃ machine instruction scene signal next thread,
      Reachable returnsFromFinally machine ∧
      machine.Executes returnsFromFinally instruction scene signal next ∧
      scene.thread.returning? instruction = some thread ∧
      next.thread.calls.size < thread.calls.size ∧
      next.thread.calls = thread.calls.pop ∧
      ∃ record ∈ thread.ownTries.tail, record.intercepts := by
  obtain ⟨machine, instruction, scene, signal, next, thread, reachable, executes, returning, popped,
    skipped⟩ := returnsFromFinally_skips
  obtain ⟨pop, -, -, -, skips⟩ :=
    Reachable.return_drops reachable executes returning popped
  exact ⟨machine, instruction, scene, signal, next, thread, reachable, executes, returning, popped,
    pop, skips.mp skipped⟩

end Machine

end ObjectMachine
