import ObjectMachine.Proofs.Code.Stream
import ObjectMachine.Proofs.Machine.Returns

/-!
# Branches and try constructs

A branch in the try or catch body of a construct stays between its entry and its finally body, or
is put off until the finally body has run. The entry itself is a place to stay at: a branch to it
enters the construct once more, on top of the record that is there already. As long as no branch
leads back to such an entry, the constructs of a frame that are in their try or catch body have
been entered at different places, each behind those around it.
-/

namespace ObjectMachine

def TryRecord.forward (record : TryRecord) : Bool :=
  record.start < record.onFinally && record.onCatch.all (record.start < ·)

namespace TryRecord

theorem forward_iff {record : TryRecord} : record.forward ↔
    record.start < record.onFinally ∧ ∀ onCatch ∈ record.onCatch, record.start < onCatch := by
  unfold forward
  cases record.onCatch <;> simp

end TryRecord

namespace Thread

variable {thread : Thread}

/-- The branch that an instruction takes: the thread that it is taken in, and the target. At the
end of a finally body that has put a branch off that is the thread without the construct. -/
def branching? (instruction : Instruction) (thread : Thread) : Option (Thread × Nat) :=
  match instruction.opcode, thread.currentTry?.map (·.phase) with
  | .leaveFinally, some (TryPhase.inFinally (.branch target)) =>
    some ({ thread with handlers := thread.handlers.tail }, target)
  | _, _ => (thread.branch? instruction).map (thread, ·)

theorem branching?_of_branch? {instruction : Instruction} {target : Nat}
    (h : thread.branch? instruction = some target) :
    thread.branching? instruction = some (thread, target) := by
  unfold branching?
  split
  · next leaves _ =>
      rw [branch?, leaves] at h
      cases h
  · rw [h, Option.map_some]

theorem Moves.branches {setup : Setup} {instruction : Instruction} {other : Thread} {target : Nat}
    {after : Registers} {signal : Signal} (hm : thread.Moves setup instruction after signal)
    (h : thread.branching? instruction = some (other, target)) :
    after = (other.branchTo target).registers := by
  unfold branching? at h
  unfold Moves at hm
  cases hop : instruction.opcode with
  | jmp | jt | jf | jce | jcne | jcl | jcle | jcg | jcge | caseOf =>
      rw [hop] at h hm
      obtain ⟨taken, found, same⟩ := Option.map_eq_some_iff.mp h
      obtain ⟨rfl, rfl⟩ := Prod.mk.inj same
      rw [hm, found]
      rfl
  | leaveFinally =>
      rw [hop] at h hm
      obtain ⟨record, exit, found, phase, out⟩ := hm
      rw [found, Option.map_some, phase] at h
      cases exit with
      | branch target =>
          obtain ⟨rfl, rfl⟩ := Prod.mk.inj (Option.some.inj h)
          exact out.1
      | _ =>
          rw [branch?, hop] at h
          cases h
  | _ =>
      rw [hop, branch?, hop] at h
      cases h

/-- A construct whose finally body a branch has to go through first. -/
theorem interceptor?_eq_some {record : TryRecord} : thread.interceptor? = some record ↔
    ∃ outer, thread.handlers = record :: outer ∧ record.callDepth = thread.calls.size ∧
      record.intercepts = true := by
  rw [interceptor?, Option.filter_eq_some_iff]
  constructor
  · rintro ⟨current, intercepts⟩
    obtain ⟨outer, found, own⟩ := currentTry?_eq_some.mp current
    exact ⟨outer, found, own, intercepts⟩
  · rintro ⟨outer, found, own, intercepts⟩
    exact ⟨currentTry?_eq_some.mpr ⟨outer, found, own⟩, intercepts⟩

def putOff (record : TryRecord) (target : Nat) (thread : Thread) : Registers :=
  { thread.registers with
    handlers := { record with phase := .inFinally (.branch target) } :: thread.handlers.tail
    ip := record.onFinally }

theorem registers_branchTo {record : TryRecord} (within : thread.interceptor? = some record)
    (target : Nat) :
    (thread.branchTo target).registers =
      if record.covers target then { thread.registers with ip := target }
      else thread.putOff record target := by
  obtain ⟨outer, found, -, -⟩ := interceptor?_eq_some.mp within
  unfold branchTo
  rw [within]
  dsimp only
  cases record.covers target with
  | true => rfl
  | false =>
      simp only [enterFinally, found, putOff, registers, Bool.false_eq_true, if_false,
        List.tail_cons]

theorem registers_branchTo_of_free (free : thread.interceptor? = none) (target : Nat) :
    (thread.branchTo target).registers = { thread.registers with ip := target } := by
  unfold branchTo
  rw [free]
  rfl

/-- Whether a branch leaves the entries of the frame's constructs behind it: one out of a try or
catch body does not go to the entry of the construct, one out of a finally body to none that lies at
or before the entry of a construct around it. -/
def leadsOn (target : Nat) (thread : Thread) : Bool :=
  match thread.interceptor? with
  | some record => target != record.start
  | none => thread.ownTries.all fun record => !record.intercepts || record.start < target

/-- Whether an instruction leaves the entries of the frame's constructs behind it, and enters none
with a body at or before its entry. -/
def goesOn (instruction : Instruction) (thread : Thread) : Bool :=
  (thread.branching? instruction).all (fun (other, target) => other.leadsOn target) &&
    (instruction.opcode != .enterTry || (thread.entered instruction).forward)

theorem leadsOn_of_goesOn {instruction : Instruction} (goes : thread.goesOn instruction)
    {other : Thread} {target : Nat}
    (taken : thread.branching? instruction = some (other, target)) : other.leadsOn target := by
  have := (Bool.and_eq_true_iff.mp goes).1
  rwa [taken] at this

theorem forward_of_goesOn {instruction : Instruction} (goes : thread.goesOn instruction)
    (enters : instruction.opcode = .enterTry) : (thread.entered instruction).forward := by
  have := (Bool.and_eq_true_iff.mp goes).2
  rwa [enters] at this

end Thread

namespace Registers

/-- The constructs are entered one behind the other, and every frame is behind the entries of
those of its constructs that are in their try or catch body. -/
structure Onward (registers : Registers) : Prop where
  nested : registers.Nested
  forward : ∀ record ∈ registers.handlers, record.forward
  order : registers.handlers.Pairwise fun inner outer =>
    inner.callDepth = outer.callDepth → outer.intercepts → outer.start < inner.start
  here : ∀ record ∈ registers.handlers, record.callDepth = registers.calls.size →
    record.intercepts → record.start < registers.ip
  saved : ∀ record ∈ registers.handlers, ∀ call ∈ registers.calls[record.callDepth]?,
    record.intercepts → record.start < call.returnIp

namespace Onward

variable {registers : Registers}

theorem withIp (h : registers.Onward) {ip : Nat}
    (here : ∀ record ∈ registers.handlers, record.callDepth = registers.calls.size →
      record.intercepts → record.start < ip) : Onward { registers with ip } :=
  ⟨h.nested.withIp ip, h.forward, h.order, here, h.saved⟩

theorem suffix (h : registers.Onward) {handlers : List TryRecord}
    (left : handlers <:+ registers.handlers) : Onward { registers with handlers } where
  nested := h.nested.suffix left (Nat.le_refl _)
  forward record member := h.forward record (left.subset member)
  order := h.order.sublist left.sublist
  here record member := h.here record (left.subset member)
  saved record member := h.saved record (left.subset member)

theorem rewound (h : registers.Onward) {record : TryRecord} (record' : TryRecord)
    {outer : List TryRecord} {after : Registers} (found : registers.handlers = record :: outer)
    (handlers : after.handlers = record' :: outer)
    (size : after.calls.size = record.callDepth)
    (calls : ∀ depth < record.callDepth, after.calls[depth]? = registers.calls[depth]?)
    (same : { record' with phase := record.phase } = record)
    (finishes : record'.intercepts → record.intercepts)
    (behind : record.start < after.ip) : after.Onward := by
  obtain ⟨nested, forward, order, here, saved⟩ := h
  have keeps : record'.callDepth = record.callDepth ∧ record'.start = record.start ∧
      record'.forward = record.forward := by
    rw [← same]
    exact ⟨rfl, rfl, rfl⟩
  obtain ⟨sameDepth, sameStart, sameForward⟩ := keeps
  rw [found] at forward order here saved
  obtain ⟨behindOuter, orderOuter⟩ := List.pairwise_cons.mp order
  have before : ∀ other ∈ record' :: outer, other.callDepth = record.callDepth →
      other.intercepts → other.start ≤ record.start := by
    intro other member own intercepts
    rcases List.mem_cons.mp member with rfl | member
    · exact Nat.le_of_eq sameStart
    · exact Nat.le_of_lt (behindOuter other member own.symm intercepts)
  refine ⟨nested.of_phase record' found sameDepth handlers (Nat.le_of_eq size.symm), ?_, ?_, ?_,
    ?_⟩
  · rw [handlers]
    intro other member
    rcases List.mem_cons.mp member with rfl | member
    · exact sameForward ▸ forward record List.mem_cons_self
    · exact forward other (List.mem_cons_of_mem _ member)
  · rw [handlers]
    refine List.pairwise_cons.mpr ⟨fun other member own intercepts => ?_, orderOuter⟩
    exact sameStart ▸ behindOuter other member (sameDepth ▸ own) intercepts
  · rw [handlers, size]
    exact fun other member own intercepts =>
      Nat.lt_of_le_of_lt (before other member own intercepts) behind
  · rw [handlers]
    intro other member call kept intercepts
    have below : other.callDepth < record.callDepth := by
      rw [← size]
      exact (Array.getElem?_eq_some_iff.mp kept).1
    rcases List.mem_cons.mp member with rfl | member
    · exact absurd below (Nat.not_lt_of_le (Nat.le_of_eq sameDepth.symm))
    · refine saved other (List.mem_cons_of_mem _ member) call ?_ intercepts
      rwa [calls other.callDepth below] at kept

end Onward

end Registers

namespace Thread

variable {thread : Thread}

/-! ## Each instruction -/

theorem onward_enterFinally (h : thread.registers.Onward) {record : TryRecord}
    (current : thread.currentTry? = some record) (exit : ExitAction) :
    (thread.enterFinally exit).registers.Onward := by
  obtain ⟨outer, found, own⟩ := currentTry?_eq_some.mp current
  have forward := h.forward record (by rw [registers, found]; exact List.mem_cons_self)
  have after : (thread.enterFinally exit).registers = { thread.registers with
      handlers := { record with phase := .inFinally exit } :: outer
      ip := record.onFinally } := by
    simp only [enterFinally, found, registers]
  rw [after]
  exact h.rewound { record with phase := .inFinally exit } found rfl own.symm
    (fun _ _ => rfl) rfl (fun finishes => by cases finishes) (TryRecord.forward_iff.mp forward).1

/-- A branch keeps the order if it does not lead to the entry of the construct that it is in, nor
from a finally body to or before that of a construct around it. -/
theorem onward_branchTo (h : thread.registers.Onward) {target : Nat}
    (goes : thread.leadsOn target) : (thread.branchTo target).registers.Onward := by
  unfold leadsOn at goes
  cases within : thread.interceptor? with
  | some record =>
      rw [within] at goes
      obtain ⟨outer, found, own, intercepts⟩ := interceptor?_eq_some.mp within
      rw [registers_branchTo within]
      split
      · next covered =>
          unfold TryRecord.covers at covered
          have behind : record.start < target := by
            have : target ≠ record.start := by simpa using goes
            have : record.start ≤ target ∧ target < record.onFinally := by simpa using covered
            omega
          have order := h.order
          rw [registers, found] at order
          obtain ⟨before, -⟩ := List.pairwise_cons.mp order
          refine h.withIp fun other member own' intercepts' => ?_
          rw [registers, found] at member
          rcases List.mem_cons.mp member with rfl | member
          · exact behind
          · exact Nat.lt_trans (before other member (own.trans own'.symm) intercepts') behind
      · have parked := onward_enterFinally h (currentTry?_eq_some.mpr ⟨outer, found, own⟩)
          (.branch target)
        simpa only [enterFinally, found, putOff, registers, List.tail_cons] using parked
  | none =>
      rw [within] at goes
      rw [registers_branchTo_of_free within]
      refine h.withIp fun record member own intercepts => ?_
      have listed : record ∈ thread.ownTries :=
        List.mem_filter.mpr ⟨member, decide_eq_true own⟩
      have := List.all_eq_true.mp goes record listed
      simpa [intercepts] using this

theorem onward_popCall (h : thread.registers.Onward) {call : CallRecord}
    (top : thread.calls.back? = some call) :
    (thread.popCall.restore call).registers.Onward := by
  have suffix := List.dropWhile_suffix (l := thread.handlers)
    fun record : TryRecord => thread.calls.pop.size < record.callDepth
  have nested := nested_popCall h.nested call
  have last : thread.calls[thread.calls.pop.size]? = some call := by
    rw [Array.size_pop, ← Array.back?_eq_getElem?]
    exact top
  refine ⟨nested, fun record member => h.forward record (suffix.subset member),
    h.order.sublist suffix.sublist, fun record member own intercepts => ?_,
    fun record member kept found intercepts => ?_⟩
  · exact h.saved record (suffix.subset member) call (own ▸ last) intercepts
  · refine h.saved record (suffix.subset member) kept ?_ intercepts
    obtain ⟨inside, rfl⟩ := Array.getElem?_eq_some_iff.mp found
    change record.callDepth < thread.calls.pop.size at inside
    rw [Array.size_pop] at inside
    change thread.calls[record.callDepth]? = some (thread.calls.pop[record.callDepth])
    rw [Array.getElem_pop, Array.getElem?_eq_getElem]

theorem Returns.onward {form : ReturnForm} {after : Registers} {signal : Signal}
    (hr : thread.Returns form after signal) (h : thread.registers.Onward) : after.Onward := by
  cases hr with
  | deferred intercepted =>
      obtain ⟨record, within⟩ := Option.isSome_iff_exists.mp intercepted
      obtain ⟨outer, found, own, -⟩ := interceptor?_eq_some.mp within
      exact onward_enterFinally h (currentTry?_eq_some.mpr ⟨outer, found, own⟩) _
  | left free bottom => exact h
  | popped free top => exact onward_popCall h top

theorem Raises.onward {exception : Value} {after : Registers}
    (hr : thread.Raises exception after) (h : thread.registers.Onward) : after.Onward := by
  have rewound {record : TryRecord} (record' : TryRecord) {outer : List TryRecord} {ip : Nat}
      (found : thread.handlers.dropWhile (·.phase.isInFinally) = record :: outer)
      (same : { record' with phase := record.phase } = record)
      (finishes : record'.intercepts → record.intercepts) (behind : record.start < ip) :
      Registers.Onward { (thread.rewind record).registers with
        handlers := record' :: outer
        ip } := by
    have suffix : record :: outer <:+ thread.handlers := found ▸ List.dropWhile_suffix _
    have depth : record.callDepth ≤ thread.calls.size :=
      h.nested.depth record (suffix.subset List.mem_cons_self)
    refine (h.suffix suffix).rewound record' rfl rfl ?_ (fun depth' below => ?_) same finishes
      behind
    · change (thread.calls.shrink record.callDepth).size = _
      rw [Array.size_shrink]
      exact Nat.min_eq_left depth
    · change (thread.calls.shrink record.callDepth)[depth']? = thread.calls[depth']?
      have below' : depth' < thread.calls.size := Nat.lt_of_lt_of_le below depth
      have inside : depth' < (thread.calls.shrink record.callDepth).size := by
        rw [Array.size_shrink, Nat.min_eq_left depth]
        exact below
      rw [Array.getElem?_eq_getElem below', Array.getElem?_eq_getElem inside,
        Array.getElem_shrink]
  have forward {record : TryRecord} {outer : List TryRecord}
      (found : thread.handlers.dropWhile (·.phase.isInFinally) = record :: outer) :=
    TryRecord.forward_iff.mp (h.forward record
      ((found ▸ List.dropWhile_suffix _ : record :: outer <:+ thread.handlers).subset
        List.mem_cons_self))
  cases hr with
  | @caught record outer onCatch found phase there =>
      refine rewound { record with phase := .inCatch exception } found rfl
        (fun _ => ?_) ((forward found).2 onCatch there)
      rw [TryRecord.intercepts, phase]
  | @passed record outer found only =>
      exact rewound { record with phase := .inFinally (.rethrow exception) } found
        rfl (fun finishes => by cases finishes) (forward found).1

theorem Enters.onward {setup : Setup} {returnIp : Nat} {after : Registers}
    (he : thread.Enters setup returnIp after) (h : thread.registers.Onward)
    (returns : ∀ record ∈ thread.handlers, record.callDepth = thread.calls.size →
      record.intercepts → record.start < returnIp) : after.Onward := by
  have nested := Enters.nested he h.nested
  obtain ⟨kind, dp, -, -, -⟩ := he
  refine ⟨nested, h.forward, h.order, fun record member own _ => ?_,
    fun record member call kept intercepts => ?_⟩
  · have depth := h.nested.depth record member
    simp only [registers] at depth
    simp only [Array.size_push] at own
    omega
  · simp only [Array.getElem?_push] at kept
    split at kept
    · next own =>
        obtain rfl := Option.some.inj kept
        exact returns record member own intercepts
    · exact h.saved record member call kept intercepts

theorem onward_entered (h : thread.registers.Onward) {instruction : Instruction}
    (forward : (thread.entered instruction).forward) (ahead : instruction.offset < thread.ip)
    (behind : ∀ record ∈ thread.handlers, record.callDepth = thread.calls.size →
      record.intercepts → record.start < instruction.offset) :
    Registers.Onward
      { thread.registers with handlers := thread.entered instruction :: thread.handlers } := by
  have depth : ∀ record ∈ thread.entered instruction :: thread.handlers,
      record.callDepth ≤ thread.calls.size := by
    intro record member
    rcases List.mem_cons.mp member with rfl | member
    · exact Nat.le_refl _
    · exact h.nested.depth record member
  refine ⟨⟨List.pairwise_cons.mpr ⟨h.nested.depth, h.nested.order⟩, depth⟩, ?_, ?_, ?_, ?_⟩
  · intro record member
    rcases List.mem_cons.mp member with rfl | member
    · exact forward
    · exact h.forward record member
  · exact List.pairwise_cons.mpr
      ⟨fun record member own => behind record member own.symm, h.order⟩
  · intro record member own intercepts
    rcases List.mem_cons.mp member with rfl | member
    · exact ahead
    · exact h.here record member own intercepts
  · intro record member call kept intercepts
    rcases List.mem_cons.mp member with rfl | member
    · have inside := (Array.getElem?_eq_some_iff.mp kept).1
      exact absurd inside (Nat.lt_irrefl _)
    · exact h.saved record member call kept intercepts

theorem CarriesOut.onward {exit : ExitAction} {after : Registers} {signal : Signal}
    (hc : thread.CarriesOut exit after signal) (h : thread.registers.Onward)
    (goes : ∀ target, exit = .branch target → thread.leadsOn target) : after.Onward := by
  cases exit with
  | fallThrough => exact hc.1 ▸ h
  | ret => exact Returns.onward hc h
  | retValue value => exact Returns.onward hc h
  | retConstructor => exact Returns.onward hc h
  | branch target => exact hc.1 ▸ onward_branchTo h (goes target rfl)
  | rethrow exception => exact hc.1.onward h

/-- An instruction that goes on keeps the order, the frame being behind the entries of its
constructs when it is at the instruction. -/
theorem Moves.onward {setup : Setup} {instruction : Instruction} {after : Registers}
    {signal : Signal} (hm : thread.Moves setup instruction after signal)
    (h : thread.registers.Onward) (ahead : instruction.offset < thread.ip)
    (behind : ∀ record ∈ thread.handlers, record.callDepth = thread.calls.size →
      record.intercepts → record.start < instruction.offset)
    (goes : thread.goesOn instruction) : after.Onward := by
  cases hm.shifts with
  | stays => exact h
  | branches taken =>
      exact onward_branchTo h (leadsOn_of_goesOn goes (branching?_of_branch? taken))
  | returns returns => exact returns.onward h
  | enters back enters =>
      rcases back with rfl | rfl
      · exact enters.onward h h.here
      · exact enters.onward h behind
  | tries entry => exact onward_entered h (forward_of_goesOn goes entry) ahead behind
  | turns current => exact onward_enterFinally h current _
  | ends leaves current phase out =>
      refine CarriesOut.onward out (h.suffix (List.tail_suffix _)) fun target same => ?_
      refine leadsOn_of_goesOn goes ?_
      unfold branching?
      rw [leaves, current, Option.map_some, phase, same]
  | raises raises => exact raises.onward h

end Thread

/-! ## All runs -/

namespace Machine

variable {setup : Setup}

def GoesOn (instruction : Instruction) (scene _after : Scene) : Prop :=
  scene.thread.goesOn instruction = true

theorem ReachableBy.onward {machine : Machine} (h : ReachableBy setup GoesOn machine) :
    ∀ thread ∈ machine.roster.threads, thread.registers.Onward := by
  refine h.registers ⟨⟨.nil, nofun⟩, nofun, .nil, nofun, nofun⟩ ?_
  intro instruction registers scene next signal onward fetched behind moves goes
  have place := Segment.offset_of_fetch fetched
  have ahead : registers.ip < instruction.offset + instruction.size := by
    have := instruction.size_pos
    omega
  have moved : scene.thread.registers.Onward := by
    rw [behind]
    exact onward.withIp fun record member own intercepts =>
      Nat.lt_trans (onward.here record member own intercepts) ahead
  refine moves.onward moved ?_ (fun record member own intercepts => ?_) goes
  · have ip := congrArg Registers.ip behind
    change scene.thread.ip = _ at ip
    rw [ip, place]
    exact place ▸ ahead
  · have handlers := congrArg Registers.handlers behind
    have calls := congrArg Registers.calls behind
    change scene.thread.handlers = registers.handlers at handlers
    change scene.thread.calls = registers.calls at calls
    rw [handlers] at member
    rw [calls] at own
    exact place ▸ onward.here record member own intercepts

/-- A branch that is taken in the try or catch body of a construct lands at or behind the entry and
before the finally body, all constructs being left as they are, or it is put off and control goes
to the finally body. In runs without a branch back to such an entry, the constructs of a frame lie
behind those around them that are in their try or catch body, so that no two of these have been
entered at the same place. -/
theorem branches_stay (setup : Setup) :
    (∀ {machine : Machine} {instruction : Instruction} {scene next : Scene} {signal : Signal}
      {thread : Thread} {target : Nat} {record : TryRecord},
      machine.Executes setup instruction scene signal next →
      scene.thread.branching? instruction = some (thread, target) →
      thread.interceptor? = some record →
      next.thread.registers =
        if record.start ≤ target ∧ target < record.onFinally then
          { thread.registers with ip := target }
        else thread.putOff record target) ∧
    ∀ {machine : Machine}, ReachableBy setup GoesOn machine →
      ∀ thread ∈ machine.roster.threads, thread.handlers.Pairwise fun inner outer =>
        inner.callDepth = outer.callDepth → outer.intercepts → outer.start < inner.start := by
  constructor
  · intro machine instruction scene next signal thread target record executes taken within
    rw [(Step.execute_moves executes.execute).2.branches taken, Thread.registers_branchTo within]
    simp only [TryRecord.covers, Bool.and_eq_true, decide_eq_true_eq]
  · exact fun reachable thread member => (reachable.onward thread member).order

/-- Two try constructs around each other, and a branch from the inner try body to its entry. No
other instruction leads into a construct, so that both are entered at their entries only. -/
def restarts : Setup :=
  (Setup.ofMain? [
    0x70, 0, 9,  -- entertry, without a catch body
    0x70, 0, 5,  -- entertry, without a catch body
    0x50, 0xFD,  -- jmp to the inner entertry
    0x75,        -- leavefinally, the inner finally body
    0x75,        -- leavefinally, the outer finally body
    0x31] 0).get (by decide +kernel)

/-- A run of that program, which comes to the branch after four instructions. -/
def restartsRun (count : Nat) : Progress :=
  Progress.advance restarts count
    (Machine.start restarts (.ofCatalog restarts.program.catalog) (.steps 100) [])

/-- Whether an instruction branches to the entry of the construct that it is in, with another
construct around that. -/
def restartsConstruct (instruction : Instruction) (scene _after : Scene) : Bool :=
  (scene.thread.branching? instruction).any fun (thread, target) =>
    thread.interceptor?.any (fun record => record.start == target && record.covers target) &&
      2 ≤ scene.thread.ownTries.length

theorem exists_restart :
    ∃ machine instruction scene signal next thread target record,
      ReachableBy restarts GoesOn machine ∧
      machine.Executes restarts instruction scene signal next ∧
      scene.thread.branching? instruction = some (thread, target) ∧
      thread.interceptor? = some record ∧
      record.start = target ∧ target < record.onFinally ∧ 2 ≤ scene.thread.ownTries.length := by
  have goes : ∀ before < 4, nextSatisfies restarts
      (fun instruction scene _ => scene.thread.goesOn instruction) (restartsRun before) := by
    decide +kernel
  have restart : nextSatisfies restarts restartsConstruct (restartsRun 4) := by
    decide +kernel
  obtain ⟨machine, instruction, scene, signal, next, reached, executes, holds⟩ :=
    exists_of_nextSatisfies restart
  obtain ⟨⟨thread, target⟩, taken, holds⟩ := (Option.any_eq_true _ _).mp holds
  obtain ⟨entry, nested⟩ := Bool.and_eq_true_iff.mp holds
  obtain ⟨record, within, entry⟩ := (Option.any_eq_true _ _).mp entry
  obtain ⟨start, covered⟩ := Bool.and_eq_true_iff.mp entry
  have inside : record.start ≤ target ∧ target < record.onFinally := by
    simpa [TryRecord.covers] using covered
  exact ⟨machine, instruction, scene, signal, next, thread, target, record,
    .of_advance id goes reached, executes, taken, within, by simpa using start, inside.2,
    of_decide_eq_true nested⟩

/-- A branch to the entry itself lands there, and no finally body is entered. -/
theorem branch_restarts :
    ¬ ∀ (setup : Setup) (machine : Machine) (instruction : Instruction) (scene next : Scene)
      (signal : Signal) (thread : Thread) (target : Nat) (record : TryRecord),
      Reachable setup machine → machine.Executes setup instruction scene signal next →
      scene.thread.branching? instruction = some (thread, target) →
      thread.interceptor? = some record →
      next.thread.registers = thread.putOff record target ∨
        record.start < target ∧ target < record.onFinally := by
  intro strictly
  obtain ⟨machine, instruction, scene, signal, next, thread, target, record, reachable, executes,
    taken, within, start, inside, -⟩ := exists_restart
  rcases strictly _ machine instruction scene next signal thread target record reachable.reachable
    executes taken within with parked | ⟨behind, -⟩
  · have moved := (Step.execute_moves executes.execute).2.branches taken
    have covered : record.covers target = true := by
      simp [TryRecord.covers, start, inside]
    rw [Thread.registers_branchTo within, if_pos covered, parked] at moved
    have ip : record.onFinally = target := congrArg Registers.ip moved
    omega
  · omega

/-- The run comes to a branch that lands at the entry of the inner construct, and the two
constructs have been entered one behind the other. -/
theorem branches_stay_restarts :
    ∃ machine instruction scene signal next thread target record,
      ReachableBy restarts GoesOn machine ∧
      machine.Executes restarts instruction scene signal next ∧
      scene.thread.branching? instruction = some (thread, target) ∧
      thread.interceptor? = some record ∧ 2 ≤ scene.thread.ownTries.length ∧
      record.start = target ∧ next.thread.registers = { thread.registers with ip := target } ∧
      ∀ thread ∈ machine.roster.threads, thread.handlers.Pairwise fun inner outer =>
        inner.callDepth = outer.callDepth → outer.intercepts → outer.start < inner.start := by
  obtain ⟨machine, instruction, scene, signal, next, thread, target, record, reachable, executes,
    taken, within, start, inside, nested⟩ := exists_restart
  obtain ⟨lands, order⟩ := branches_stay restarts
  have landed := lands executes taken within
  rw [if_pos ⟨Nat.le_of_eq start, inside⟩] at landed
  exact ⟨machine, instruction, scene, signal, next, thread, target, record, reachable, executes,
    taken, within, nested, start, landed, order reachable⟩

end Machine

end ObjectMachine
