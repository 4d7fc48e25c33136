import ObjectMachine.Proofs.Code.Stream
import ObjectMachine.Proofs.Machine.Endings
import ObjectMachine.Proofs.Machine.Frames

/-!
# The regions of the modules

A program's code has a region for each module, and threads stay in that of the module whose tables
they use: calls go where a method of the module starts that they change to, and whatever leads back
to a frame, a return or a throw, leads to the region of its module. Only the end of a region is not
guarded. A thread that goes on there executes the next module's code.
-/

namespace ObjectMachine

structure Regions (program : Program) where
  /-- Whether an instruction of a module starts at an address. -/
  Holds : ModuleId → Nat → Prop
  /-- The address at which the code of a module ends. -/
  stop : ModuleId → Nat
  entry : Holds program.entryModule program.entry
  methods : ∀ {id : ClassId} {key : MethodKey} {entry : MethodEntry} {address : Nat}
    {localCount : UInt16}, (program.catalog.get id).method? key = some entry →
    entry.body = .bytecode address localCount → Holds entry.moduleId address
  next : ∀ {id : ModuleId} {address : Nat} {instruction : Instruction}, Holds id address →
    program.code.fetch address = .ok instruction →
    Holds id (instruction.offset + instruction.size) ∨
      instruction.offset + instruction.size = stop id
  targets : ∀ {id : ModuleId} {address : Nat} {instruction : Instruction}, Holds id address →
    program.code.fetch address = .ok instruction → ∀ {distance : Int32},
    some distance ∈ instruction.operand.encodedDistances →
    Holds id (instruction.target distance)
  refers : ∀ {id : ModuleId} {address : Nat} {instruction : Instruction}, Holds id address →
    program.code.fetch address = .ok instruction → ∀ {table : ReferenceTable},
    instruction.opcode.references = some table → table ≠ .locals →
    (program.moduleOf id).Has table instruction.index

namespace Regions

variable {program : Program} (regions : Regions program)

/-- Whether an instruction of a module starts at an address, or its code ends there. -/
def Bounds (id : ModuleId) (address : Nat) : Prop :=
  regions.Holds id address ∨ address = regions.stop id

/-- Whether the bodies of a construct lie in the region of its module, and the target of a branch
that it has put off. -/
structure Houses (record : TryRecord) : Prop where
  onCatch : ∀ onCatch ∈ record.onCatch, regions.Holds record.moduleId onCatch
  onFinally : regions.Holds record.moduleId record.onFinally
  putOff : ∀ target, record.phase = .inFinally (.branch target) →
    regions.Holds record.moduleId target

/-- Whether all code addresses that a thread keeps lie in the regions of their modules. -/
structure Keeps (registers : Registers) : Prop where
  ip : regions.Bounds registers.moduleId registers.ip
  calls : ∀ call ∈ registers.calls, regions.Bounds call.moduleId call.returnIp
  handlers : ∀ record ∈ registers.handlers, regions.Houses record

/-- Whether a thread keeps to the regions, and its constructs to their frames. -/
structure Tracks (registers : Registers) : Prop where
  framed : registers.Framed
  keeps : regions.Keeps registers

variable {regions}

theorem Houses.withPhase {record : TryRecord} (h : regions.Houses record) {phase : TryPhase}
    (putOff : ∀ target, phase = .inFinally (.branch target) →
      regions.Holds record.moduleId target) : regions.Houses { record with phase } :=
  ⟨h.onCatch, h.onFinally, putOff⟩

namespace Keeps

variable {registers after : Registers}

theorem withIp (h : regions.Keeps registers) {ip : Nat}
    (there : regions.Bounds registers.moduleId ip) : regions.Keeps { registers with ip } :=
  ⟨there, h.calls, h.handlers⟩

theorem suffix (h : regions.Keeps registers) {handlers : List TryRecord}
    (left : handlers <:+ registers.handlers) : regions.Keeps { registers with handlers } :=
  ⟨h.ip, h.calls, fun record member => h.handlers record (left.subset member)⟩

/-- Control goes to a body of the innermost construct that is left, in the frame of that. -/
theorem turn (h : regions.Keeps registers) {record record' : TryRecord} {outer : List TryRecord}
    (left : record :: outer <:+ registers.handlers) (handlers : after.handlers = record' :: outer)
    (houses : regions.Houses record') (calls : ∀ call ∈ after.calls, call ∈ registers.calls)
    (there : regions.Holds after.moduleId after.ip) : regions.Keeps after := by
  refine ⟨.inl there, fun call member => h.calls call (calls call member), fun other member => ?_⟩
  rw [handlers] at member
  rcases List.mem_cons.mp member with rfl | member
  · exact houses
  · exact h.handlers other (left.subset (List.mem_cons_of_mem _ member))

end Keeps

end Regions

/-- A construct of the current frame has its module. -/
theorem Registers.Framed.moduleId_of_current {thread : Thread} (h : thread.registers.Framed)
    {record : TryRecord} (current : thread.currentTry? = some record) :
    record.moduleId = thread.moduleId := by
  obtain ⟨outer, found, own⟩ := Thread.currentTry?_eq_some.mp current
  have context := h.context record (show record ∈ thread.handlers by simp [found])
  rw [own] at context
  have here := thread.registers.context?_here
  exact (congrArg Prod.snd (Option.some.inj (here.symm.trans context))).symm

namespace Thread

variable {setup : Setup} {regions : Regions setup.program} {thread : Thread}

/-! ## Each instruction -/

theorem keeps_enterFinally (h : regions.Keeps thread.registers) {record : TryRecord}
    (current : thread.currentTry? = some record) (same : record.moduleId = thread.moduleId)
    {exit : ExitAction}
    (putOff : ∀ target, exit = .branch target → regions.Holds thread.moduleId target) :
    regions.Keeps (thread.enterFinally exit).registers := by
  obtain ⟨outer, found, -⟩ := currentTry?_eq_some.mp current
  have houses := h.handlers record (show record ∈ thread.handlers by simp [found])
  unfold enterFinally
  rw [found]
  have all : record :: outer <:+ thread.handlers := found ▸ List.suffix_rfl
  refine h.turn all rfl (houses.withPhase fun target parked => ?_) (fun _ kept => kept) ?_
  · exact same ▸ putOff target (TryPhase.inFinally.inj parked)
  · change regions.Holds thread.moduleId record.onFinally
    exact same ▸ houses.onFinally

theorem keeps_branchTo (h : regions.Keeps thread.registers) (framed : thread.registers.Framed)
    {target : Nat} (there : regions.Holds thread.moduleId target) :
    regions.Keeps (thread.branchTo target).registers := by
  unfold branchTo
  cases within : thread.interceptor? with
  | none => exact h.withIp (.inl there)
  | some record =>
      dsimp only
      split
      · exact h.withIp (.inl there)
      · have current := (Option.filter_eq_some_iff.mp within).1
        refine keeps_enterFinally h current (framed.moduleId_of_current current) ?_
        rintro _ ⟨⟩
        exact there

theorem Returns.keeps {form : ReturnForm} {after : Registers} {signal : Signal}
    (hr : thread.Returns form after signal) (h : regions.Keeps thread.registers)
    (framed : thread.registers.Framed) : regions.Keeps after := by
  cases hr with
  | deferred intercepted =>
      obtain ⟨record, within⟩ := Option.isSome_iff_exists.mp intercepted
      have current := (Option.filter_eq_some_iff.mp within).1
      refine keeps_enterFinally h current (framed.moduleId_of_current current) fun target put => ?_
      cases form <;> cases put
  | left free bottom => exact h
  | @popped call free top =>
      have waiting : call ∈ thread.calls := Array.mem_of_back? top
      refine ⟨h.calls call waiting, fun other member => h.calls other ?_, fun record member =>
        h.handlers record ((List.dropWhile_suffix _).subset member)⟩
      exact mem_of_mem_pop member

theorem Raises.keeps {exception : Value} {after : Registers}
    (hr : thread.Raises exception after) (h : regions.Keeps thread.registers) :
    regions.Keeps after := by
  have left {record : TryRecord} {outer : List TryRecord}
      (found : thread.handlers.dropWhile (·.phase.isInFinally) = record :: outer) :
      record :: outer <:+ thread.handlers := found ▸ List.dropWhile_suffix _
  have calls (record : TryRecord) : ∀ call ∈ (thread.rewind record).calls, call ∈ thread.calls :=
    fun _ => mem_of_mem_shrink
  cases hr with
  | @caught record outer onCatch found phase there =>
      have houses := h.handlers record ((left found).subset List.mem_cons_self)
      exact h.turn (left found) rfl (houses.withPhase nofun) (calls record)
        (houses.onCatch onCatch there)
  | @passed record outer found only =>
      have houses := h.handlers record ((left found).subset List.mem_cons_self)
      exact h.turn (left found) rfl (houses.withPhase nofun) (calls record) houses.onFinally

theorem CarriesOut.keeps {exit : ExitAction} {after : Registers} {signal : Signal}
    (hc : thread.CarriesOut exit after signal) (h : regions.Keeps thread.registers)
    (framed : thread.registers.Framed)
    (putOff : ∀ target, exit = .branch target → regions.Holds thread.moduleId target) :
    regions.Keeps after := by
  cases exit with
  | fallThrough => exact hc.1 ▸ h
  | ret | retValue | retConstructor => exact Returns.keeps hc h framed
  | branch target => exact hc.1 ▸ keeps_branchTo h framed (putOff target rfl)
  | rethrow exception => exact hc.1.keeps h

theorem Enters.keeps {returnIp : Nat} {after : Registers}
    (he : thread.Enters setup returnIp after) (h : regions.Keeps thread.registers)
    (back : regions.Bounds thread.moduleId returnIp) : regions.Keeps after := by
  obtain ⟨kind, dp, method, body, -⟩ := he
  refine ⟨.inl (regions.methods method body), fun call member => ?_, h.handlers⟩
  rcases Array.mem_push.mp member with member | rfl
  · exact h.calls call member
  · exact back

section

variable {instruction : Instruction} {address : Nat}
  (here : regions.Holds thread.moduleId address)
  (fetched : setup.program.code.fetch address = .ok instruction)

include here fetched

theorem holds_jumpTarget : regions.Holds thread.moduleId instruction.jumpTarget := by
  have stays : regions.Holds thread.moduleId (instruction.target 0) := by
    rw [instruction.target_zero, Segment.offset_of_fetch fetched]
    exact here
  unfold Instruction.jumpTarget
  cases operand : instruction.operand with
  | offset distance =>
      exact regions.targets here fetched (by simp [operand, Operand.encodedDistances])
  | _ => exact stays

theorem holds_selected {target : Nat} (h : thread.selected? instruction = some target) :
    regions.Holds thread.moduleId target := by
  unfold selected? at h
  split at h
  · next number distances _ operand =>
      split at h
      · obtain ⟨distance, found, rfl⟩ := Option.map_eq_some_iff.mp h
        refine regions.targets here fetched ?_
        rw [operand]
        exact List.mem_map_of_mem (List.mem_of_getElem? found)
      · cases h
  · cases h

theorem holds_branch {target : Nat} (h : thread.branch? instruction = some target) :
    regions.Holds thread.moduleId target := by
  have taken {holds : Bool}
      (h : (if holds then some instruction.jumpTarget else none) = some target) :
      regions.Holds thread.moduleId target := by
    cases holds with
    | true =>
        obtain rfl := Option.some.inj h
        exact holds_jumpTarget here fetched
    | false => cases h
  unfold branch? at h
  cases hop : instruction.opcode with
  | jmp =>
      rw [hop] at h
      obtain rfl := Option.some.inj h
      exact holds_jumpTarget here fetched
  | jt | jf | jce | jcne | jcl | jcle | jcg | jcge =>
      rw [hop] at h
      exact taken h
  | caseOf =>
      rw [hop] at h
      exact holds_selected here fetched h
  | _ =>
      rw [hop] at h
      cases h

/-- The bodies of a construct lie where the instruction that enters it does. -/
theorem houses_entered : regions.Houses (thread.entered instruction) := by
  have stays : regions.Holds thread.moduleId (instruction.target 0) := by
    rw [instruction.target_zero, Segment.offset_of_fetch fetched]
    exact here
  unfold entered
  cases operand : instruction.operand with
  | tryPair onCatch onFinally =>
      refine ⟨fun caught listed => ?_, regions.targets here fetched ?_, nofun⟩
      · dsimp only at listed ⊢
        by_cases missing : onCatch = 0
        · simp [missing] at listed
        · obtain rfl : instruction.target onCatch = caught := by simpa [missing] using listed
          refine regions.targets here fetched ?_
          simp [operand, Operand.encodedDistances, missing]
      · simp [operand, Operand.encodedDistances]
  | _ => exact ⟨nofun, stays, nofun⟩

/-- Every instruction of a thread's own module leads to where the thread's addresses should be. -/
theorem Moves.keeps {after : Registers} {signal : Signal}
    (hm : thread.Moves setup instruction after signal) (h : regions.Keeps thread.registers)
    (framed : thread.registers.Framed) : regions.Keeps after := by
  cases hm.shifts with
  | stays => exact h
  | branches taken => exact keeps_branchTo h framed (holds_branch here fetched taken)
  | returns returns => exact returns.keeps h framed
  | enters back enters =>
      rcases back with rfl | rfl
      · exact enters.keeps h h.ip
      · -- It comes back to the class that is being loaded, and not behind it.
        refine enters.keeps h (.inl ?_)
        rw [Segment.offset_of_fetch fetched]
        exact here
  | tries =>
      refine ⟨h.ip, h.calls, fun record member => ?_⟩
      rcases List.mem_cons.mp member with rfl | member
      · exact houses_entered here fetched
      · exact h.handlers record member
  | turns current =>
      exact keeps_enterFinally h current (framed.moduleId_of_current current) nofun
  | @ends record exit _ _ current phase out =>
      have around := h.suffix (List.tail_suffix _)
      refine CarriesOut.keeps out around framed.tail fun target branch => ?_
      obtain ⟨outer, found, -⟩ := currentTry?_eq_some.mp current
      have houses := h.handlers record (show record ∈ thread.handlers by simp [found])
      exact framed.moduleId_of_current current ▸ houses.putOff target (branch ▸ phase)
  | raises raises => exact raises.keeps h

end

end Thread

/-! ## Runs -/

/-- The machine of a run, with the thread chosen that executes the next instruction. -/
def Progress.chosen? : Progress → Option Machine
  | .running machine =>
    match machine.switch with
    | .running chosen => some chosen
    | .ended _ => none
  | .ended _ => none

theorem Progress.chosen?_eq_some {progress : Progress} {chosen : Machine} :
    progress.chosen? = some chosen ↔
      ∃ machine, progress = .running machine ∧ machine.switch = .running chosen := by
  unfold chosen?
  cases progress with
  | ended outcome => simp
  | running machine =>
      dsimp only
      cases switched : machine.switch with
      | ended outcome => simp [switched]
      | running chosen' => simp [switched]

namespace Machine

/-- Whether a run does not go on where the code of the running thread's module has ended. -/
def Avoids (setup : Setup) (stop : ModuleId → Nat) (progress : Progress) : Prop :=
  ∀ chosen, progress.chosen? = some chosen → ∀ instruction,
    setup.program.code.fetch chosen.roster.running.ip = .ok instruction →
    chosen.roster.running.ip ≠ stop chosen.roster.running.moduleId

/-- Whether a run goes on with an instruction that refers to no string, class, field or method but
those of the running thread's module. -/
def Refers (setup : Setup) (progress : Progress) : Prop :=
  ∀ chosen, progress.chosen? = some chosen → ∀ instruction,
    setup.program.code.fetch chosen.roster.running.ip = .ok instruction →
    ∀ table, instruction.opcode.references = some table → table ≠ .locals →
      (setup.program.moduleOf chosen.roster.running.moduleId).Has table instruction.index

/-- What a step executes is at the position of the thread that has been chosen. -/
theorem Executes.exists_chosen {setup : Setup} {machine : Machine} {instruction : Instruction}
    {scene after : Scene} {signal : Signal}
    (executes : machine.Executes setup instruction scene signal after) :
    ∃ chosen, machine.switch = .running chosen ∧
      setup.program.code.fetch chosen.roster.running.ip = .ok instruction ∧
      scene.thread.moduleId = chosen.roster.running.moduleId := by
  obtain ⟨⟨current, ready, rfl⟩, -⟩ := executes
  unfold Machine.ready at ready
  cases switched : machine.switch with
  | ended outcome =>
      rw [switched] at ready
      cases ready
  | running chosen =>
      rw [switched] at ready
      refine ⟨chosen, rfl, fetch_of_execute ready, ?_⟩
      rw [(fetch_eq_execute ready).1]

section

variable {setup : Setup} (regions : Regions setup.program)

def Inside (instruction : Instruction) (scene _after : Scene) : Prop :=
  instruction.offset ≠ regions.stop scene.thread.moduleId

variable {regions}

/-- A thread stays in the regions of its modules. -/
theorem ReachableBy.tracks {machine : Machine} (h : ReachableBy setup (Inside regions) machine) :
    ∀ thread ∈ machine.roster.threads, regions.Tracks thread.registers := by
  refine h.registers ⟨⟨⟨.nil, nofun⟩, nofun⟩, .inl regions.entry, nofun, nofun⟩ ?_
  -- The position is behind the instruction before this is executed, at the next one of the region
  -- or at its end: only the instruction itself is known to lie inside.
  rintro instruction registers scene next signal ⟨framed, keeps⟩ fetched behind moves inside
  have module : scene.thread.moduleId = registers.moduleId := congrArg Registers.moduleId behind
  have here : regions.Holds scene.thread.moduleId registers.ip := by
    rw [module]
    refine keeps.ip.resolve_right ?_
    rw [← Segment.offset_of_fetch fetched, ← module]
    exact inside
  have framed : scene.thread.registers.Framed := behind ▸ framed.withIp _
  have keeps : regions.Keeps scene.thread.registers :=
    behind ▸ keeps.withIp (regions.next (module ▸ here) fetched)
  exact ⟨moves.framed framed, moves.keeps here fetched keeps framed⟩

variable {store : Store} {source : TickSource} {args : List String}

/-- As long as a run has executed nothing at the end of a module's code, all that it executes refers
to the tables of the right modules. -/
theorem refers_of_avoids {count : Nat}
    (avoids : ∀ before ≤ count,
      Avoids setup regions.stop
        (Progress.advance setup before (Machine.start setup store source args))) :
    Refers setup (Progress.advance setup count (Machine.start setup store source args)) := by
  intro chosen next instruction fetched table refers listed
  obtain ⟨machine, reached, switched⟩ := Progress.chosen?_eq_some.mp next
  have inside : ReachableBy setup (Inside regions) machine := by
    refine .of_steps (fun before earlier machine reached {_ _ _ _} executes => ?_) reached
    obtain ⟨chosen, switched, fetched, module⟩ := executes.exists_chosen
    rw [Inside, module, Segment.offset_of_fetch fetched]
    exact avoids before (Nat.le_of_lt earlier) chosen
      (Progress.chosen?_eq_some.mpr ⟨machine, reached, switched⟩) _ fetched
  obtain ⟨old, member, -, same⟩ := mem_of_switch switched chosen.roster.running_mem
  have keeps := (inside.tracks old member).keeps
  rw [← same] at keeps
  have here := keeps.ip.resolve_right (avoids count (Nat.le_refl _) chosen next _ fetched)
  exact regions.refers here fetched refers listed

/-- A run that only refers to what there is in its tables fails to find nothing. -/
theorem resolves_of_refers
    (refers : ∀ count,
      Refers setup (Progress.advance setup count (Machine.start setup store source args)))
    {fuel : Nat} {outcome : Outcome}
    (ended : run setup fuel (Machine.start setup store source args) = some outcome)
    (table : ReferenceTable) (index : UInt32) (name : String) (trace : List Frame) :
    outcome.ending ≠ .faulted (.unresolvedReference table index name) trace := by
  intro unresolved
  rcases exists_advance_of_run ended with begun | ⟨count, machine, reached, ends⟩
  · rw [ending_of_start begun] at unresolved
    cases unresolved
  · obtain ⟨chosen, switched, awake⟩ := (Reachable.of_advance reached).awake.switch
    rw [step_of_switch switched] at ends
    have accounts := ends_of_act awake ends
    rw [unresolved] at accounts
    obtain ⟨thread, fails, -⟩ | ⟨-, -, -, -, -, deadlock, -⟩ := accounts
    · have next := Progress.chosen?_eq_some.mpr ⟨machine, reached, switched⟩
      obtain ⟨_, -, other⟩ | ⟨instruction, fetched, table, there, listed, missing, -⟩ | data |
        ⟨_, full⟩ | ⟨_, deadlock⟩ := fails.cause
      · cases other
      · exact missing (refers count chosen next instruction fetched table there listed)
      · cases data
      · cases full
      · cases deadlock
    · cases deadlock

end

end Machine

end ObjectMachine
