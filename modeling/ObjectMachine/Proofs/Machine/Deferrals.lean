import ObjectMachine.Proofs.Machine.Conventions
import ObjectMachine.Proofs.Machine.Records

/-!
# Exits that are put off

A return or a branch out of several try constructs of a frame goes through their finally bodies, the
innermost first. Each end of a finally body takes the exit up again, and with one construct less the
same decision is made once more: the exit is put off by the next construct, or carried out if it
leaves no other.
-/

namespace ObjectMachine

def ExitAction.leaves : ExitAction → TryRecord → Bool
  | branch target, record => !record.covers target
  | _, _ => true

def ExitAction.IsTaken (exit : ExitAction) : Prop :=
  (∃ form : ReturnForm, exit = form.exit) ∨ ∃ target, exit = .branch target

namespace Thread

def popped (thread : Thread) : Thread :=
  { thread with stack := { thread.stack with slots := thread.stack.slots.pop } }

def decided (instruction : Instruction) (thread : Thread) : Thread :=
  match instruction.opcode with
  | .jt | .jf | .caseOf => thread.popped
  | .jce | .jcne | .jcl | .jcle | .jcg | .jcge => thread.popped.popped
  | _ => thread

/-- The return or branch that an instruction carries out, and the thread that carries it out: that
before the instruction without its operands, or without the construct whose finally body ends. -/
def exiting? (instruction : Instruction) (thread : Thread) : Option (Thread × ExitAction) :=
  match thread.returned? instruction with
  | some (returner, form) => some (returner, form.exit)
  | none => (thread.branching? instruction).map fun (other, target) =>
    (other.decided instruction, .branch target)

theorem exiting?_eq_some {instruction : Instruction} {thread other : Thread} {exit : ExitAction}
    (h : thread.exiting? instruction = some (other, exit)) :
    (∃ form, thread.returned? instruction = some (other, form) ∧ exit = form.exit) ∨
      ∃ same target, thread.branching? instruction = some (same, target) ∧
        other = same.decided instruction ∧ exit = .branch target := by
  unfold exiting? at h
  split at h
  · next returner form returns =>
      cases h
      exact .inl ⟨form, returns, rfl⟩
  · obtain ⟨⟨same, target⟩, branches, result⟩ := Option.map_eq_some_iff.mp h
    cases result
    exact .inr ⟨same, target, branches, rfl, rfl⟩

theorem isTaken_of_exiting {instruction : Instruction} {thread other : Thread} {exit : ExitAction}
    (h : thread.exiting? instruction = some (other, exit)) : exit.IsTaken := by
  rcases exiting?_eq_some h with ⟨form, -, rfl⟩ | ⟨_, target, -, -, rfl⟩
  · exact .inl ⟨form, rfl⟩
  · exact .inr ⟨target, rfl⟩

end Thread

namespace Step

variable {setup : Setup} {scene : Scene} {target : Nat}

theorem carryOut_exit (form : ReturnForm) : carryOut form.exit = returnFrom form := by
  cases form <;> rfl

theorem jumpIf_of_condition {opcode : Opcode} {wanted : Bool}
    (holds : scene.thread.condition? = some wanted) :
    jumpIf opcode wanted target setup scene =
      .ok () { scene with thread := scene.thread.popped.branchTo target } := by
  obtain ⟨value, top, truth⟩ := Option.bind_eq_some_iff.mp holds
  unfold jumpIf
  rw [bind_of_ok (pop_of_back? top), truth]
  dsimp only
  rw [if_pos (beq_self_eq_true wanted)]
  rfl

theorem jumpIfCompare_of_compares {op : ComparisonOp} (holds : scene.thread.compares op = true) :
    jumpIfCompare op target setup scene =
      .ok () { scene with thread := scene.thread.popped.popped.branchTo target } := by
  unfold Thread.compares at holds
  split at holds
  · next a b under top =>
      split at holds
      · next truth compared =>
          have second : scene.thread.popped.stack.slots.back? = some a := under
          have given : require (Value.comparison op a b) setup
              { scene with thread := scene.thread.popped.popped } =
                .ok true { scene with thread := scene.thread.popped.popped } := by
            rw [compared, holds]
            rfl
          unfold jumpIfCompare
          rw [bind_of_ok (pop_of_back? top)]
          refine (bind_of_ok (pop_of_back? second)).trans ?_
          refine (bind_of_ok given).trans ?_
          rw [if_pos rfl]
          rfl
      · cases holds
  · cases holds

theorem jumpByCase_of_selected {instruction : Instruction}
    (selects : scene.thread.selected? instruction = some target) :
    jumpByCase instruction setup scene =
      .ok () { scene with thread := scene.thread.popped.branchTo target } := by
  unfold Thread.selected? at selects
  split at selects
  · next number distances found table =>
      obtain ⟨value, top, integer⟩ := Option.bind_eq_some_iff.mp found
      split at selects
      · next positive =>
          obtain ⟨distance, listed, rfl⟩ := Option.map_eq_some_iff.mp selects
          unfold jumpByCase
          rw [bind_of_ok (pop_of_back? top), integer]
          dsimp only
          rw [table]
          dsimp only
          rw [if_pos positive, listed]
          rfl
      · cases selects
  · cases selects

theorem carryOut_branch : carryOut (.branch target) setup scene =
    .ok .proceed { scene with thread := scene.thread.branchTo target } := rfl

/-- A branch that is taken is carried out when its operands have been taken off the stack. -/
theorem execute_of_branching {instruction : Instruction} {other : Thread}
    (branches : scene.thread.branching? instruction = some (other, target)) :
    execute instruction setup scene =
      carryOut (.branch target) setup { scene with thread := other.decided instruction } := by
  unfold Thread.branching? at branches
  cases opcode : instruction.opcode with
  | jmp =>
      rw [opcode, Thread.branch?, opcode] at branches
      cases branches
      simp only [execute, Thread.decided, opcode]
      rfl
  | jt | jf =>
      rw [opcode, Thread.branch?, opcode] at branches
      dsimp only at branches
      split at branches
      · next holds =>
          cases branches
          simp only [execute, Thread.decided, opcode]
          exact bind_of_ok (jumpIf_of_condition (eq_of_beq holds))
      · cases branches
  | jce | jcne | jcl | jcle | jcg | jcge =>
      rw [opcode, Thread.branch?, opcode] at branches
      dsimp only at branches
      split at branches
      · next holds =>
          cases branches
          simp only [execute, Thread.decided, opcode]
          exact bind_of_ok (jumpIfCompare_of_compares holds)
      · cases branches
  | caseOf =>
      rw [opcode, Thread.branch?, opcode] at branches
      obtain ⟨selected, selects, same⟩ := Option.map_eq_some_iff.mp branches
      cases same
      simp only [execute, Thread.decided, opcode]
      exact bind_of_ok (jumpByCase_of_selected selects)
  | leaveFinally =>
      rw [opcode] at branches
      split at branches
      · next inside =>
          cases branches
          obtain ⟨record, current, phase⟩ := Option.map_eq_some_iff.mp inside
          rw [execute_leaveFinally opcode current, phase, Thread.decided, opcode]
      · rw [Thread.branch?, opcode] at branches
        cases branches
  | _ =>
      rw [opcode, Thread.branch?, opcode] at branches
      cases branches

/-- An instruction that carries out an exit does what the exit does in the thread that it is taken
in. -/
theorem execute_of_exiting {instruction : Instruction} {thread : Thread} {exit : ExitAction}
    (exits : scene.thread.exiting? instruction = some (thread, exit)) :
    execute instruction setup scene = carryOut exit setup { scene with thread } := by
  rcases Thread.exiting?_eq_some exits with ⟨form, returns, rfl⟩ |
    ⟨other, target, branches, rfl, rfl⟩
  · rw [execute_of_returned returns, carryOut_exit]
  · exact execute_of_branching branches

/-- An exit that leaves the construct it is taken in turns to the finally body. -/
theorem carryOut_of_leaves {exit : ExitAction} {record : TryRecord} {outer : List TryRecord}
    (taken : exit.IsTaken) (found : scene.thread.handlers = record :: outer)
    (own : record.callDepth = scene.thread.calls.size) (within : record.intercepts = true)
    (leaves : exit.leaves record = true) :
    carryOut exit setup scene =
      .ok .proceed { scene with thread := scene.thread.enterFinally exit } := by
  have intercepted : scene.thread.interceptor? = some record :=
    Thread.interceptor?_eq_some.mpr ⟨outer, found, own, within⟩
  rcases taken with ⟨form, rfl⟩ | ⟨target, rfl⟩
  · rw [carryOut_exit, returnFrom, ofThread_bind, intercepted]
    rfl
  · have outside : record.covers target = false := by simpa [ExitAction.leaves] using leaves
    rw [carryOut_branch, Thread.branchTo, intercepted]
    dsimp only
    rw [outside]
    rfl

end Step

/-- Whether executing an instruction carries out an exit in a thread. A branch goes on at its
target. A return does what any instruction does that carries out this return in the thread; there
are no constructs of the frame that it could be put off by. -/
def Completes (setup : Setup) (exit : ExitAction) (instruction : Instruction) (scene : Scene)
    (thread : Thread) : Prop :=
  match exit with
  | .branch target =>
    Step.execute instruction setup scene =
      .ok .proceed { scene with thread := { thread with ip := target } }
  | _ =>
    thread.currentTry? = none ∧
      ∀ form ∈ exit.returnForm?, ∀ (again : Instruction) (other : Thread),
        other.returned? again = some (thread, form) →
          Step.execute instruction setup scene =
            Step.execute again setup { scene with thread := other }

/-- Whether an exit goes through the finally bodies of some constructs, from the first one on, and
is carried out then with those around them. Executing an instruction enters the first body, with the
stack cut down. Whenever the end of that body is executed in the same frame, with the constructs as
they were on entry, the exit goes through the other bodies. -/
def GoesThrough (setup : Setup) (exit : ExitAction) (around : List TryRecord) :
    List TryRecord → Instruction → Scene → Thread → Prop
  | [], instruction, scene, thread =>
    Completes setup exit instruction scene { thread with handlers := around }
  | record :: others, instruction, scene, thread =>
    let entered : Thread := { thread with
      handlers := { record with phase := .inFinally exit } :: (others ++ around)
      stack := thread.stack.truncate record.stackDepth
      ip := record.onFinally }
    Step.execute instruction setup scene = .ok .proceed { scene with thread := entered } ∧
      ∀ (leave : Instruction) (reached : Scene), leave.opcode = .leaveFinally →
        reached.thread.calls = entered.calls → reached.thread.handlers = entered.handlers →
          GoesThrough setup exit around others leave reached reached.thread

namespace Step

variable {setup : Setup} {scene : Scene} {thread : Thread} {exit : ExitAction}
  {instruction : Instruction} {around : List TryRecord}

/-- An exit is carried out if the innermost construct is none of the frame, or one that a branch
does not leave. -/
theorem completes_of_carryOut (taken : exit.IsTaken)
    (carries : execute instruction setup scene = carryOut exit setup { scene with thread })
    (stops : ∀ record ∈ thread.currentTry?, record.intercepts = true ∧ exit.leaves record = false) :
    Completes setup exit instruction scene thread := by
  rcases taken with ⟨form, rfl⟩ | ⟨target, rfl⟩
  · have bare : thread.currentTry? = none := by
      refine Option.eq_none_iff_forall_ne_some.mpr fun record current => ?_
      have leaves := (stops record current).2
      cases form <;> cases leaves
    have same {again : Instruction} {other : Thread}
        (returns : other.returned? again = some (thread, form)) :
        execute instruction setup scene = execute again setup { scene with thread := other } := by
      have again' : execute again setup { scene with thread := other } =
          returnFrom form setup { scene with thread } := execute_of_returned returns
      rw [carries, carryOut_exit, again']
    cases form <;> exact ⟨bare, fun _ form again other => by cases form; exact same⟩
  · rw [Completes, carries, carryOut_branch, Thread.branchTo]
    cases within : thread.interceptor? with
    | none => rfl
    | some record =>
        obtain ⟨outer, found, own, -⟩ := Thread.interceptor?_eq_some.mp within
        have leaves := (stops record (Thread.currentTry?_eq_some.mpr ⟨outer, found, own⟩)).2
        have covers : record.covers target = true := by simpa [ExitAction.leaves] using leaves
        dsimp only
        rw [covers]
        rfl

/-- An exit goes through the constructs of the frame that it leaves. -/
theorem goesThrough {records : List TryRecord} (taken : exit.IsTaken)
    (carries : execute instruction setup scene =
      carryOut exit setup { scene with thread := { thread with handlers := records ++ around } })
    (leaves : ∀ record ∈ records, record.callDepth = thread.calls.size ∧
      record.intercepts = true ∧ exit.leaves record = true)
    (stops : ∀ record outer, around = record :: outer → record.callDepth = thread.calls.size →
      record.intercepts = true ∧ exit.leaves record = false) :
    GoesThrough setup exit around records instruction scene thread := by
  induction records generalizing instruction scene thread with
  | nil =>
      refine completes_of_carryOut taken carries fun record current => ?_
      obtain ⟨outer, found, own⟩ := Thread.currentTry?_eq_some.mp current
      exact stops record outer found own
  | cons record others ih =>
      obtain ⟨⟨own, within, leave⟩, leaves⟩ := List.forall_mem_cons.mp leaves
      refine ⟨carries.trans (carryOut_of_leaves taken rfl own within leave), ?_⟩
      intro leave reached ends calls handlers
      have current : reached.thread.currentTry? =
          some { record with phase := .inFinally exit } :=
        Thread.currentTry?_eq_some.mpr ⟨_, handlers, own.trans (congrArg Array.size calls).symm⟩
      have size : reached.thread.calls.size = thread.calls.size := congrArg Array.size calls
      refine ih ?_ (by rwa [size]) (by rwa [size])
      rw [execute_leaveFinally ends current, handlers]
      rfl

end Step

/-- **Exits go through the finally bodies inside out.** A return or a branch in the try or catch
bodies of some constructs of a frame goes through the finally bodies of those that it leaves, one
after the other from the innermost to the outermost: a return through all of them, a branch through
those inside the first one whose range has the target. What the end of the last one does is the exit
itself. -/
theorem exit_goes_inside_out {setup : Setup} {instruction : Instruction} {scene : Scene}
    {thread : Thread} {exit : ExitAction} {records outer : List TryRecord}
    (exits : scene.thread.exiting? instruction = some (thread, exit))
    (found : thread.handlers = records ++ outer)
    (inside : ∀ record ∈ records, record.callDepth = thread.calls.size ∧ record.intercepts = true)
    (only : ∀ record ∈ outer, record.callDepth ≠ thread.calls.size) :
    GoesThrough setup exit (records.dropWhile exit.leaves ++ outer)
      (records.takeWhile exit.leaves) instruction scene thread := by
  refine Step.goesThrough (Thread.isTaken_of_exiting exits) ?_ (fun record member => ?_)
    fun record others around own => ?_
  · rw [Step.execute_of_exiting exits, ← List.append_assoc, List.takeWhile_append_dropWhile,
      ← found]
  · have listed := List.takeWhile_subset _ member
    exact ⟨(inside record listed).1, (inside record listed).2, List.mem_takeWhile_imp member⟩
  · cases stays : records.dropWhile exit.leaves with
    | nil =>
        rw [stays, List.nil_append] at around
        exact absurd own (only record (by rw [around]; exact List.mem_cons_self))
    | cons first rest =>
        rw [stays] at around
        obtain ⟨rfl, -⟩ := List.cons.inj around
        have listed : first ∈ records :=
          (List.dropWhile_suffix _).subset (by rw [stays]; exact List.mem_cons_self)
        have stop := List.head?_dropWhile_not exit.leaves records
        rw [stays] at stop
        exact ⟨(inside first listed).2, by simpa using stop⟩

/-- Two try constructs around each other, and a return in the inner try body. -/
def returnsFromTries : Setup :=
  (Setup.ofMain? [
    0x70, 0, 8,  -- entertry, without a catch body
    0x70, 0, 4,  -- entertry, without a catch body
    0x31,        -- ret
    0x75,        -- leavefinally, the inner finally body
    0x75,        -- leavefinally, the outer finally body
    0x31] 0).get (by decide +kernel)

/-- Whether an instruction returns from the try bodies of the only two constructs. -/
def returnsFromBoth (instruction : Instruction) (scene _after : Scene) : Bool :=
  instruction.opcode = .ret && scene.thread.handlers.length = 2 &&
    scene.thread.handlers.all fun record =>
      record.callDepth = scene.thread.calls.size && record.intercepts

/-- In a run of that program the return goes through both finally bodies. -/
theorem exit_goes_inside_out_returnsFromTries :
    ∃ machine instruction scene signal next inner outer,
      Machine.Reachable returnsFromTries machine ∧
      machine.Executes returnsFromTries instruction scene signal next ∧
      instruction.opcode = .ret ∧ scene.thread.handlers = [inner, outer] ∧
      GoesThrough returnsFromTries .ret [] [inner, outer] instruction scene scene.thread := by
  have returns : Machine.nextSatisfies returnsFromTries returnsFromBoth
      (Progress.advance returnsFromTries 4
        (Machine.start returnsFromTries (.ofCatalog returnsFromTries.program.catalog)
          (.steps 100) [])) = true := by
    decide +kernel
  obtain ⟨machine, instruction, scene, signal, next, reached, executes, holds⟩ :=
    Machine.exists_of_nextSatisfies returns
  obtain ⟨⟨opcode, two⟩, inside⟩ : (instruction.opcode = .ret ∧ scene.thread.handlers.length = 2) ∧
      ∀ record ∈ scene.thread.handlers,
        record.callDepth = scene.thread.calls.size ∧ record.intercepts = true := by
    simpa [returnsFromBoth] using holds
  obtain ⟨inner, outer, both⟩ := List.length_eq_two.mp two
  have exits : scene.thread.exiting? instruction = some (scene.thread, .ret) := by
    simp only [Thread.exiting?, Thread.returned?, opcode]
    rfl
  have all : scene.thread.handlers = scene.thread.handlers ++ [] := (List.append_nil _).symm
  have through : GoesThrough returnsFromTries .ret
      (scene.thread.handlers.dropWhile (ExitAction.leaves .ret) ++ [])
      (scene.thread.handlers.takeWhile (ExitAction.leaves .ret)) instruction scene scene.thread :=
    exit_goes_inside_out exits all inside nofun
  rw [both] at through
  exact ⟨machine, instruction, scene, signal, next, inner, outer, .of_advance reached, executes,
    opcode, both, through⟩

end ObjectMachine
