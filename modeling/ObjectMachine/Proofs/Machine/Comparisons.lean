import ObjectMachine.Proofs.Machine.Courses
import ObjectMachine.Proofs.Machine.Deferrals
import ObjectMachine.Proofs.Machine.Loading
import ObjectMachine.Proofs.Machine.Monitors
import ObjectMachine.Proofs.Value.Order

/-!
# Comparisons

All comparisons agree with each other, and a jump that is fused with a comparison with the
comparison itself.
-/

namespace ObjectMachine

namespace ComparisonOp

def opcode : ComparisonOp → Opcode
  | eq => .ce
  | ne => .cne
  | lt => .cl
  | le => .cle
  | gt => .cg
  | ge => .cge

def jumpOpcode : ComparisonOp → Opcode
  | eq => .jce
  | ne => .jcne
  | lt => .jcl
  | le => .jcle
  | gt => .jcg
  | ge => .jcge

end ComparisonOp

/-! ## Fused jumps -/

/-- What a comparison and the jump that is fused with it make of one scene: both come to the same
fault in the same scene, or the jump is taken exactly if the comparison pushes true. -/
inductive Fused (target : Nat) (scene : Scene) :
    EStateM.Result Fault Scene Signal → EStateM.Result Fault Scene Signal → Prop
  | faults (fault : Fault) (next : Scene) :
      Fused target scene (.error fault next) (.error fault next)
  | decides (holds : Bool) {decided : Thread} (same : decided = scene.thread.popped.popped) :
      Fused target scene
        (.ok .proceed { scene with thread := { decided with
          stack := { decided.stack with slots := decided.stack.slots.push (.bool holds) } } })
        (.ok .proceed { scene with thread := if holds then decided.branchTo target else decided })

namespace Step

variable {setup : Setup} {scene next : Scene} {op : ComparisonOp} {instruction : Instruction}
  {holds : Bool} {target : Nat}

def compared (op : ComparisonOp) : Step Bool := do
  let b ← pop
  let a ← pop
  require (Value.comparison op a b)

theorem compare_eq (op : ComparisonOp) : compare op = (do push (.bool (← compared op))) := by
  unfold compare binary compared
  simp only [bind_assoc, bind_map_left]

theorem jumpIfCompare_eq (op : ComparisonOp) (target : Nat) :
    jumpIfCompare op target = (do if ← compared op then jump target) := by
  unfold jumpIfCompare compared
  simp only [bind_assoc]

theorem execute_of_opcode (compares : instruction.opcode = op.opcode) :
    execute instruction = (compare op >>= fun _ => pure .proceed) := by
  unfold execute
  rw [compares]
  cases op <;> rfl

theorem execute_of_jumpOpcode (jumps : instruction.opcode = op.jumpOpcode) :
    execute instruction =
      (jumpIfCompare op instruction.jumpTarget >>= fun _ => pure .proceed) := by
  unfold execute
  rw [jumps]
  cases op <;> rfl

theorem compared_eq_ok (h : compared op setup scene = .ok holds next) :
    next = { scene with thread := scene.thread.popped.popped } ∧ 2 ≤ scene.thread.stack.depth := by
  obtain ⟨b, middle, first, h⟩ := bind_eq_ok_iff.mp h
  obtain ⟨a, last, second, h⟩ := bind_eq_ok_iff.mp h
  obtain ⟨-, rfl⟩ := require_eq_ok h
  obtain ⟨_, top, rfl⟩ := onStack_eq_ok_iff.mp first
  obtain ⟨-, -, rfl⟩ := Stack.pop_eq_ok top
  obtain ⟨_, under, rfl⟩ := onStack_eq_ok_iff.mp second
  obtain ⟨inside, -, rfl⟩ := Stack.pop_eq_ok under
  refine ⟨rfl, ?_⟩
  change 0 < scene.thread.stack.slots.pop.size at inside
  rw [Array.size_pop] at inside
  change 2 ≤ scene.thread.stack.slots.size
  omega

theorem push_of_room (value : Value)
    (room : scene.thread.stack.depth < scene.thread.stack.limit) :
    push value setup scene = .ok () { scene with thread := { scene.thread with
      stack := { scene.thread.stack with slots := scene.thread.stack.slots.push value } } } :=
  onStack_eq_ok_iff.mpr ⟨_, if_neg (Nat.not_le.mpr room), rfl⟩

/-- A jump is taken exactly if the comparison that is fused with it pushes true. -/
theorem fused_execute {comparison jump : Instruction} (compares : comparison.opcode = op.opcode)
    (jumps : jump.opcode = op.jumpOpcode)
    (room : scene.thread.stack.depth ≤ scene.thread.stack.limit) :
    Fused jump.jumpTarget scene (execute comparison setup scene) (execute jump setup scene) := by
  rw [execute_of_opcode compares, execute_of_jumpOpcode jumps, compare_eq, jumpIfCompare_eq,
    bind_assoc, bind_assoc]
  cases done : compared op setup scene with
  | error fault next =>
      rw [bind_of_error done, bind_of_error done]
      exact .faults fault next
  | ok holds next =>
      rw [bind_of_ok done, bind_of_ok done]
      obtain ⟨rfl, two⟩ := compared_eq_ok done
      have low : scene.thread.popped.popped.stack.depth <
          scene.thread.popped.popped.stack.limit := by
        change scene.thread.stack.slots.pop.pop.size < scene.thread.stack.limit
        change scene.thread.stack.slots.size ≤ scene.thread.stack.limit at room
        change 2 ≤ scene.thread.stack.slots.size at two
        rw [Array.size_pop, Array.size_pop]
        omega
      rw [bind_of_ok (push_of_room _ low)]
      cases holds with
      | true => exact .decides true rfl
      | false => exact .decides false rfl

end Step

/-! ## References -/

namespace Value

variable {a b : Value}

/-- References of one kind are equal if they lead to one thing, which then has one monitor. -/
theorem verdict_of_monitor {key key' : MonitorKey} (first : a.monitor? = some key)
    (second : b.monitor? = some key') (alike : a.typeName = b.typeName) :
    verdict a b = .equal (key = key') := by
  have decides {holds : Bool} (same : holds = true ↔ key = key') :
      Verdict.equal holds = .equal (key = key') :=
    congrArg Verdict.equal (Bool.eq_iff_iff.mpr (same.trans decide_eq_true_iff.symm))
  cases a <;> cases first <;> cases b <;> cases second
  case array.refl.array.refl =>
    exact decides (by rw [sameReference, beq_iff_eq, MonitorKey.array.injEq])
  case object.refl.object.refl =>
    exact decides (by rw [sameReference, beq_iff_eq, MonitorKey.object.injEq])
  case classRef.refl.classRef.refl =>
    exact decides (by rw [sameReference, beq_iff_eq, MonitorKey.classRef.injEq])
  all_goals simp [typeName] at alike

theorem comparison_of_monitor {key key' : MonitorKey} (first : a.monitor? = some key)
    (second : b.monitor? = some key') (alike : a.typeName = b.typeName) :
    comparison .eq a b = .ok (key = key') := by
  rw [comparison_eq, verdict_of_monitor first second alike]
  exact congrArg Except.ok (beq_true _)

theorem equals_iff_of_monitor (first : a.monitor?.isSome) (second : b.monitor?.isSome)
    (alike : a.typeName = b.typeName) : Equals a b ↔ a.monitor? = b.monitor? := by
  obtain ⟨key, first⟩ := Option.isSome_iff_exists.mp first
  obtain ⟨key', second⟩ := Option.isSome_iff_exists.mp second
  rw [Equals, comparison_of_monitor first second alike, first, second, Except.ok.injEq,
    decide_eq_true_iff, Option.some.injEq]

end Value

/-! ## Coherence -/

/-- Agreeing in one part is an equivalence. -/
theorem equivalence_of_eq_iff {γ δ : Type} {related : γ → γ → Prop} {part : γ → δ}
    (same : ∀ a b, related a b ↔ part a = part b) : Equivalence related where
  refl a := (same a a).mpr rfl
  symm h := (same _ _).mpr ((same _ _).mp h).symm
  trans h h' := (same _ _).mpr (((same _ _).mp h).trans ((same _ _).mp h'))

open Value

/-- What holds of all comparisons together. -/
structure ComparisonsCohere : Prop where
  negated (a b : Value) : comparison .ne a b = not <$> comparison .eq a b
  mirrored (op : ComparisonOp) (a b : Value) :
    (comparison op.mirrored b a).toOption = (comparison op a b).toOption
  /-- This holds of numbers that are none as well: then nothing but being unequal does. -/
  atMost (a b : Value) :
    comparison .le a b = (do pure ((← comparison .lt a b) || (← comparison .eq a b)))
  atLeast (a b : Value) :
    comparison .ge a b = (do pure ((← comparison .gt a b) || (← comparison .eq a b)))
  /-- Whole numbers of any kinds are in the order of the integers. -/
  whole (a b : Value) (x y : Int64) (first : a.asInteger? = some x)
    (second : b.asInteger? = some y) (op : ComparisonOp) :
    Decides (comparison op a b) (op.Relates x.toInt y.toInt)
  wholeEquivalence : Equivalence fun a b : { a : Value // a.asInteger?.isSome } => Equals a b
  wholeIrreflexive (a : Value) (first : a.asInteger?.isSome) : ¬ Less a a
  wholeTransitive (a b c : Value) (first : a.asInteger?.isSome) (second : b.asInteger?.isSome)
    (third : c.asInteger?.isSome) : Less a b → Less b c → Less a c
  wholeTotal (a b : Value) (first : a.asInteger?.isSome) (second : b.asInteger?.isSome) :
    Less a b ∨ Equals a b ∨ Less b a
  /-- A double and any other number are in the order of the doubles. -/
  doubles (a b : Value) (rank rank' : NumberRank) (first : a.rank? = some rank)
    (second : b.rank? = some rank') (double : rank = .double ∨ rank' = .double)
    (op : ComparisonOp) :
    match a.double?, b.double? with
    | some v, some w => Decides (comparison op a b) (op.Relates v w)
    | _, _ => comparison op a b = .ok (op == .ne)
  /-- Texts are in the lexicographic order of their bytes. -/
  texts (s t : String) (op : ComparisonOp) :
    Decides (comparison op (.text s) (.text t)) (op.Relates (bytesOf s) (bytesOf t))
  /-- References of one kind are equal if they lead to one thing. -/
  references (a b : Value) (key key' : MonitorKey) (first : a.monitor? = some key)
    (second : b.monitor? = some key') (alike : a.typeName = b.typeName) :
    comparison .eq a b = .ok (key = key')
  referenceEquivalence (kind : String) :
    Equivalence fun a b : { a : Value // a.monitor?.isSome ∧ a.typeName = kind } => Equals a b
  /-- An object seen as its parent is the same object. -/
  parent (setup : Setup) (scene next : Scene) (view : ClassId) (id : ObjectId)
    (top : scene.thread.stack.slots.back? = some (.object view id))
    (sees : Step.asParent setup scene = .ok () next) :
    ∃ above, next.thread.stack.slots.back? = some above ∧ Equals (.object view id) above
  fused (setup : Setup) (scene : Scene) (op : ComparisonOp) (compares jumps : Instruction)
    (comparing : compares.opcode = op.opcode) (jumping : jumps.opcode = op.jumpOpcode)
    (room : scene.thread.stack.depth ≤ scene.thread.stack.limit) :
    Fused jumps.jumpTarget scene (Step.execute compares setup scene)
      (Step.execute jumps setup scene)
  /-- No instruction of a run is executed on a stack that is higher than it may be. -/
  room (setup : Setup) (machine current : Machine) (instruction : Instruction)
    (reachable : Machine.Reachable setup machine)
    (ready : machine.ready setup = .execute current instruction) :
    current.roster.running.stack.depth ≤ current.roster.running.stack.limit

theorem comparisons_cohere : ComparisonsCohere where
  negated := comparison_ne
  mirrored := comparison_mirrored
  atMost := comparison_le
  atLeast := comparison_ge
  whole a b x y := decides_whole
  wholeEquivalence := equivalence_of_eq_iff fun a b => equals_iff a.2 b.2
  wholeIrreflexive a whole less := lt_irrefl _ ((less_iff whole whole).mp less)
  wholeTransitive a b c first second third less less' :=
    (less_iff first third).mpr
      (((less_iff first second).mp less).trans ((less_iff second third).mp less'))
  wholeTotal a b first second := by
    rw [less_iff first second, equals_iff first second, less_iff second first]
    exact lt_trichotomy _ _
  doubles a b rank rank' := decides_double
  texts := decides_texts
  references a b key key' := comparison_of_monitor
  referenceEquivalence kind :=
    equivalence_of_eq_iff fun a b => equals_iff_of_monitor a.2.1 b.2.1 (a.2.2.trans b.2.2.symm)
  parent setup scene next view id top sees := by
    obtain ⟨above, there, key⟩ := Option.bind_eq_some_iff.mp (Step.asParent_monitor top sees)
    have alike : (Value.object view id).typeName = above.typeName := by
      cases above <;> cases key
      rfl
    exact ⟨above, there, (equals_iff_of_monitor rfl (key ▸ rfl) alike).mpr key.symm⟩
  fused setup scene op compares jumps := Step.fused_execute
  room setup machine current instruction reachable ready := by
    obtain ⟨⟨old, member, -, idles⟩, -⟩ := Machine.exists_idles_of_ready ready
    obtain ⟨limit, low⟩ := reachable.room old member
    rw [idles.stack]
    exact low.trans limit.ge

end ObjectMachine
