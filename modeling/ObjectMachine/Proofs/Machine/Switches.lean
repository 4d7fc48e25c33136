import ObjectMachine.Proofs.Code.Cases
import ObjectMachine.Proofs.Machine.Passages
import ObjectMachine.Proofs.Value.Order

/-!
# Switches

A switch takes the subject off the stack and branches to the label of the case with its number, or
to that for all other numbers. A chain compares the subject with one value after the other. A table
is indexed by the subject's distance from the least value, which may have wrapped around: it is the
place of a slot only for the number that the slot stands for.
-/

namespace ObjectMachine

/-! ## Subjects -/

namespace Value

variable {subject : Value} {number : Int64}

theorem promote_int (whole : subject.asInteger? = some number) (value : Int32) :
    (promote subject (.int value) = some (.ints number.toInt32 value) ∧
        number.toInt32.toInt = number.toInt) ∨
      promote subject (.int value) = some (.longs number value.toInt64) := by
  obtain ⟨kind, ofKind⟩ := exists_isWhole_of_asInteger? whole
  have held : subject.toInteger = number := by rw [toInteger, whole, Option.getD_some]
  have promoted := promote_of_wide ofKind.1 (isWhole_int value).1 fun same => .inl same
  by_cases long : kind = .long
  · right
    rw [promoted, if_pos (.inl long), held]
    rfl
  · left
    refine ⟨?_, held ▸ ofKind.toInt32 long⟩
    rw [promoted, if_neg (by simp [long]), held]
    exact congrArg some (congrArg (NumberPair.ints _) (Int32.toInt32_toInt64 value))

theorem comparison_int (whole : subject.asInteger? = some number) (value : Int32) :
    comparison .eq subject (.int value) = .ok (decide (number.toInt = value.toInt)) := by
  obtain ⟨holds, same, exact⟩ := decides_whole whole (b := .int value) rfl .eq
  rw [Int32.toInt_toInt64] at exact
  rw [same, Except.ok.injEq, Bool.eq_iff_iff, exact, decide_eq_true_iff]
  rfl

/-- The difference to an int, which may wrap around, is a small number only for the number that lies
so far above. -/
theorem subtract_int (whole : subject.asInteger? = some number) (least : Int32) :
    ∃ result difference, arithmetic .sub subject (.int least) = .ok result ∧
      result.asInteger? = some difference ∧
      ∀ index : Nat, index < 0x10000 → least.toInt + index < 0x80000000 →
        (difference.toInt = index ↔ number.toInt = least.toInt + index) := by
  have low := least.le_toInt
  have high := least.toInt_lt
  unfold arithmetic
  rcases promote_int whole least with ⟨same, fits⟩ | same
  · refine ⟨.int (number.toInt32 - least), (number.toInt32 - least).toInt64, ?_, rfl,
      fun index small near => ?_⟩
    · rw [same]
      rfl
    · have bottom := number.toInt32.le_toInt
      have top := number.toInt32.toInt_lt
      rw [fits] at bottom top
      rw [Int32.toInt_toInt64, Int32.toInt_sub, fits, Int.bmod_def]
      split <;> omega
  · refine ⟨.long (number - least.toInt64), number - least.toInt64, ?_, rfl,
      fun index small near => ?_⟩
    · rw [same]
      rfl
    · have bottom := number.le_toInt
      have top := number.toInt_lt
      rw [Int64.toInt_sub, Int32.toInt_toInt64, Int.bmod_def]
      split <;> omega

end Value

/-! ## Selections -/

namespace Passes

open Emission

variable {setup : Setup} {lies : Label → Nat → Prop} {address : Nat} {thread : Thread}
  {subject : Value} {number : Int64} {scratch : UInt32}

/-- One comparison of a chain leads to its label if the subject has the value, or else on. -/
theorem comparison {value : Int32} {label : Label} {parts : List Part}
    (whole : subject.asInteger? = some number) (held : thread.slot? scratch = some subject)
    (room : thread.stack.depth + 1 < thread.stack.limit) (free : thread.interceptor? = none)
    (carries : setup.program.code.Carries lies address
      (Call.indexed .loadLocal scratch :: Call.plain .pushInt (.int value) ::
        Call.branching .jce label :: parts)) :
    ∃ behind target, setup.program.code.Carries lies behind parts ∧ lies label target ∧
      Passes setup (thread.standing address []) 3
        (thread.standing (if number.toInt = value.toInt then target else behind) []) := by
  have high : thread.stack.depth + [subject].length < thread.stack.limit := room
  obtain ⟨_, carries, loads⟩ := loadLocal held (Nat.lt_of_succ_lt room) carries
  obtain ⟨_, carries, pushes⟩ := pushInt high carries
  obtain ⟨behind, target, carries, leads, jumps⟩ :=
    jumpIfEqual (Value.comparison_int whole value) free carries
  simp only [decide_eq_true_eq] at jumps
  exact ⟨behind, target, carries, leads, (loads.trans pushes).trans jumps⟩

/-- A chain of comparisons leads to the label of the first value that the subject has, or else to
the last label. -/
theorem chain {entries : List (Int32 × Label)} {otherwise : Label}
    (whole : subject.asInteger? = some number) (held : thread.slot? scratch = some subject)
    (room : thread.stack.depth + 1 < thread.stack.limit) (free : thread.interceptor? = none)
    (carries : setup.program.code.Carries lies address
      ((entries.flatMap fun (value, label) =>
        [Call.indexed .loadLocal scratch, Call.plain .pushInt (.int value),
          Call.branching .jce label]) ++ [Call.branching .jmp otherwise])) :
    ∃ label count target,
      ((∃ value, (value, label) ∈ entries ∧ value.toInt = number.toInt) ∨
        label = otherwise ∧ ∀ entry ∈ entries, entry.1.toInt ≠ number.toInt) ∧
      lies label target ∧
      Passes setup (thread.standing address []) count (thread.standing target []) := by
  induction entries generalizing address with
  | nil =>
      obtain ⟨target, leads, jumps⟩ := jump free carries
      exact ⟨otherwise, 1, target, .inr ⟨rfl, fun _ member => absurd member List.not_mem_nil⟩,
        leads, jumps⟩
  | cons entry entries ih =>
      obtain ⟨behind, target, carries, leads, passes⟩ := comparison whole held room free carries
      by_cases same : number.toInt = entry.1.toInt
      · rw [if_pos same] at passes
        exact ⟨entry.2, 3, target, .inl ⟨entry.1, List.mem_cons_self, same.symm⟩, leads, passes⟩
      · rw [if_neg same] at passes
        obtain ⟨label, count, target, found, leads, rest⟩ := ih carries
        refine ⟨label, 3 + count, target, ?_, leads, passes.trans rest⟩
        refine found.imp (fun ⟨value, among, equal⟩ => ⟨value, List.mem_cons_of_mem _ among, equal⟩)
          fun ⟨last, others⟩ => ⟨last, List.forall_mem_cons.mpr ⟨Ne.symm same, others⟩⟩

/-- The index of a table is a number that is small only for the numbers which have a slot. -/
theorem tableIndex {least : Int32} {parts : List Part}
    (whole : subject.asInteger? = some number) (held : thread.slot? scratch = some subject)
    (room : thread.stack.depth + 1 < thread.stack.limit)
    (carries : setup.program.code.Carries lies address
      ([Call.indexed .loadLocal scratch] ++
        (if least ≠ 0 then [Call.plain .pushInt (.int least), Call.plain .sub .absent] else []) ++
        parts)) :
    ∃ behind count index distance, setup.program.code.Carries lies behind parts ∧
      Passes setup (thread.standing address []) count (thread.standing behind [index]) ∧
      index.asInteger? = some distance ∧
      ∀ place : Nat, place < 0x10000 → least.toInt + place < 0x80000000 →
        (distance.toInt = place ↔ number.toInt = least.toInt + place) := by
  have low := Nat.lt_of_succ_lt room
  have high : thread.stack.depth + [subject].length < thread.stack.limit := room
  rw [List.append_assoc] at carries
  obtain ⟨_, carries, loads⟩ := loadLocal held low carries
  by_cases zero : least = 0
  · rw [if_neg (not_not_intro zero), List.nil_append] at carries
    refine ⟨_, _, subject, number, carries, loads, whole, fun place _ _ => ?_⟩
    rw [zero, Int32.toInt_zero, Int.zero_add]
  · rw [if_pos zero] at carries
    obtain ⟨index, distance, computes, integer, exactly⟩ := Value.subtract_int whole least
    obtain ⟨_, carries, pushes⟩ := pushInt high carries
    obtain ⟨behind, carries, subtracts⟩ := subtract computes low carries
    exact ⟨behind, _, index, distance, carries, (loads.trans pushes).trans subtracts, integer,
      exactly⟩

/-- The instructions of a switch behind its first one lead to the label that it has for the number
in the scratch slot. -/
theorem selection {values : List Int32} {labels : Assemble.SwitchLabels}
    (all : values.length = labels.cases.length)
    (whole : subject.asInteger? = some number) (held : thread.slot? scratch = some subject)
    (room : thread.stack.depth + 1 < thread.stack.limit) (free : thread.interceptor? = none)
    (carries : setup.program.code.Carries lies address
      (Call.selection values scratch labels ++ [Call.branching .jmp labels.otherwise])) :
    ∃ label count target, labels.Selects values number.toInt label ∧ lies label target ∧
      Passes setup (thread.standing address []) count (thread.standing target []) := by
  unfold Call.selection at carries
  cases plan : SwitchPlan.choose values with
  | chain =>
      rw [plan] at carries
      obtain ⟨label, count, target, found, leads, passes⟩ := chain whole held room free carries
      exact ⟨label, count, target, .of_entries all found, leads, passes⟩
  | table least span =>
      rw [plan] at carries
      dsimp only at carries
      rw [List.append_assoc] at carries
      obtain ⟨_, count, index, distance, carries, passes, integer, exactly⟩ :=
        tableIndex whole held room carries
      obtain ⟨near, covered⟩ := SwitchPlan.choose_eq_table plan
      have few := Call.choose_table plan
      have length := Call.length_tableSlots least span values labels
      by_cases inside : 0 ≤ distance.toInt ∧ distance.toInt.toNat < span
      · have listed := List.getElem?_eq_getElem (length.symm ▸ inside.2)
        obtain ⟨target, leads, jumps⟩ := jumpByCase integer inside.1 listed free carries
        have place : number.toInt = least.toInt + distance.toInt.toNat :=
          (exactly _ (by omega) (by omega)).mp (by omega)
        refine ⟨_, _, target, ?_, leads, passes.trans jumps⟩
        rw [place]
        exact Assemble.selects_of_tableSlots all plan listed
      · obtain ⟨_, carries, goesOn⟩ := passByCase integer
          (fun positive => by rw [length]; omega) free carries
        obtain ⟨target, leads, jumps⟩ := jump free carries
        refine ⟨_, _, target, .otherwise fun value member same => inside ?_, leads,
          (passes.trans goesOn).trans jumps⟩
        -- A value of the switch would have a slot of its own.
        have range := covered value member
        have here := (exactly (value.toInt - least.toInt).toNat (by omega) (by omega)).mpr
          (by omega)
        omega

end Passes

/-! ## Switches -/

open Emission

/-- Both lowerings of a switch do what it says. Wherever the code of calls stands in a program, a
thread at a switch among them that has a whole number on its stack, room for another value and no
try construct in whose body it is, gets to the one label that the switch has for the number. Nothing
else becomes of it than that the number is in the scratch slot instead of on the stack, whatever the
other threads of a run do until it has had that many turns. Only a fork whose number has come round
can put something on the stack of a thread between its turns, and no run has such a fork among its
first `2 ^ 32 - 1` (`Machine.Course.exists_advance`). -/
theorem switch_selects {setup : Setup} {front code : Bytes} {earlier later : List Call}
    {values : List Int32} {scratch : UInt32} {thread : Thread} {subject : Value} {number : Int64}
    (contains : setup.program.code.Contains front code (earlier ++ .switch values scratch :: later))
    (distinct : values.Nodup) (whole : subject.asInteger? = some number)
    (inside : thread.dp + scratch.toNat < thread.stack.depth)
    (room : thread.stack.depth + 1 < thread.stack.limit) (free : thread.interceptor? = none) :
    let labels := ((Assemble.switch values scratch).run (emit earlier).2).1
    let start := thread.standing (front.length + (emit earlier).2.position) [subject]
    ∃ label position count,
      (∀ other, labels.Selects values number.toInt other ↔ other = label) ∧
      targets (emit (earlier ++ .switch values scratch :: later)).2 (.label label) =
        some position ∧
      let arrived := (thread.storing scratch subject).standing (front.length + position) []
      Passes setup start count arrived ∧
        ∀ {first machine : Machine} {acts : List Act} {last : Thread},
          Machine.Course setup first start acts machine last → acts.length = count →
            start.stack.Undisturbed acts last.stack → last.Idles arrived := by
  intro labels start
  have answered : labels =
      ⟨Call.fresh (emit earlier).2.labels.size values.length,
        ⟨(emit earlier).2.labels.size + values.length⟩⟩ :=
    congrArg Prod.fst (Emits.switch values scratch)
  have all : values.length = labels.cases.length := by
    rw [answered, Call.fresh, List.length_map, List.length_range']
  have carries := contains.carries rfl
  rw [Call.parts, List.append_assoc, List.append_assoc] at carries
  obtain ⟨_, carries, stores⟩ := Passes.storeLocal inside carries
  have otherwise : (⟨(emit earlier).2.labels.size + values.length⟩ : Label) = labels.otherwise := by
    rw [answered]
  rw [← answered, otherwise] at carries
  obtain ⟨label, count, _, selects, ⟨position, known, rfl⟩, passes⟩ :=
    Passes.selection all whole (Thread.slot?_storing inside)
      (by rwa [Thread.depth_storing]) free carries.of_newLabels
  have passes := stores.trans passes
  refine ⟨label, position, 1 + count, fun other => ⟨fun h => h.unique distinct selects, ?_⟩, known,
    passes, fun course length => Passes.of_course course (length ▸ passes)⟩
  rintro rfl
  exact selects

/-- A switch over values on both sides of zero, whose labels are anchored in another order. -/
def signCalls : List Call :=
  [.pushLong 4, .switch [-3, 4, -1] 1, .anchor ⟨3⟩, .op .ret, .anchor ⟨0⟩, .op .nop, .anchor ⟨1⟩,
    .anchor ⟨2⟩, .op .ret]

def Thread.inFrame : Thread :=
  { Thread.start .main 0 ⟨0⟩ 16 with stack := ⟨#[.null, .null], 16⟩ }

theorem switch_selects_table :
    SwitchPlan.choose [-3, 4, -1] = .table (-3) 8 ∧
      ∃ setup, Setup.ofMain? (emit signCalls).2.bytes 1 = some setup ∧ ∃ count,
        Passes setup (Thread.inFrame.standing 9 [.long 4]) count
          ((Thread.inFrame.storing 1 (.long 4)).standing 61 []) := by
  refine ⟨by decide, ?_⟩
  have links : (Setup.ofMain? (emit signCalls).2.bytes 1).any (fun setup =>
      decide ((emit signCalls).2.bytes <+: setup.program.code.bytes)) = true := by
    decide +kernel
  obtain ⟨setup, linked, placed⟩ := (Option.any_eq_true _ _).mp links
  have stands : [] ++ (emit signCalls).2.bytes <+: setup.program.code.bytes := by
    rw [List.nil_append]
    exact of_decide_eq_true placed
  have contains : setup.program.code.Contains [] (emit signCalls).2.bytes
      ([.pushLong 4] ++ .switch [-3, 4, -1] 1 :: signCalls.drop 2) :=
    ⟨by decide, by decide +kernel, stands, by decide +kernel, by decide +kernel⟩
  obtain ⟨label, position, count, only, known, passes, -⟩ :=
    switch_selects contains (by decide) (show (Value.long 4).asInteger? = some 4 from rfl)
      (show Thread.inFrame.dp + (1 : UInt32).toNat < Thread.inFrame.stack.depth by decide)
      (by decide) rfl
  have among : ((4 : Int32), (⟨1⟩ : Label)) ∈ List.zip [-3, 4, -1]
      ((Assemble.switch [-3, 4, -1] 1).run (emit [.pushLong 4]).2).1.cases := by decide +kernel
  obtain rfl : ⟨1⟩ = label := (only ⟨1⟩).mp (.case among rfl)
  obtain rfl : 61 = position := by
    have lies : targets (emit signCalls).2 (.label ⟨1⟩) = some 61 := by decide +kernel
    exact Option.some.inj (lies.symm.trans known)
  exact ⟨setup, linked, count, passes⟩

end ObjectMachine
