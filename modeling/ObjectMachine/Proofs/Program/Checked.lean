import ObjectMachine.Program.Loader
import ObjectMachine.Proofs.Code.Closed

/-!
# The code of checked units

Verification finds the code of a unit to be a closed stream in which all methods of the unit start.
Units that are laid one behind the other keep this, and the entry sequence behind them ends the
stream with an exit.
-/

namespace ObjectMachine

open Code

/-! ## One unit -/

theorem Operand.mem_distances {operand : Operand} {distance : Int32}
    (h : some distance ∈ operand.encodedDistances) : distance ∈ operand.distances := by
  cases operand with
  | offset other => simpa [encodedDistances, distances] using h
  | table others => simpa [encodedDistances, distances] using h
  | tryPair onCatch onFinally =>
      by_cases missing : onCatch = 0 <;> simpa [encodedDistances, distances, missing] using h
  | _ => cases h

theorem Operand.mem_encodedDistances {operand : Operand} {distance : Int32}
    (h : distance ∈ operand.distances) : some distance ∈ operand.encodedDistances := by
  cases operand with
  | offset other => simpa [encodedDistances, distances] using h
  | table others => simpa [encodedDistances, distances] using h
  | tryPair onCatch onFinally =>
      by_cases missing : onCatch = 0 <;> simpa [encodedDistances, distances, missing] using h
  | _ => cases h

namespace Verify

theorem isStart_eq_true_iff {instructions : List Instruction} {position : Int} :
    isStart (Layout.lineIndex instructions) instructions.length position = true ↔
      ∃ line < instructions.length, position = boundary instructions line := by
  unfold isStart
  constructor
  · intro h
    split at h
    · next line found =>
        exact ⟨line, of_decide_eq_true h, (Layout.lineAt_eq_some_iff.mp found).2⟩
    · cases h
  · rintro ⟨line, inside, here⟩
    rw [Layout.lineAt_eq_some_iff.mpr ⟨Nat.le_of_lt inside, here⟩]
    exact decide_eq_true inside

theorem checkTargets_eq_ok_iff {isStart : Int → Bool} {instruction : Instruction} :
    checkTargets isStart instruction = .ok () ↔
      ∀ target ∈ instruction.targets, isStart target = true := by
  unfold checkTargets
  cases found : instruction.targets.find? (!isStart ·) with
  | none => simpa using List.find?_eq_none.mp found
  | some target =>
      have refused := List.find?_some found
      have member := List.mem_of_find?_eq_some found
      simp only [reduceCtorEq, false_iff, not_forall]
      exact ⟨target, member, by simpa using refused⟩

/-- A position that goes round is none that an instruction starts at. -/
theorem eq_of_wrapped {position : Int} {address : Nat} (h : wrapped position = address)
    (lower : -0x8000000000000000 ≤ position) (upper : position < 0x10000000000000000) :
    position = address := by
  have size : ((1 <<< 64 : Nat) : Int) = 0x10000000000000000 := rfl
  rw [wrapped, Int.bmod_def, size] at h
  split at h <;> omega

/-- A target that has been checked is a line, since no distance is long enough to go round. -/
theorem leadsTo_of_checkTargets {instructions : List Instruction} {instruction : Instruction}
    (h : checkTargets (isStart (Layout.lineIndex instructions) instructions.length) instruction =
      .ok ()) (small : instruction.offset < 0x8000000000000000) {distance : Int32}
    (encoded : some distance ∈ instruction.operand.encodedDistances) :
    ∃ line < instructions.length, LeadsTo instructions instruction distance line := by
  have starts := checkTargets_eq_ok_iff.mp h _
    (List.mem_map.mpr ⟨distance, Operand.mem_distances encoded, rfl⟩)
  have lower := distance.le_toInt
  have upper := distance.toInt_lt
  obtain ⟨line, inside, here⟩ := isStart_eq_true_iff.mp starts
  exact ⟨line, inside, Nat.le_of_lt inside, eq_of_wrapped here (by omega) (by omega)⟩

/-- The code of a checked unit is a closed stream, in which the methods of the unit start. Its
instructions refer to entries of the unit's tables. -/
theorem checkCode_eq_ok {code : Bytes} {view : Metadata} (h : checkCode code view = .ok ())
    (small : code.length < 0x8000000000000000) :
    ∃ instructions, Encodes code instructions ∧
      (∀ info ∈ view.classes.toList, ∀ method ∈ info.methods.toList,
        Starts instructions method.header.codeOffset.toNat) ∧
      ∀ instruction ∈ instructions, checkReferences view instruction = .ok () := by
  obtain ⟨instructions, decoded, h⟩ := Except.bind_eq_ok_iff.mp h
  obtain ⟨⟨⟩, methods, checks⟩ := Except.bind_eq_ok_iff.mp h
  rw [Except.mapError_eq_ok_iff] at decoded
  refine ⟨instructions, ⟨decoded, fun instruction member distance encoded => ?_⟩,
    fun info listed method own => ?_, fun instruction member => ?_⟩
  · obtain ⟨⟨⟩, targets, -⟩ :=
      Except.bind_eq_ok_iff.mp (Except.forM_eq_ok_iff.mp checks instruction member)
    obtain ⟨line, here⟩ := List.getElem?_of_mem member
    have inside := (List.getElem?_eq_some_iff.mp here).1
    have start := (decode_eq_ok_iff.mp decoded).1.offset here
    have within := boundary_le_boundary (Nat.le_of_lt inside) (Nat.le_refl _)
    rw [← length_eq_boundary decoded] at within
    exact leadsTo_of_checkTargets targets (by omega) encoded
  · have checked := Except.forM_eq_ok_iff.mp (Except.forM_eq_ok_iff.mp methods info listed)
      method own
    unfold checkMethod at checked
    split at checked
    · next starts =>
        obtain ⟨line, inside, here⟩ := isStart_eq_true_iff.mp starts
        exact ⟨line, inside, by exact_mod_cast here⟩
    · cases checked
  · obtain ⟨⟨⟩, -, refers⟩ :=
      Except.bind_eq_ok_iff.mp (Except.forM_eq_ok_iff.mp checks instruction member)
    exact refers

/-- Verification accepts a closed stream in which all methods start, if its instructions refer to
entries of the tables. -/
theorem checkCode_of_encodes {code : Bytes} {view : Metadata} {instructions : List Instruction}
    (h : Encodes code instructions) (small : code.length < 0x8000000000000000)
    (methods : ∀ info ∈ view.classes.toList, ∀ method ∈ info.methods.toList,
      Starts instructions method.header.codeOffset.toNat)
    (refers : ∀ instruction ∈ instructions, checkReferences view instruction = .ok ()) :
    checkCode code view = .ok () := by
  refine Except.bind_eq_ok_iff.mpr ⟨instructions, Except.mapError_eq_ok_iff.mpr h.decoded,
    Except.bind_eq_ok_iff.mpr ⟨⟨⟩, Except.forM_eq_ok_iff.mpr fun info listed =>
      Except.forM_eq_ok_iff.mpr fun method own => ?_, Except.forM_eq_ok_iff.mpr
        fun instruction member => Except.bind_eq_ok_iff.mpr ⟨⟨⟩, ?_, refers _ member⟩⟩⟩
  · obtain ⟨line, inside, here⟩ := methods info listed method own
    rw [checkMethod, if_pos (isStart_eq_true_iff.mpr ⟨line, inside, congrArg Nat.cast here⟩)]
  · refine checkTargets_eq_ok_iff.mpr fun target listed => ?_
    obtain ⟨distance, own, rfl⟩ := List.mem_map.mp listed
    obtain ⟨line, inside, -, leads⟩ :=
      h.closed instruction member distance (Operand.mem_encodedDistances own)
    have within := boundary_le_boundary (Nat.le_of_lt inside) (Nat.le_refl _)
    rw [← length_eq_boundary h.decoded] at within
    refine isStart_eq_true_iff.mpr ⟨line, inside, ?_⟩
    rw [leads]
    exact wrapped_of_mem_range (by omega) (by omega)

end Verify

def LoadedUnit.Checked (unit : LoadedUnit) : Prop :=
  Verify.checkCode unit.code unit.view = .ok ()

/-! ## Units in a row -/

theorem LoadedUnit.length_code_le {units : List LoadedUnit} {unit : LoadedUnit}
    (member : unit ∈ units) : unit.code.length ≤ (units.flatMap (·.code)).length :=
  (List.sublist_flatten_of_mem (List.mem_map_of_mem member)).length_le

namespace Link

/-- Whether the methods of units start in a stream, if the units lie at addresses. -/
def MethodsStart (instructions : List Instruction) (places : List (LoadedUnit × Nat)) : Prop :=
  ∀ place ∈ places, ∀ info ∈ place.1.view.classes.toList, ∀ method ∈ info.methods.toList,
    Starts instructions (place.2 + method.header.codeOffset.toNat)

/-- Checked units behind a closed stream make up a closed stream. -/
theorem exists_encodes_flatMap {units : List LoadedUnit} (checked : ∀ unit ∈ units, unit.Checked)
    {front : Bytes} {instructions : List Instruction} (h : Encodes front instructions)
    (small : (front ++ units.flatMap (·.code)).length < 0x8000000000000000) :
    ∃ joined, Encodes (front ++ units.flatMap (·.code)) joined ∧
      (∀ address, Starts instructions address → Starts joined address) ∧
      MethodsStart joined
        (units.zip (units.scanl (fun base unit => base + unit.code.length) front.length)) := by
  induction units generalizing front instructions with
  | nil =>
      rw [List.flatMap_nil, List.append_nil]
      exact ⟨instructions, h, fun _ starts => starts, nofun⟩
  | cons unit units ih =>
      obtain ⟨here, others⟩ := List.forall_mem_cons.mp checked
      rw [List.flatMap_cons, ← List.append_assoc] at small ⊢
      have fits : unit.code.length < 0x8000000000000000 := by
        rw [List.length_append, List.length_append] at small
        omega
      obtain ⟨own, encodes, methods, -⟩ := Verify.checkCode_eq_ok here fits
      obtain ⟨joined, whole, keeps, placed⟩ := ih others (h.append encodes) small
      refine ⟨joined, whole, fun address starts => keeps _ (starts.append_left _), ?_⟩
      rw [List.scanl_cons, List.zip_cons_cons]
      rw [List.length_append] at placed
      refine List.forall_mem_cons.mpr ⟨fun info listed method member => keeps _ ?_, placed⟩
      rw [length_eq_boundary h.decoded]
      exact (methods info listed method member).append_right _ _

theorem encodes_entrySequence (takesArgs : Bool) :
    ∃ instructions exit, Encodes (entrySequence takesArgs) (instructions ++ [exit]) ∧
      exit.opcode = .exit := by
  cases takesArgs with
  | false =>
      refine ⟨[⟨0, .loadClass, .narrow, .index 1⟩, ⟨2, .call, .narrow, .index 1⟩],
        ⟨4, .exit, .narrow, .absent⟩, ⟨by decide +kernel, ?_⟩, rfl⟩
      simp [Closed, Operand.encodedDistances]
  | true =>
      refine ⟨[⟨0, .loadClass, .narrow, .index 1⟩, ⟨2, .loadLocal, .narrow, .index 0⟩,
        ⟨4, .call, .narrow, .index 1⟩], ⟨6, .exit, .narrow, .absent⟩, ⟨by decide +kernel, ?_⟩, rfl⟩
      simp [Closed, Operand.encodedDistances]

/-- The code of a program of checked units is a closed stream that ends with an exit. The methods
of the units and the entry sequence start in it. -/
theorem exists_encodes_wholeCode {units : List LoadedUnit}
    (checked : ∀ unit ∈ units, unit.Checked) (takesArgs : Bool)
    (small : (units.flatMap (·.code)).length < 0x8000000000000000) :
    ∃ instructions exit, Encodes (wholeCode units takesArgs) (instructions ++ [exit]) ∧
      exit.opcode = .exit ∧
      Starts (instructions ++ [exit]) (units.flatMap (·.code)).length ∧
      MethodsStart (instructions ++ [exit])
        (units.zip (units.scanl (fun base unit => base + unit.code.length) 0)) := by
  obtain ⟨merged, encodes, -, placed⟩ := exists_encodes_flatMap checked Encodes.nil small
  obtain ⟨entry, exit, sequence, exits⟩ := encodes_entrySequence takesArgs
  rw [List.nil_append] at encodes
  have whole := encodes.append sequence
  rw [List.map_append, ← List.append_assoc, List.map_singleton] at whole
  refine ⟨_, _, whole, exits, ?_, fun place member info listed method own => ?_⟩
  · rw [length_eq_boundary encodes.decoded]
    refine ⟨merged.length, by simp, ?_⟩
    rw [List.append_assoc, boundary_append_left _ (Nat.le_refl _)]
  · rw [List.append_assoc]
    exact (placed place member info listed method own).append_left _

end Link

/-! ## Units of a library -/

namespace LoadedUnit

theorem check_congr {options options' : LoadOptions} (same : options.verify = options'.verify) :
    check options = check options' := by
  funext name unit
  unfold check
  rw [same]

theorem checkNamed_congr {options options' : LoadOptions}
    (same : options.verify = options'.verify) : checkNamed options = checkNamed options' := by
  funext name unit
  unfold checkNamed
  rw [check_congr same]

theorem checked_of_check {options : LoadOptions} (verifies : options.verify = true) {name : String}
    {unit : CompiledUnit} {loaded : LoadedUnit} (h : check options name unit = .ok loaded) :
    loaded.Checked := by
  unfold check at h
  rw [if_pos verifies] at h
  cases hv : unit.verify with
  | error fault =>
      rw [hv] at h
      cases h
  | ok view =>
      rw [hv] at h
      cases h
      obtain ⟨own, -, hv⟩ := Except.bind_eq_ok_iff.mp hv
      obtain ⟨⟨⟩, checked, rest⟩ := Except.bind_eq_ok_iff.mp hv
      cases rest
      exact checked

theorem checked_of_checkNamed {options : LoadOptions} (verifies : options.verify = true)
    {name : String} {unit : CompiledUnit} {loaded : LoadedUnit}
    (h : checkNamed options name unit = .ok loaded) : loaded.Checked := by
  obtain ⟨accepted, checks, h⟩ := Except.bind_eq_ok_iff.mp h
  split at h
  · cases h
    exact checked_of_check verifies checks
  · cases h

end LoadedUnit

theorem Discovery.found_of_next {discovery following : Discovery} {name : String}
    (h : discovery.next = some (name, following)) : following.found = discovery.found := by
  obtain ⟨_, -, same⟩ := Option.map_eq_some_iff.mp h
  cases same
  rfl

namespace Library

theorem reachable_eq (library : Library) (options : LoadOptions) (discovery : Discovery) :
    library.reachable options discovery =
      match discovery.next with
      | none => .ok discovery.found
      | some (name, following) =>
        library.find name >>= LoadedUnit.checkNamed options name >>= fun loaded =>
          library.reachable options (following.accept loaded) := by
  rw [reachable]
  split
  · next step => simp only [step]
  · next name following step =>
      simp only [step]
      unfold find
      split
      · next found => simp only [found, bind, Except.bind]
      · next unit found =>
          simp only [found, bind, Except.bind]
          cases LoadedUnit.checkNamed options name unit <;> rfl

theorem reachable_congr (library : Library) {options options' : LoadOptions}
    (same : options.verify = options'.verify) (discovery : Discovery) :
    library.reachable options discovery = library.reachable options' discovery := by
  have check := LoadedUnit.checkNamed_congr same
  fun_induction library.reachable options discovery with
  | case1 discovery step => rw [reachable_eq, step]
  | case2 discovery name following step found =>
      rw [reachable_eq, step]
      dsimp only
      rw [find, found]
      rfl
  | case3 discovery name following step unit found fault refused =>
      rw [reachable_eq, step]
      dsimp only
      rw [find, found, ← check]
      dsimp only [bind, Except.bind]
      rw [refused]
  | case4 discovery name following step unit found loaded accepted shorter ih =>
      rw [reachable_eq library options' discovery, step]
      dsimp only
      rw [find, found, ← check]
      dsimp only [bind, Except.bind]
      rw [accepted]
      exact ih

theorem checked_of_reachable {library : Library} {options : LoadOptions}
    (verifies : options.verify = true) {discovery : Discovery} {units : List LoadedUnit}
    (h : library.reachable options discovery = .ok units)
    (checked : ∀ unit ∈ discovery.found, unit.Checked) : ∀ unit ∈ units, unit.Checked := by
  fun_induction library.reachable options discovery with
  | case1 discovery step =>
      cases h
      exact checked
  | case2 discovery name following step found => cases h
  | case3 discovery name following step unit found fault refused => cases h
  | case4 discovery name following step unit found loaded accepted shorter ih =>
      refine ih h fun unit member => ?_
      have kept : following.found = discovery.found := Discovery.found_of_next step
      rw [Discovery.accept, kept] at member
      rcases List.mem_append.mp member with before | new
      · exact checked unit before
      · obtain rfl := List.mem_singleton.mp new
        exact LoadedUnit.checked_of_checkNamed verifies accepted

end Library

end ObjectMachine
