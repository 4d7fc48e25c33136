import ObjectMachine.Proofs.Code.Layout

/-!
# Shrinking keeps the meaning of a stream

A shrunk stream has the instructions of the original line by line. Each keeps its opcode and
whatever its operand says beside distances, and each distance leads to the line it led to before.
Entry points move along with their lines.
-/

namespace ObjectMachine

namespace Operand

/-- Whether two operands say the same, with their distances tied by a relation. A catch body that
is not there is not there in either. -/
def Matches (tie : Int32 → Int32 → Prop) : Operand → Operand → Prop
  | offset distance, offset distance' => tie distance distance'
  | table distances, table distances' => List.Forall₂ tie distances distances'
  | tryPair onCatch onFinally, tryPair onCatch' onFinally' =>
    (onCatch = 0 ↔ onCatch' = 0) ∧ (onCatch ≠ 0 → tie onCatch onCatch') ∧
      tie onFinally onFinally'
  | operand, other => operand = other

theorem Matches.imp {tie tie' : Int32 → Int32 → Prop} {operand operand' : Operand}
    (h : operand.Matches tie operand')
    (hi : ∀ distance distance', some distance ∈ operand.encodedDistances →
      tie distance distance' → tie' distance distance') : operand.Matches tie' operand' := by
  cases operand with
  | offset distance =>
      cases operand' with
      | offset distance' => exact hi _ _ List.mem_cons_self h
      | _ => cases h
  | table distances =>
      cases operand' with
      | table distances' =>
          have listed := (List.forall₂_and_left _ _).mpr ⟨fun distance member => member, h⟩
          exact listed.imp fun distance distance' tied =>
            hi _ _ (List.mem_map_of_mem tied.1) tied.2
      | _ => cases h
  | tryPair onCatch onFinally =>
      cases operand' with
      | tryPair onCatch' onFinally' =>
          obtain ⟨missing, caught, finished⟩ := h
          refine ⟨missing, fun there => hi _ _ ?_ (caught there), hi _ _ ?_ finished⟩
          · simp [encodedDistances, there]
          · simp [encodedDistances]
      | _ => cases h
  | _ => exact h

/-- Whether a distance takes the place of an encoded one, zero that of a catch body that is not
there. -/
def Replaces (tie : Int32 → Int32 → Prop) (distance : Option Int32) (distance' : Int32) : Prop :=
  match distance with
  | none => distance' = 0
  | some distance => tie distance distance' ∧ (distance = 0 ↔ distance' = 0)

theorem matches_withDistances {tie : Int32 → Int32 → Prop} {operand : Operand}
    {distances : List Int32}
    (h : List.Forall₂ (Replaces tie) operand.encodedDistances distances) :
    operand.Matches tie (operand.withDistances distances) := by
  cases operand with
  | offset distance =>
      obtain ⟨distance', _, here, none, rfl⟩ := List.forall₂_cons_left_iff.mp h
      obtain rfl := List.forall₂_nil_left_iff.mp none
      exact here.1
  | table distances =>
      rw [encodedDistances, List.forall₂_map_left_iff] at h
      exact h.imp fun _ _ here => here.1
  | tryPair onCatch onFinally =>
      obtain ⟨onCatch', _, first, more, rfl⟩ := List.forall₂_cons_left_iff.mp h
      obtain ⟨onFinally', _, second, none, rfl⟩ := List.forall₂_cons_left_iff.mp more
      obtain rfl := List.forall₂_nil_left_iff.mp none
      by_cases missing : onCatch = 0
      · rw [if_pos missing] at first
        exact ⟨⟨fun _ => first, fun _ => missing⟩, fun there => absurd missing there, second.1⟩
      · rw [if_neg missing] at first
        exact ⟨first.2, fun _ => first.1, second.1⟩
  | _ => rfl

theorem encodedDistances_eq_nil {opcode : Opcode} {width : Width} {operand : Operand}
    (h : operand.Fits opcode width) (fixed : opcode.shape.isBranch = false) :
    operand.encodedDistances = [] := by
  unfold Fits at h
  cases hs : opcode.shape <;> rw [hs] at fixed h <;> cases operand <;>
    first | rfl | exact h.elim | cases fixed

theorem Fits.holds {opcode : Opcode} {width : Width} {operand : Operand}
    (h : operand.Fits opcode width) {distance : Int32}
    (member : some distance ∈ operand.encodedDistances) : width.Holds distance.toInt := by
  cases operand with
  | offset other =>
      obtain rfl : distance = other := by simpa [encodedDistances] using member
      unfold Fits at h
      cases hs : opcode.shape <;> rw [hs] at h <;> first | exact h | exact h.elim
  | table distances =>
      have listed : distance ∈ distances := by simpa [encodedDistances] using member
      unfold Fits at h
      cases hs : opcode.shape <;> rw [hs] at h <;> first | exact h.2 _ listed | exact h.elim
  | tryPair onCatch onFinally =>
      unfold Fits at h
      cases hs : opcode.shape <;> rw [hs] at h <;> try exact h.elim
      rcases List.mem_cons.mp member with here | member
      · split at here <;> cases here
        exact h.1
      · obtain rfl : distance = onFinally := by simpa using member
        exact h.2
  | _ => cases member

theorem withDistances_nil {operand : Operand} (h : operand.encodedDistances = []) :
    operand.withDistances [] = operand := by
  cases operand with
  | table distances => rw [List.map_eq_nil_iff.mp h, withDistances]
  | _ => rfl

theorem Fits.withDistances {opcode : Opcode} {width width' : Width} {operand : Operand}
    {distances : List Int32} (h : operand.Fits opcode width)
    (length : distances.length = operand.encodedDistances.length)
    (holds : ∀ distance ∈ distances, width'.Holds distance.toInt)
    (same : opcode.shape.isBranch = false → width' = width) :
    (operand.withDistances distances).Fits opcode width' := by
  by_cases branch : opcode.shape.isBranch = true
  · unfold Fits at h ⊢
    cases hs : opcode.shape <;> rw [hs] at branch <;> try cases branch
    all_goals rw [hs] at h; cases operand <;> try exact h.elim
    · obtain ⟨distance, rfl⟩ := List.length_eq_one_iff.mp length
      exact holds distance List.mem_cons_self
    · rw [encodedDistances, List.length_map] at length
      exact ⟨length ▸ h.1, holds⟩
    · obtain ⟨onCatch, onFinally, rfl⟩ := List.length_eq_two.mp length
      exact ⟨holds onCatch (by simp), holds onFinally (by simp)⟩
  · have fixed : opcode.shape.isBranch = false := by simpa using branch
    have none := encodedDistances_eq_nil h fixed
    rw [none, List.length_nil, List.length_eq_zero_iff] at length
    rw [same fixed, length, withDistances_nil none]
    exact h

end Operand

namespace Code

/-- Whether a distance of an instruction leads to a line of its stream. The end counts as a
line. -/
def LeadsTo (instructions : List Instruction) (instruction : Instruction) (distance : Int32)
    (line : Nat) : Prop :=
  line ≤ instructions.length ∧
    instruction.offset + distance.toInt = (boundary instructions line : Int)

/-- Whether an instruction of one stream says what an instruction of another stream says: the
same operation on the same values, with branches to the same lines. -/
structure Counterpart (before after : List Instruction) (instruction instruction' : Instruction) :
    Prop where
  opcode_eq : instruction'.opcode = instruction.opcode
  operand : instruction.operand.Matches
    (fun distance distance' => ∃ line, LeadsTo before instruction distance line ∧
      LeadsTo after instruction' distance' line) instruction'.operand
  width_le : instruction'.width.bytes ≤ instruction.width.bytes
  same : instruction.opcode.shape.isBranch = false →
    instruction'.width = instruction.width ∧ instruction'.operand = instruction.operand

def Moved (before after : List Instruction) (entry moved : UInt32) : Prop :=
  ∃ line ≤ before.length, entry.toNat = boundary before line ∧ moved.toNat = boundary after line

end Code

namespace Layout

open Code

/-! ## The layout of a stream -/

structure Stands (instructions : List Instruction) (instruction : Instruction) (line : Line) :
    Prop where
  instruction_eq : line.instruction = instruction
  targets : List.Forall₂ (Option.Rel (LeadsTo instructions instruction))
    instruction.operand.encodedDistances line.targets
  width_le : line.width.bytes ≤ instruction.width.bytes
  width_eq : instruction.opcode.shape.isBranch = false → line.width = instruction.width

/-- Whether the lines of a layout stand for the instructions of a stream. -/
def Models (layout : Layout) (instructions : List Instruction) : Prop :=
  List.Forall₂ (Stands instructions) instructions layout.lines.toList

theorem targetLine_eq_ok {instructions : List Instruction} {instruction : Instruction}
    {distance : Option Int32} {target : Option Nat}
    (h : targetLine (lineIndex instructions) instruction distance = .ok target) :
    Option.Rel (LeadsTo instructions instruction) distance target := by
  cases distance with
  | none =>
      cases h
      exact .none
  | some distance =>
      simp only [targetLine] at h
      split at h
      · next line found =>
          cases h
          exact .some (lineAt_eq_some_iff.mp found)
      · cases h

theorem toLine_eq_ok {instructions : List Instruction} {instruction : Instruction} {line : Line}
    (h : toLine (lineIndex instructions) instruction = .ok line) :
    Stands instructions instruction line ∧ line.width = instruction.width := by
  obtain ⟨targets, found, h⟩ := Except.bind_eq_ok_iff.mp h
  cases h
  exact ⟨⟨rfl, (Except.mapM_eq_ok_iff.mp found).imp fun _ _ => targetLine_eq_ok,
    Nat.le_refl _, fun _ => rfl⟩, rfl⟩

theorem Models.narrows {layout narrower : Layout} {instructions : List Instruction}
    (h : layout.Models instructions) (narrows : layout.Narrows narrower) :
    narrower.Models instructions := by
  have step {instruction : Instruction} {line line' : Line}
      (hs : Stands instructions instruction line) (hn : line.Narrows line') :
      Stands instructions instruction line' :=
    ⟨hn.instruction.trans hs.instruction_eq, hn.targets ▸ hs.targets,
      Nat.le_trans hn.width_le hs.width_le, fun fixed =>
        (hn.width_eq (by rw [Line.isBranch, hs.instruction_eq]; exact fixed)).trans
          (hs.width_eq fixed)⟩
  refine List.forall₂_iff_get.mpr ⟨?_, fun number inside inside' => ?_⟩
  · rw [h.length_eq, narrows.length_eq]
  · have within : number < layout.lines.toList.length := h.length_eq ▸ inside
    exact step (h.get inside within) (narrows.get within inside')

/-- The layout that the instructions of a stream become is sound. -/
theorem sound_of_toLine {instructions : List Instruction} {lines : List Line}
    (laid : Laid 0 instructions)
    (h : List.Forall₂ (fun instruction line => toLine (lineIndex instructions) instruction =
      .ok line) instructions lines) :
    (⟨lines.toArray⟩ : Layout).Models instructions ∧ (⟨lines.toArray⟩ : Layout).Sound ∧
      ∀ line, (⟨lines.toArray⟩ : Layout).position line = boundary instructions line := by
  have sizes : lines.map Line.size = instructions.map Instruction.size := by
    refine map_eq_of_forall₂ (h.imp fun _ _ made => ?_)
    obtain ⟨stands, width⟩ := toLine_eq_ok made
    rw [Line.size, Instruction.size, stands.instruction_eq, width]
  have positions (line : Nat) :
      (⟨lines.toArray⟩ : Layout).position line = boundary instructions line := by
    rw [position, boundary, List.map_take, List.map_take, sizes]
  refine ⟨h.imp fun _ _ made => (toLine_eq_ok made).1, ?_, positions⟩
  intro number line here target member
  rw [List.getElem?_toArray] at here
  obtain ⟨inside, rfl⟩ := List.getElem?_eq_some_iff.mp here
  have within : number < instructions.length := h.length_eq ▸ inside
  obtain ⟨stands, width⟩ := toLine_eq_ok (h.get within inside)
  obtain ⟨_, encoded, leads⟩ := exists_of_mem_right stands.targets member
  cases leads with
  | @some distance _ leads =>
      have holds := (laid.wellFormed _ (List.getElem_mem within)).fits.holds encoded
      have start := laid.offset (List.getElem?_eq_getElem within)
      obtain ⟨there, leads⟩ := leads
      refine ⟨by rw [List.size_toArray, ← h.length_eq]; exact there, ?_⟩
      simp only [List.get_eq_getElem] at leads width
      rw [width, span, positions, positions, ← leads, start]
      convert holds using 1
      omega

/-! ## The stream of a layout -/

def newDistance (layout : Layout) (number : Nat) : Option Nat → Int32
  | none => 0
  | some target => Int32.ofInt (distance layout.starts number target)

def instructionAt (layout : Layout) (number : Nat) (line : Line) : Instruction :=
  { line.instruction with
    offset := layout.starts.getD number 0
    width := line.width
    operand := line.instruction.operand.withDistances
      (line.targets.map (layout.newDistance number)) }

theorem getElem?_instructions (layout : Layout) (number : Nat) :
    layout.instructions[number]? =
      layout.lines[number]?.map (layout.instructionAt number) := by
  simp only [instructions, List.getElem?_map, List.getElem?_zipIdx, Array.getElem?_toList,
    Option.map_map, Nat.zero_add, Function.comp_def]
  refine congrArg (Option.map · _) (funext fun line => ?_)
  rw [instructionAt]
  congr 2

theorem length_instructions (layout : Layout) :
    layout.instructions.length = layout.lines.size := by
  simp [instructions]

theorem wellFormed_instructionAt {layout : Layout} {instructions : List Instruction}
    {number : Nat} {instruction : Instruction} {line : Line}
    (stands : Stands instructions instruction line) (sound : instruction.WellFormed)
    (holds : ∀ target, some target ∈ line.targets →
      line.width.Holds (distance layout.starts number target)) :
    (layout.instructionAt number line).WellFormed ∧
      (layout.instructionAt number line).size = line.size := by
  obtain ⟨rfl, targets, -, fixed⟩ := stands
  obtain ⟨member, fits⟩ := sound
  have count : (line.targets.map (layout.newDistance number)).length =
      line.instruction.operand.encodedDistances.length := by
    rw [List.length_map, targets.length_eq]
  refine ⟨⟨?_, fits.withDistances count ?_ fixed⟩, ?_⟩
  · by_cases branch : line.instruction.opcode.shape.isBranch = true
    · have all : line.instruction.opcode.widths = Width.all := by
        rw [Opcode.widths, if_pos (by rw [OperandShape.isVariable, branch, Bool.or_true])]
      rw [instructionAt, all]
      exact line.width.mem_all
    · rw [instructionAt, fixed (by simpa using branch)]
      exact member
  · intro distance listed
    obtain ⟨target, there, rfl⟩ := List.mem_map.mp listed
    cases target with
    | none => exact line.width.holds_zero
    | some target =>
        have := holds target there
        rwa [newDistance, this.toInt_ofInt]
  · simp only [Instruction.size, Line.size, Instruction.sizeAt, instructionAt]
    cases hs : line.instruction.opcode.shape <;> try rfl
    have same : (line.instruction.operand.withDistances
        (line.targets.map (layout.newDistance number))).distances.length =
          line.instruction.operand.distances.length := by
      unfold Operand.Fits at fits
      rw [hs] at fits
      cases ho : line.instruction.operand <;> rw [ho] at fits <;> try exact fits.elim
      rw [ho, Operand.encodedDistances] at count
      exact count.trans (List.length_map _)
    simp only [Instruction.distances, same]

/-- A line's instruction is the counterpart of the one that the line stands for, once the lines of
both streams are known to start where the layouts say. -/
theorem counterpart_instructionAt {layout : Layout} {before after : List Instruction}
    {number : Nat} {instruction : Instruction} {line : Line}
    (laid : Laid 0 before) (here : before[number]? = some instruction)
    (length : after.length = before.length) (size : before.length = layout.lines.size)
    (boundaries : ∀ line, boundary after line = layout.position line)
    (stands : Stands before instruction line) (sound : instruction.WellFormed)
    (holds : ∀ target, some target ∈ line.targets →
      line.width.Holds (distance layout.starts number target)) :
    Counterpart before after instruction (layout.instructionAt number line) := by
  have inside : number < before.length := (List.getElem?_eq_some_iff.mp here).1
  have start := laid.offset here
  obtain ⟨rfl, targets, width_le, width_eq⟩ := stands
  have fit : ∀ target? ∈ line.targets, ∀ target, target? = some target →
      line.width.Holds (distance layout.starts number target) := by
    rintro _ member target rfl
    exact holds target member
  have same (fixed : line.instruction.opcode.shape.isBranch = false) :
      (layout.instructionAt number line).width = line.instruction.width ∧
        (layout.instructionAt number line).operand = line.instruction.operand := by
    have none := Operand.encodedDistances_eq_nil sound.fits fixed
    rw [none, List.forall₂_nil_left_iff] at targets
    refine ⟨width_eq fixed, ?_⟩
    rw [instructionAt, targets, List.map_nil, Operand.withDistances_nil none]
  refine ⟨rfl, Operand.matches_withDistances ?_, width_le, same⟩
  refine List.forall₂_map_right_iff.mpr ((forall₂_and_right targets fit).imp ?_)
  rintro _ _ ⟨leads, fit⟩
  cases leads with
  | none => rfl
  | @some distance target leads =>
      obtain ⟨there, leads⟩ := leads
      have exact := (fit target rfl).toInt_ofInt
      have new : (layout.newDistance number (some target)).toInt =
          (boundary after target : Int) - boundary after number := by
        rw [newDistance, exact, distance_starts (by omega) (by omega), span, boundaries,
          boundaries]
      have self : distance = 0 ↔ target = number := by
        rw [← Int32.toInt_inj, Int32.toInt_zero]
        constructor
        · intro zero
          exact boundary_inj there (Nat.le_of_lt inside) (by omega)
        · rintro rfl
          omega
      have self' : layout.newDistance number (some target) = 0 ↔ target = number := by
        rw [← Int32.toInt_inj, Int32.toInt_zero, new]
        constructor
        · intro zero
          exact boundary_inj (length ▸ there) (length ▸ Nat.le_of_lt inside) (by omega)
        · rintro rfl
          omega
      refine ⟨⟨target, ⟨there, leads⟩, length ▸ there, ?_⟩, self.trans self'.symm⟩
      have start' : (layout.instructionAt number line).offset = boundary after number := by
        rw [boundaries]
        exact getD_starts (by omega)
      rw [new, start']
      omega

/-- A sound layout of a stream becomes a stream of counterparts. -/
theorem instructions_counterparts {layout : Layout} {before : List Instruction}
    (laid : Laid 0 before) (models : layout.Models before) (sound : layout.Sound) :
    Laid 0 layout.instructions ∧
      (∀ line, boundary layout.instructions line = layout.position line) ∧
      List.Forall₂ (Counterpart before layout.instructions) before layout.instructions := by
  have length : before.length = layout.lines.size := models.length_eq
  have line {number : Nat} (inside : number < layout.lines.size) :
      ∃ instruction, before[number]? = some instruction ∧
        Stands before instruction layout.lines[number] ∧ instruction.WellFormed := by
    have within : number < before.length := length ▸ inside
    exact ⟨before[number], List.getElem?_eq_getElem within, models.get within inside,
      laid.wellFormed _ (List.getElem_mem within)⟩
  have holds {number : Nat} (inside : number < layout.lines.size) (target : Nat)
      (member : some target ∈ layout.lines[number].targets) :
      layout.lines[number].width.Holds (distance layout.starts number target) := by
    obtain ⟨there, holds⟩ := sound (Array.getElem?_eq_getElem inside) member
    rwa [distance_starts (Nat.le_of_lt inside) there]
  have sizes : layout.instructions.map Instruction.size = layout.lines.toList.map Line.size := by
    refine List.ext_getElem? fun number => ?_
    rw [List.getElem?_map, List.getElem?_map, getElem?_instructions, Array.getElem?_toList,
      Option.map_map]
    by_cases inside : number < layout.lines.size
    · obtain ⟨instruction, -, stands, good⟩ := line inside
      rw [Array.getElem?_eq_getElem inside]
      exact congrArg some (wellFormed_instructionAt stands good (holds inside)).2
    · rw [Array.getElem?_eq_none (Nat.le_of_not_lt inside)]
      rfl
  have boundaries (number : Nat) :
      boundary layout.instructions number = layout.position number := by
    rw [boundary, position, List.map_take, List.map_take, sizes]
  have laid' : Laid 0 layout.instructions := by
    refine Laid.of_getElem? fun number instruction' here => ?_
    rw [getElem?_instructions] at here
    obtain ⟨found, present, rfl⟩ := Option.map_eq_some_iff.mp here
    obtain ⟨inside, rfl⟩ := Array.getElem?_eq_some_iff.mp present
    obtain ⟨instruction, -, stands, good⟩ := line inside
    refine ⟨?_, (wellFormed_instructionAt stands good (holds inside)).1⟩
    rw [boundaries, Nat.zero_add, instructionAt, getD_starts (Nat.le_of_lt inside)]
  refine ⟨laid', boundaries, ?_⟩
  refine List.forall₂_iff_get.mpr ⟨by rw [length, length_instructions], fun number within _ => ?_⟩
  have inside : number < layout.lines.size := length ▸ within
  obtain ⟨instruction, here, stands, good⟩ := line inside
  have counterpart := counterpart_instructionAt laid here
    (length_instructions layout |>.trans length.symm) length boundaries stands good (holds inside)
  have there : layout.instructions[number]? =
      some (layout.instructionAt number layout.lines[number]) := by
    rw [getElem?_instructions, Array.getElem?_eq_getElem inside, Option.map_some]
  rw [List.get_eq_getElem, List.get_eq_getElem, (List.getElem?_eq_some_iff.mp here).2,
    (List.getElem?_eq_some_iff.mp there).2]
  exact counterpart

end Layout

namespace Code

open Layout

/-- **Shrinking keeps the meaning.** The shrunk stream decodes to counterparts of the original
instructions, no width being wider than before; entry points move along with their lines in the
order given, and the bytes saved are what the code got shorter. -/
theorem shrink_counterparts {code : Bytes} {entryPoints : List UInt32} {shrunk : Shrunk}
    (h : shrink code entryPoints = .ok shrunk) :
    ∃ before after, decode code = .ok before ∧ decode shrunk.code = .ok after ∧
      List.Forall₂ (Counterpart before after) before after ∧
      List.Forall₂ (Moved before after) entryPoints shrunk.entryPoints ∧
      shrunk.code.length + shrunk.bytesSaved = code.length := by
  obtain ⟨before, decoded, h⟩ := Except.bind_eq_ok_iff.mp h
  obtain ⟨entryLines, entered, h⟩ := Except.bind_eq_ok_iff.mp h
  obtain ⟨lines, made, h⟩ := Except.bind_eq_ok_iff.mp h
  rw [Except.mapError_eq_ok_iff] at decoded
  obtain ⟨laid, rfl⟩ := decode_eq_ok_iff.mp decoded
  obtain ⟨models, sound, positions⟩ := sound_of_toLine laid (Except.mapM_eq_ok_iff.mp made)
  obtain ⟨narrows, sound'⟩ := settle_refines sound
  obtain rfl := Except.ok.inj h
  generalize (Layout.settle ⟨lines.toArray⟩).1 = settled at *
  obtain ⟨laid', boundaries, counterparts⟩ :=
    instructions_counterparts laid (models.narrows narrows) sound'
  have nearer {line : Nat} (inside : line ≤ before.length) :
      settled.position line ≤ boundary before line := by
    have size : line ≤ lines.length := models.length_eq ▸ inside
    obtain ⟨-, less⟩ := narrows.position_le (Nat.zero_le line) size
    rw [positions, positions, boundary_zero] at less
    have zero : settled.position 0 = 0 := by simp [position, total]
    omega
  have length : settled.instructions.length = before.length := counterparts.length_eq.symm
  refine ⟨before, settled.instructions, decoded, decode_encode laid', counterparts, ?_, ?_⟩
  · refine List.forall₂_map_right_iff.mpr ((Except.mapM_eq_ok_iff.mp entered).imp ?_)
    intro entry line found
    obtain ⟨inside, start⟩ := entryLine_eq_ok_iff.mp found
    have small := entry.toNat_lt
    have := nearer inside
    have size : line ≤ settled.lines.size := by
      rw [← length_instructions, length]
      exact inside
    refine ⟨line, inside, start, ?_⟩
    rw [getD_starts size, boundaries]
    exact UInt32.toNat_ofNat_of_lt' (show _ < 0x100000000 by omega)
  · have := nearer (Nat.le_refl before.length)
    dsimp only
    rw [laid'.length_encode, laid.length_encode, boundaries, length]
    omega

/-- A loop whose branches were emitted wider than they have to be. -/
theorem shrink_counterparts_loop :
    let code : Bytes := [19, 1, 88, 9, 0, 0, 0, 1, 81, 248, 255, 146]
    let shrunk : Shrunk := ⟨[19, 1, 86, 5, 1, 80, 251, 146], [0, 4], 2, 4⟩
    shrink code [0, 7] = .ok shrunk ∧
      ∃ before after, decode code = .ok before ∧ decode shrunk.code = .ok after ∧
        List.Forall₂ (Counterpart before after) before after ∧
        List.Forall₂ (Moved before after) [0, 7] shrunk.entryPoints ∧
        shrunk.code.length + shrunk.bytesSaved = code.length := by
  intro code shrunk
  have shrinks : shrink code [0, 7] = .ok shrunk := by decide +kernel
  exact ⟨shrinks, shrink_counterparts shrinks⟩

end Code

end ObjectMachine
