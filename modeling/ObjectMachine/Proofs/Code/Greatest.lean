import Mathlib.Data.List.ReduceOption
import ObjectMachine.Proofs.Code.Settled

/-!
# The greatest assignment of widths

Widths may be assigned to the instructions of a stream in many ways such that each branch is as wide
as its distances need, given where the widths of all the others put its targets. Narrower layouts
need narrower widths, so lines that shrink stay above every such assignment: what they settle in is
the greatest one, whatever the order in which they are visited.
-/

namespace ObjectMachine

namespace Width

theorem widest_le_iff {widths : List Width} {width : Width} :
    (widest widths).bytes ≤ width.bytes ↔ ∀ other ∈ widths, other.bytes ≤ width.bytes := by
  have fold (start : Width) : (widths.foldl max start).bytes ≤ width.bytes ↔
      start.bytes ≤ width.bytes ∧ ∀ other ∈ widths, other.bytes ≤ width.bytes := by
    induction widths generalizing start with
    | nil => simp
    | cons first rest ih =>
        rw [List.foldl_cons, ih, bytes_max, List.forall_mem_cons, ← and_assoc]
        exact and_congr_left fun _ => Nat.max_le
  have least : narrow.bytes ≤ width.bytes := by cases width <;> decide
  rw [widest, fold]
  exact and_iff_right least

theorem forOffset_le_iff {width : Width} {distance : Int} (h : wide.Holds distance) :
    (forOffset distance).bytes ≤ width.bytes ↔ width.Holds distance :=
  ⟨(holds_forOffset h).mono, forOffset_le⟩

end Width

/-- The minimal width of a branch is the narrowest one that holds its distances. -/
theorem Operand.minimalWidth_le_iff {operand : Operand} {opcode : Opcode} {own width : Width}
    (fits : operand.Fits opcode own) (branch : opcode.shape.isBranch = true) :
    operand.minimalWidth.bytes ≤ width.bytes ↔
      ∀ distance, some distance ∈ operand.encodedDistances → width.Holds distance.toInt := by
  have single {distance : Int32} (member : some distance ∈ operand.encodedDistances) :
      (Width.forOffset distance.toInt).bytes ≤ width.bytes ↔ width.Holds distance.toInt :=
    Width.forOffset_le_iff (fits.holds member).wide
  cases operand with
  | offset distance =>
      rw [minimalWidth, single List.mem_cons_self]
      simp [encodedDistances]
  | table distances =>
      rw [minimalWidth, Width.widest_le_iff, List.forall_mem_map]
      simp only [encodedDistances, List.mem_map, Option.some.injEq, exists_eq_right] at single ⊢
      exact forall₂_congr fun distance member => single member
  | tryPair onCatch onFinally =>
      have last : some onFinally ∈ (tryPair onCatch onFinally).encodedDistances := by
        simp [encodedDistances]
      have finished := single last
      rw [minimalWidth, Width.bytes_max, Nat.max_le, finished]
      by_cases missing : onCatch = 0
      · have zero : (Width.forOffset onCatch.toInt).bytes ≤ width.bytes := by
          rw [missing]
          cases width <;> decide
        rw [and_iff_right zero]
        simp [encodedDistances, missing]
      · have first : some onCatch ∈ (tryPair onCatch onFinally).encodedDistances := by
          simp [encodedDistances, missing]
        rw [single first]
        simp [encodedDistances, missing]
  | _ =>
      unfold Fits at fits
      cases shape : opcode.shape <;> rw [shape] at fits branch <;>
        first | exact fits.elim | cases branch

namespace Layout

/-! ## Needed widths -/

/-- Whether every branch leads to a line of the layout, at a distance that some width holds. -/
def InReach (layout : Layout) : Prop :=
  ∀ (number : Nat) (line : Line), layout.lines[number]? = some line →
    ∀ target, some target ∈ line.targets →
      target ≤ layout.lines.size ∧ Width.wide.Holds (layout.span number target)

theorem Sound.inReach {layout : Layout} (h : layout.Sound) : layout.InReach :=
  fun _ _ here _ member => ⟨(h here member).1, (h here member).2.wide⟩

theorem InReach.narrows {layout narrower : Layout} (h : layout.InReach)
    (narrows : layout.Narrows narrower) : narrower.InReach := by
  intro number line' here target member
  obtain ⟨line, was, hn⟩ := narrows.line here
  obtain ⟨inside, holds⟩ := h number line was target (hn.targets ▸ member)
  have within : number < layout.lines.size := (Array.getElem?_eq_some_iff.mp was).1
  exact ⟨narrows.size_eq ▸ inside,
    holds.between (narrows.span_between (Nat.le_of_lt within) inside)⟩

theorem neededWidth_le_iff {layout : Layout} (h : layout.InReach) {number : Nat} {line : Line}
    (here : layout.lines[number]? = some line) {width : Width} :
    (neededWidth layout.starts number line.targets).bytes ≤ width.bytes ↔
      ∀ target, some target ∈ line.targets → width.Holds (layout.span number target) := by
  have within : number < layout.lines.size := (Array.getElem?_eq_some_iff.mp here).1
  rw [neededWidth, Width.widest_le_iff, List.forall_mem_map]
  simp only [List.reduceOption_mem_iff]
  refine forall₂_congr fun target member => ?_
  obtain ⟨inside, holds⟩ := h number line here target member
  rw [distance_starts (Nat.le_of_lt within) inside]
  exact Width.forOffset_le_iff holds

/-- The narrower a layout, the narrower the widths that its branches need. -/
theorem Narrows.neededWidth_le {layout narrower : Layout} (h : layout.Narrows narrower)
    (reach : layout.InReach) {number : Nat} {line : Line}
    (here : layout.lines[number]? = some line) :
    (neededWidth narrower.starts number line.targets).bytes ≤
      (neededWidth layout.starts number line.targets).bytes := by
  have within : number < layout.lines.size := (Array.getElem?_eq_some_iff.mp here).1
  have there := Array.getElem?_eq_getElem (h.size_eq.symm ▸ within : number < narrower.lines.size)
  obtain ⟨line', was, narrows⟩ := h.line there
  obtain rfl := Option.some.inj (here.symm.trans was)
  rw [← narrows.targets, neededWidth_le_iff (reach.narrows h) there]
  intro target member
  rw [narrows.targets] at member ⊢
  exact ((neededWidth_le_iff reach here).mp (Nat.le_refl _) target member).between
    (h.span_between (Nat.le_of_lt within) (reach number line here target member).1)

/-! ## Exact layouts -/

/-- Whether each branch of a layout is just as wide as its distances need. -/
def Exact (layout : Layout) : Prop :=
  ∀ {number : Nat} {line : Line}, layout.lines[number]? = some line → line.isBranch = true →
    line.width = neededWidth layout.starts number line.targets

theorem Tight.exact {layout : Layout} (h : layout.Tight) (sound : layout.Sound) :
    layout.Exact := by
  intro number line here branch
  have fits := (neededWidth_le_iff sound.inReach here).mpr fun _ member => (sound here member).2
  exact Width.bytes_inj (Nat.le_antisymm (h number line here branch) fits)

theorem shrinkAt_eq_self_iff_tight {layout : Layout} :
    (∀ number, layout.shrinkAt number = layout) ↔ layout.Tight := by
  simp only [shrinkAt_eq_self_iff]
  exact Iff.rfl

/-- A line that shrinks does not get narrower than it is in an exact layout below. -/
theorem Narrows.shrinkAt {layout exact : Layout} (h : layout.Narrows exact) (fixed : exact.Exact)
    (reach : layout.InReach) (number : Nat) : (layout.shrinkAt number).Narrows exact := by
  cases here : layout.lines[number]? with
  | none => rwa [shrinkAt_of_none here]
  | some line =>
      rw [shrinkAt_of_some here]
      split
      · next shrinks =>
          refine List.forall₂_iff_get.mpr ⟨?_, fun other inside inside' => ?_⟩
          · simpa using h.length_eq
          · have within : other < layout.lines.toList.length := by simpa using inside
            have narrows := h.get within inside'
            simp only [List.get_eq_getElem, Array.getElem_toList, Array.getElem_modify] at narrows ⊢
            split
            · next same =>
                subst same
                have found : layout.lines[number] = line := (Array.getElem?_eq_some_iff.mp here).2
                rw [found] at narrows ⊢
                have branch : exact.lines[number].isBranch = true := by
                  rw [Line.isBranch, narrows.instruction]
                  exact shrinks.1
                refine ⟨narrows.instruction, narrows.targets, ?_, fun none => ?_⟩
                · rw [fixed (Array.getElem?_eq_getElem inside') branch, narrows.targets]
                  exact h.neededWidth_le reach here
                · exact absurd shrinks.1 (by simpa [Line.isBranch] using none)
            · exact narrows
      · exact h

theorem Narrows.foldl_shrinkAt {layout exact : Layout} (h : layout.Narrows exact)
    (fixed : exact.Exact) (sound : layout.Sound) (numbers : List Nat) :
    (numbers.foldl Layout.shrinkAt layout).Narrows exact := by
  induction numbers generalizing layout with
  | nil => exact h
  | cons number rest ih =>
      exact ih (h.shrinkAt fixed sound.inReach number) (shrinkAt_refines sound number).sound

/-- No exact layout below one is wider anywhere than what that one settles in. -/
theorem Narrows.settle {layout exact : Layout} (h : layout.Narrows exact) (fixed : exact.Exact)
    (sound : layout.Sound) : layout.settle.1.Narrows exact := by
  revert h
  refine settle_induction (motive := fun layout => layout.Narrows exact →
    layout.settle.1.Narrows exact) (fun layout sound tight h => ?_)
    (fun layout sound loose ih h => ?_) layout sound
  · rw [settle_of_tight sound tight]
    exact h
  · rw [settle_of_not_tight sound loose]
    refine ih ?_
    rw [pass_eq]
    exact h.foldl_shrinkAt fixed sound _

theorem Narrows.antisymm {layout other : Layout} (h : layout.Narrows other)
    (h' : other.Narrows layout) : layout = other :=
  h'.weight_le.2 (Nat.le_antisymm h'.weight_le.1 h.weight_le.1)

/-! ## Visits in any order -/

/-- Whether visits to lines, one after the other, each of which shrinks its line, lead from one
layout to another. -/
inductive Shrinks : Layout → List Nat → Layout → Prop
  | none (layout : Layout) : Shrinks layout [] layout
  | visit {layout last : Layout} {number : Nat} {visits : List Nat}
      (changes : layout.shrinkAt number ≠ layout)
      (rest : Shrinks (layout.shrinkAt number) visits last) : Shrinks layout (number :: visits) last

theorem Shrinks.eq_foldl {layout last : Layout} {visits : List Nat}
    (h : layout.Shrinks visits last) : last = visits.foldl shrinkAt layout := by
  induction h with
  | none => rfl
  | visit _ _ ih => exact ih

/-- Lines may be visited in any order: when none can be shrunk, it is the settled layout. -/
theorem Shrinks.eq_settle {layout last : Layout} {visits : List Nat}
    (h : layout.Shrinks visits last) (sound : layout.Sound) (tight : last.Tight) :
    last = layout.settle.1 := by
  have refines := settle_refines sound
  have fixed : layout.settle.1.Exact := (tight_settle sound).exact refines.sound
  have visited := foldl_shrinkAt_refines sound visits
  rw [h.eq_foldl] at tight ⊢
  exact (refines.narrows.foldl_shrinkAt fixed sound visits).antisymm
    (visited.narrows.settle (tight.exact visited.sound) sound)

/-! ## How often a line shrinks -/

def slack (layout : Layout) : Nat :=
  Code.total (layout.lines.toList.map fun line => if line.isBranch then line.width.bytes / 2 else 0)

theorem Narrows.slack_lt {layout narrower : Layout} (h : layout.Narrows narrower)
    (other : narrower ≠ layout) : narrower.slack < layout.slack := by
  have falls {line line' : Line} (narrows : line.Narrows line') :
      (if line'.isBranch then line'.width.bytes / 2 else 0) ≤
          (if line.isBranch then line.width.bytes / 2 else 0) ∧
        ((if line'.isBranch then line'.width.bytes / 2 else 0) =
          (if line.isBranch then line.width.bytes / 2 else 0) → line' = line) := by
    have same : line'.isBranch = line.isBranch := by rw [Line.isBranch, narrows.instruction]; rfl
    have width := narrows.width_le
    rw [same]
    split
    · refine ⟨by omega, fun equal => narrows.eq_of_width ?_⟩
      revert equal
      cases line'.width <;> cases line.width <;> decide
    · next fixed =>
        have width := narrows.width_eq (by simpa using fixed)
        exact ⟨Nat.le_refl _, fun _ => narrows.eq_of_width width⟩
  obtain ⟨le, same⟩ := h.total_le falls
  exact Nat.lt_of_le_of_ne le fun equal => other (same equal)

theorem Shrinks.length_le {layout last : Layout} {visits : List Nat}
    (h : layout.Shrinks visits last) (sound : layout.Sound) : visits.length ≤ layout.slack := by
  induction h with
  | none => exact Nat.zero_le _
  | @visit layout _ number _ changes _ ih =>
      have step := shrinkAt_refines sound number
      have less := step.narrows.slack_lt changes
      have rest := ih step.sound
      rw [List.length_cons]
      omega

theorem settle_passes_le {layout : Layout} (sound : layout.Sound) :
    layout.settle.2 ≤ layout.slack + 1 := by
  refine settle_induction (motive := fun layout => layout.settle.2 ≤ layout.slack + 1)
    (fun layout sound tight => ?_) (fun layout sound loose ih => ?_) layout sound
  · rw [settle_of_tight sound tight]
    exact Nat.le_add_left 1 _
  · have less := (pass_refines sound).narrows.slack_lt fun same =>
      loose ((pass_eq_self_iff sound).mp same)
    rw [settle_of_not_tight sound loose]
    dsimp only
    omega

theorem slack_le (layout : Layout) :
    layout.slack ≤ 2 * layout.lines.toList.countP Line.isBranch := by
  rw [slack]
  induction layout.lines.toList with
  | nil => exact Nat.le_refl _
  | cons line rest ih =>
      have width : line.width.bytes / 2 ≤ 2 := by cases line.width <;> decide
      rw [List.map_cons, Code.total, List.countP_cons, Nat.mul_add, Nat.add_comm]
      refine Nat.add_le_add ih ?_
      split
      · exact width
      · exact Nat.zero_le _

def widths (layout : Layout) : List Width :=
  layout.lines.toList.map Line.width

theorem getElem?_widths {layout : Layout} {number : Nat} {line : Line}
    (here : layout.lines[number]? = some line) : layout.widths[number]? = some line.width := by
  rw [widths, List.getElem?_map, Array.getElem?_toList, here, Option.map_some]

theorem widths_instructions (layout : Layout) :
    layout.instructions.map Instruction.width = layout.widths := by
  refine List.ext_getElem? fun number => ?_
  rw [widths, List.getElem?_map, List.getElem?_map, getElem?_instructions, Array.getElem?_toList,
    Option.map_map]
  rfl

end Layout

namespace Code

/-! ## Assignments -/

/-- Where a line starts if the instructions of its stream are given other widths. -/
def boundaryAt (instructions : List Instruction) (widths : List Width) (line : Nat) : Nat :=
  total ((List.zipWith Instruction.sizeAt instructions widths).take line)

/-- Whether a width holds the distances of an instruction once the instructions of its stream are
given other widths. -/
def Suffices (instructions : List Instruction) (widths : List Width) (number : Nat)
    (instruction : Instruction) (width : Width) : Prop :=
  ∀ (distance : Int32) (line : Nat), some distance ∈ instruction.operand.encodedDistances →
    LeadsTo instructions instruction distance line →
      width.Holds ((boundaryAt instructions widths line : Int) -
        boundaryAt instructions widths number)

/-- Whether each branch of a stream is given the narrowest width that suffices when all of them are
given theirs, and no width is above the one that it takes the place of. -/
structure Balanced (instructions : List Instruction) (widths : List Width) : Prop where
  length_eq : widths.length = instructions.length
  width_le {number : Nat} {instruction : Instruction} {width : Width}
    (here : instructions[number]? = some instruction) (given : widths[number]? = some width) :
    width.bytes ≤ instruction.width.bytes
  fixed {number : Nat} {instruction : Instruction} {width : Width}
    (here : instructions[number]? = some instruction) (given : widths[number]? = some width)
    (fixed : instruction.opcode.shape.isBranch = false) : width = instruction.width
  narrowest {number : Nat} {instruction : Instruction} {width : Width}
    (here : instructions[number]? = some instruction) (given : widths[number]? = some width)
    (branch : instruction.opcode.shape.isBranch = true) :
    Suffices instructions widths number instruction width ∧
      ∀ other, Suffices instructions widths number instruction other → width.bytes ≤ other.bytes

/-- Whether an assignment is balanced and above all others that are. -/
structure Greatest (instructions : List Instruction) (widths : List Width) : Prop where
  balanced : Balanced instructions widths
  above {others : List Width} (h : Balanced instructions others) :
    List.Forall₂ (fun other width : Width => other.bytes ≤ width.bytes) others widths

theorem Greatest.unique {instructions : List Instruction} {widths others : List Width}
    (h : Greatest instructions widths) (h' : Greatest instructions others) : widths = others := by
  have below := h'.above h.balanced
  have above := h.above h'.balanced
  refine List.ext_getElem (below.length_eq) fun number inside inside' => Width.bytes_inj ?_
  exact Nat.le_antisymm (below.get inside inside') (above.get inside' inside)

end Code

namespace Layout.Resolves

open Code

variable {code : Bytes} {entryPoints : List UInt32} {instructions : List Instruction}
  {layout narrower : Layout} {lines : List Nat}
  (h : Resolves code entryPoints instructions layout lines)

include h

theorem stands (narrows : layout.Narrows narrower) {number : Nat} {line : Line}
    (here : narrower.lines[number]? = some line) :
    instructions[number]? = some line.instruction ∧ Stands instructions line.instruction line := by
  have models : narrower.Models instructions := h.sound_models.1.narrows narrows
  rw [← Array.getElem?_toList] at here
  obtain ⟨inside, rfl⟩ := List.getElem?_eq_some_iff.mp here
  have within : number < instructions.length := models.length_eq ▸ inside
  have stands := models.get within inside
  rw [List.get_eq_getElem, List.get_eq_getElem] at stands
  have same := stands.instruction_eq
  rw [List.getElem?_eq_getElem within]
  rw [← same] at stands ⊢
  exact ⟨rfl, stands⟩

theorem boundaryAt_widths (narrows : layout.Narrows narrower) (line : Nat) :
    boundaryAt instructions narrower.widths line = narrower.position line := by
  have own : List.Forall₂ (fun instruction line => line.instruction = instruction) instructions
      narrower.lines.toList :=
    (h.sound_models.1.narrows narrows).imp fun _ _ stands => stands.instruction_eq
  have sizes : List.zipWith Instruction.sizeAt instructions narrower.widths =
      narrower.lines.toList.map Line.size := by
    unfold widths
    clear h narrows
    generalize narrower.lines.toList = made at own ⊢
    induction own with
    | nil => rfl
    | cons here _ ih =>
        rw [List.map_cons, List.zipWith_cons_cons, ih, List.map_cons, Line.size, here]
  rw [boundaryAt, sizes, position, List.map_take]

theorem suffices_iff (narrows : layout.Narrows narrower) {number : Nat} {line : Line}
    (here : narrower.lines[number]? = some line) {width : Width} :
    Suffices instructions narrower.widths number line.instruction width ↔
      (neededWidth narrower.starts number line.targets).bytes ≤ width.bytes := by
  have targets := (h.stands narrows here).2.targets
  have reach := (Sound.inReach h.sound).narrows narrows
  rw [neededWidth_le_iff reach here]
  simp only [Suffices, h.boundaryAt_widths narrows]
  constructor
  · intro holds target member
    obtain ⟨_, encoded, related⟩ := exists_of_mem_right targets member
    obtain ⟨distance, rfl, leads⟩ := exists_of_rel_to_some related
    exact holds distance target encoded leads
  · intro holds distance target encoded leads
    obtain ⟨_, member, related⟩ := exists_of_mem_right targets.flip encoded
    obtain ⟨target', rfl, leads'⟩ := exists_of_rel_some related
    rw [leads.unique leads']
    exact holds target' member

/-- An assignment of widths is balanced if the layout with these widths is exact. -/
theorem balanced_iff (narrows : layout.Narrows narrower) :
    Balanced instructions narrower.widths ↔ narrower.Exact := by
  constructor
  · intro balanced number line here branch
    obtain ⟨holds, least⟩ := balanced.narrowest (h.stands narrows here).1 (getElem?_widths here)
      branch
    have above := (h.suffices_iff narrows here).mp holds
    have below := least _ ((h.suffices_iff narrows here).mpr (Nat.le_refl _))
    exact Width.bytes_inj (Nat.le_antisymm below above)
  · intro exact
    have entry {number : Nat} {instruction : Instruction} {width : Width}
        (here : instructions[number]? = some instruction)
        (given : narrower.widths[number]? = some width) :
        ∃ line, narrower.lines[number]? = some line ∧ line.instruction = instruction ∧
          line.width = width ∧ Stands instructions instruction line := by
      rw [widths, List.getElem?_map, Array.getElem?_toList] at given
      obtain ⟨line, there, rfl⟩ := Option.map_eq_some_iff.mp given
      obtain ⟨own, stands⟩ := h.stands narrows there
      obtain rfl := Option.some.inj (here.symm.trans own)
      exact ⟨line, there, rfl, rfl, stands⟩
    refine ⟨?_, ?_, ?_, ?_⟩
    · rw [widths, List.length_map, Array.length_toList, narrows.size_eq, h.length_eq]
    · intro number instruction width here given
      obtain ⟨line, -, -, rfl, stands⟩ := entry here given
      exact stands.width_le
    · intro number instruction width here given fixed
      obtain ⟨line, -, -, rfl, stands⟩ := entry here given
      exact stands.width_eq fixed
    · intro number instruction width here given branch
      obtain ⟨line, there, rfl, rfl, -⟩ := entry here given
      have needed := exact there branch
      refine ⟨(h.suffices_iff narrows there).mpr (Nat.le_of_eq ?_), fun other holds => ?_⟩
      · rw [needed]
      · rw [needed]
        exact (h.suffices_iff narrows there).mp holds

/-- Any balanced assignment is that of a layout with these widths. -/
theorem exists_narrows {widths : List Width} (balanced : Balanced instructions widths) :
    ∃ narrower, layout.Narrows narrower ∧ narrower.widths = widths := by
  let assigned := List.zipWith (fun line width => { line with width }) layout.lines.toList widths
  have length : widths.length = layout.lines.toList.length := by
    rw [balanced.length_eq, ← h.resolved.length_eq]
  have same : assigned.length = layout.lines.toList.length := by
    rw [List.length_zipWith, length, Nat.min_self]
  refine ⟨⟨assigned.toArray⟩, ?_, ?_⟩
  · refine List.forall₂_iff_get.mpr ⟨same.symm, fun number inside _ => ?_⟩
    have within : number < instructions.length := h.resolved.length_eq ▸ inside
    have here := List.getElem?_eq_getElem within
    have given := List.getElem?_eq_getElem (length ▸ inside : number < widths.length)
    have resolved := h.resolved.get within inside
    simp only [assigned, List.get_eq_getElem, List.getElem_zipWith] at resolved ⊢
    refine ⟨rfl, rfl, ?_, fun none => ?_⟩
    · rw [resolved.width_eq]
      exact balanced.width_le here given
    · rw [Line.isBranch, resolved.instruction_eq] at none
      rw [resolved.width_eq]
      exact balanced.fixed here given none
  · refine List.ext_getElem ?_ fun number inside inside' => ?_
    · rw [Layout.widths, List.length_map, same, length]
    · simp only [Layout.widths, assigned, List.getElem_map, List.getElem_zipWith]

/-- The settled layout has the greatest widths. -/
theorem greatest_iff {widths : List Width} :
    Greatest instructions widths ↔ widths = layout.settle.1.widths := by
  have refines := settle_refines h.sound
  have fixed : layout.settle.1.Exact := (tight_settle h.sound).exact refines.sound
  have greatest : Greatest instructions layout.settle.1.widths := by
    refine ⟨(h.balanced_iff refines.narrows).mpr fixed, fun {others} balanced => ?_⟩
    obtain ⟨narrower, narrows, rfl⟩ := h.exists_narrows balanced
    have below := narrows.settle ((h.balanced_iff narrows).mp balanced) h.sound
    exact List.forall₂_map_left_iff.mpr (List.forall₂_map_right_iff.mpr
      (below.flip.imp fun _ _ => Line.Narrows.width_le))
  exact ⟨fun other => other.unique greatest, fun same => same ▸ greatest⟩

theorem slack_le : layout.slack ≤ 2 * instructions.countP (·.opcode.shape.isBranch) := by
  have branches : layout.lines.toList.countP Line.isBranch =
      instructions.countP (·.opcode.shape.isBranch) := by
    have own := h.resolved.imp fun _ _ resolved => resolved.instruction_eq
    clear h
    generalize layout.lines.toList = made at own ⊢
    induction own with
    | nil => rfl
    | cons here _ ih => rw [List.countP_cons, List.countP_cons, ih, Line.isBranch, here]
  exact branches ▸ layout.slack_le

/-- In an exact layout of a stream, every branch has its minimal width. -/
theorem width_eq_minimalWidth (exact : layout.Exact) {instruction : Instruction}
    (member : instruction ∈ instructions)
    (branch : instruction.opcode.shape.isBranch = true) :
    instruction.width = instruction.minimalWidth := by
  obtain ⟨number, within, own⟩ := List.getElem_of_mem member
  have inside : number < layout.lines.toList.length := h.resolved.length_eq ▸ within
  obtain ⟨here, width, targets⟩ := h.resolved.get within inside
  rw [List.get_eq_getElem, List.get_eq_getElem, own] at here width targets
  rw [Array.getElem_toList] at here width targets
  have line := Array.getElem?_eq_getElem inside
  have suffices_iff (width : Width) :
      Suffices instructions layout.widths number instruction width ↔
        (neededWidth layout.starts number layout.lines[number].targets).bytes ≤ width.bytes :=
    here ▸ h.suffices_iff (Narrows.refl layout) line
  have apart {distance : Int32} {target : Nat}
      (leads : LeadsTo instructions instruction distance target) :
      (boundaryAt instructions layout.widths target : Int) -
        boundaryAt instructions layout.widths number = distance.toInt := by
    have start := h.laid.offset (List.getElem?_eq_getElem within)
    rw [own] at start
    rw [h.boundaryAt_widths (Narrows.refl layout), h.boundaryAt_widths (Narrows.refl layout),
      h.position_eq, h.position_eq, ← leads.2, start]
    omega
  have minimal (width : Width) : instruction.minimalWidth.bytes ≤ width.bytes ↔
      (neededWidth layout.starts number layout.lines[number].targets).bytes ≤ width.bytes := by
    have fits := (h.laid.wellFormed _ member).fits
    rw [Instruction.minimalWidth, Operand.minimalWidth_le_iff fits branch, ← suffices_iff]
    constructor
    · intro holds distance target encoded leads
      rw [apart leads]
      exact holds distance encoded
    · intro holds distance encoded
      obtain ⟨_, -, related⟩ := exists_of_mem_right targets.flip encoded
      obtain ⟨target, rfl, leads⟩ := exists_of_rel_some related
      rw [← apart leads]
      exact holds distance target encoded leads
  have above := (minimal instruction.minimalWidth).mp (Nat.le_refl _)
  have below := (minimal _).mpr (Nat.le_refl _)
  rw [← width, exact line (by rw [Line.isBranch, here]; exact branch)]
  exact Width.bytes_inj (Nat.le_antisymm above below)

end Layout.Resolves

namespace Code

open Layout

/-- **Shrinking reaches the greatest assignment.** Of all assignments of widths in which each branch
is as narrow as the others let it be, the shrunk stream has the greatest one that is not above the
widths given. Visiting the lines that can be shrunk in any other order ends in the same code. Every
branch is left at its minimal width, so shrinking once more changes nothing. -/
theorem shrink_greatest {code : Bytes} {entryPoints : List UInt32} {shrunk : Shrunk}
    (h : shrink code entryPoints = .ok shrunk) :
    ∃ before after layout lines, Resolves code entryPoints before layout lines ∧
      decode shrunk.code = .ok after ∧
      List.Forall₂ (Counterpart before after) before after ∧
      (∀ widths, Greatest before widths ↔ widths = after.map Instruction.width) ∧
      (∀ visits last, layout.Shrinks visits last →
        visits.length ≤ 2 * before.countP (·.opcode.shape.isBranch) ∧
        ((∀ number, last.shrinkAt number = last) →
          encode last.instructions = shrunk.code ∧
          lines.map (fun line => UInt32.ofNat (last.starts.getD line 0)) = shrunk.entryPoints)) ∧
      (∀ instruction ∈ after, instruction.opcode.shape.isBranch = true →
        instruction.width = instruction.minimalWidth) ∧
      shrink shrunk.code shrunk.entryPoints = .ok { shrunk with passes := 1, bytesSaved := 0 } ∧
      shrunk.passes ≤ 2 * before.countP (·.opcode.shape.isBranch) + 1 := by
  have again := shrink_shrunk h
  obtain ⟨before, layout, lines, resolves, rfl⟩ := shrink_eq_ok_iff.mp h
  have written := resolves.written code.length
  have few := resolves.slack_le
  refine ⟨before, layout.settle.1.instructions, layout, lines, resolves, written.decoded,
    resolves.counterparts.2.2, fun widths => ?_, fun visits last visited => ⟨?_, fun still => ?_⟩,
    fun instruction member branch => ?_, again, ?_⟩
  · rw [widths_instructions]
    exact resolves.greatest_iff
  · exact Nat.le_trans (visited.length_le resolves.sound) few
  · rw [visited.eq_settle resolves.sound (shrinkAt_eq_self_iff_tight.mp still)]
    exact ⟨rfl, rfl⟩
  · exact written.width_eq_minimalWidth (resolves.tight_written.exact written.sound) member branch
  · exact Nat.le_trans (settle_passes_le resolves.sound) (Nat.add_le_add_right few 1)

/-- The greatest widths of a loop whose branches were emitted wider than they have to be. -/
theorem shrink_greatest_loop :
    let code : Bytes := [19, 1, 88, 9, 0, 0, 0, 1, 81, 248, 255, 146]
    let shrunk : Shrunk := ⟨[19, 1, 86, 5, 1, 80, 251, 146], [0, 4], 2, 4⟩
    shrink code [0, 7] = .ok shrunk ∧
      ∃ before, decode code = .ok before ∧
        before.map Instruction.width = [.narrow, .wide, .narrow, .medium, .narrow] ∧
        ∀ widths, Greatest before widths ↔ widths = List.replicate 5 .narrow := by
  intro code shrunk
  have shrinks : shrink code [0, 7] = .ok shrunk := by decide +kernel
  obtain ⟨before, after, layout, lines, resolves, decoded, -, greatest, -⟩ :=
    shrink_greatest shrinks
  have wide : (decode code).map (·.map Instruction.width) =
      .ok [.narrow, .wide, .narrow, .medium, .narrow] := by decide +kernel
  have narrow : (decode shrunk.code).map (·.map Instruction.width) =
      .ok (List.replicate 5 .narrow) := by decide +kernel
  rw [resolves.decoded] at wide
  rw [decoded] at narrow
  have left : after.map Instruction.width = List.replicate 5 .narrow := Except.ok.inj narrow
  refine ⟨shrinks, before, resolves.decoded, Except.ok.inj wide, fun widths => ?_⟩
  rw [greatest, left]

end Code

end ObjectMachine
