import ObjectMachine.Code.Layout
import ObjectMachine.Proofs.Code.Stream
import ObjectMachine.Proofs.Results

/-!
# Positions in a layout

Shrinking a layout narrows it: lines keep their instruction and their targets and become at most
as wide. Narrowing brings any two lines nearer without swapping them, so a branch that fitted its
width goes on fitting it; that is what keeps a layout sound while its lines shrink one by one.
-/

namespace ObjectMachine

namespace Width

theorem bytes_max (a b : Width) : (a.max b).bytes = Nat.max a.bytes b.bytes := by
  unfold Width.max
  split <;> simp only [Nat.max_def] <;> split <;> omega

theorem le_foldl_max (widths : List Width) (width : Width) :
    width.bytes ≤ (widths.foldl max width).bytes ∧
      ∀ other ∈ widths, other.bytes ≤ (widths.foldl max width).bytes := by
  induction widths generalizing width with
  | nil => simp
  | cons first rest ih =>
      obtain ⟨start, others⟩ := ih (width.max first)
      rw [bytes_max] at start
      have left := Nat.le_max_left width.bytes first.bytes
      have right := Nat.le_max_right width.bytes first.bytes
      refine ⟨Nat.le_trans left start, fun other member => ?_⟩
      rcases List.mem_cons.mp member with rfl | member
      · exact Nat.le_trans right start
      · exact others other member

/-- No width is wider than the widest. -/
theorem le_widest {widths : List Width} {width : Width} (h : width ∈ widths) :
    width.bytes ≤ (widest widths).bytes :=
  (le_foldl_max widths narrow).2 width h

/-- A distance that lies between zero and one that fits. -/
theorem Holds.between {width : Width} {distance nearer : Int} (h : width.Holds distance)
    (between : 0 ≤ nearer ∧ nearer ≤ distance ∨ distance ≤ nearer ∧ nearer ≤ 0) :
    width.Holds nearer := by
  have positive : 0 < width.reach := by cases width <;> decide
  unfold Holds at *
  omega

end Width

namespace Layout

/-! ## Lines of a position -/

/-- The table of positions from a line number on. -/
theorem getElem?_lineTable (instructions : List Instruction) (number position line : Nat) :
    (((instructions.zipIdx number).flatMap fun (instruction, line) =>
        some line :: List.replicate (instruction.size - 1) none) ++
          [some (number + instructions.length)])[position]?.join = some line ↔
      ∃ step ≤ instructions.length,
        line = number + step ∧ position = Code.boundary instructions step := by
  induction instructions generalizing number position with
  | nil =>
      cases position with
      | zero => simp [eq_comm]
      | succ position => simp
  | cons first rest ih =>
      have positive := first.size_pos
      have block :
          (some number :: List.replicate (first.size - 1) none : List (Option Nat)).length =
          first.size := by
        rw [List.length_cons, List.length_replicate]
        omega
      rw [List.zipIdx_cons, List.flatMap_cons, List.append_assoc]
      by_cases within : position < first.size
      · rw [List.getElem?_append_left (by rw [block]; exact within)]
        constructor
        · intro h
          cases position with
          | zero => exact ⟨0, by omega, by simpa [eq_comm] using h, by simp⟩
          | succ position =>
              rw [List.getElem?_cons_succ, List.getElem?_replicate] at h
              split at h <;> cases h
        · rintro ⟨step, -, rfl, rfl⟩
          cases step with
          | zero => simp
          | succ step =>
              rw [Code.boundary_cons_succ] at within
              omega
      · rw [List.getElem?_append_right (by rw [block]; omega), block, List.length_cons,
          show number + (rest.length + 1) = number + 1 + rest.length by omega, ih]
        constructor
        · rintro ⟨step, inside, rfl, h⟩
          exact ⟨step + 1, by omega, by omega, by rw [Code.boundary_cons_succ]; omega⟩
        · rintro ⟨step, inside, rfl, h⟩
          cases step with
          | zero =>
              rw [Code.boundary_zero] at h
              omega
          | succ step =>
              rw [Code.boundary_cons_succ] at h
              exact ⟨step, by omega, by omega, by omega⟩

/-- The line at a position is the one whose boundary it is. -/
theorem lineAt_eq_some_iff {instructions : List Instruction} {position : Int} {line : Nat} :
    lineAt (lineIndex instructions) position = some line ↔
      line ≤ instructions.length ∧ position = Code.boundary instructions line := by
  have table := getElem?_lineTable instructions 0 position.toNat line
  rw [Nat.zero_add] at table
  rw [lineAt, lineIndex]
  by_cases negative : position < 0
  · rw [if_pos negative]
    constructor
    · intro h
      cases h
    · rintro ⟨-, h⟩
      omega
  · rw [if_neg negative, List.getElem?_toArray, table]
    clear table
    constructor
    · rintro ⟨step, inside, rfl, h⟩
      rw [Nat.zero_add]
      exact ⟨inside, by omega⟩
    · rintro ⟨inside, h⟩
      exact ⟨line, inside, by omega, by omega⟩

theorem entryLine_eq_ok_iff {instructions : List Instruction} {entry : UInt32} {line : Nat} :
    entryLine (lineIndex instructions) entry = .ok line ↔
      line ≤ instructions.length ∧ entry.toNat = Code.boundary instructions line := by
  have cast : (entry.toNat : Int) = Code.boundary instructions line ↔
      entry.toNat = Code.boundary instructions line := Int.ofNat_inj
  rw [← cast, ← lineAt_eq_some_iff, entryLine]
  cases lineAt (lineIndex instructions) entry.toNat <;> simp

/-! ## Positions of lines -/

/-- Where a line starts. The end of the layout counts as a line. -/
def position (layout : Layout) (line : Nat) : Nat :=
  Code.total ((layout.lines.toList.take line).map Line.size)

def span (layout : Layout) (line target : Nat) : Int :=
  (layout.position target : Int) - layout.position line

theorem position_succ {layout : Layout} {number : Nat} {line : Line}
    (h : layout.lines[number]? = some line) :
    layout.position (number + 1) = layout.position number + line.size := by
  simp only [position, List.take_add_one, Array.getElem?_toList, h, Option.toList_some,
    List.map_append, Code.total_append, List.map_singleton, Code.total, Nat.add_zero]

theorem starts_eq (layout : Layout) :
    layout.starts = ((List.range (layout.lines.size + 1)).map layout.position).toArray := by
  refine Array.foldl_induction
    (motive := fun number starts =>
      starts = ((List.range (number + 1)).map layout.position).toArray) rfl ?_
  rintro number _ rfl
  have here : layout.lines[number.val]? = some layout.lines[number] :=
    Array.getElem?_eq_getElem number.isLt
  rw [List.range_succ (n := number.val + 1), List.map_append, List.map_singleton,
    position_succ here, List.push_toArray]
  simp [List.range_succ]

theorem getD_starts {layout : Layout} {line : Nat} (h : line ≤ layout.lines.size) :
    layout.starts.getD line 0 = layout.position line := by
  rw [starts_eq, Array.getD_eq_getD_getElem?, List.getElem?_toArray, List.getElem?_map,
    List.getElem?_range (by omega)]
  rfl

theorem distance_starts {layout : Layout} {line target : Nat} (h : line ≤ layout.lines.size)
    (h' : target ≤ layout.lines.size) :
    distance layout.starts line target = layout.span line target := by
  rw [distance, getD_starts h, getD_starts h', span]

end Layout

/-! ## Narrowing -/

structure Line.Narrows (line narrower : Line) : Prop where
  instruction : narrower.instruction = line.instruction
  targets : narrower.targets = line.targets
  width_le : narrower.width.bytes ≤ line.width.bytes
  width_eq : line.isBranch = false → narrower.width = line.width

namespace Line

theorem Narrows.refl (line : Line) : line.Narrows line :=
  ⟨rfl, rfl, Nat.le_refl _, fun _ => rfl⟩

theorem Narrows.trans {line middle narrower : Line} (h : line.Narrows middle)
    (h' : middle.Narrows narrower) : line.Narrows narrower where
  instruction := h'.instruction.trans h.instruction
  targets := h'.targets.trans h.targets
  width_le := Nat.le_trans h'.width_le h.width_le
  width_eq := by
    intro fixed
    have same : middle.isBranch = false := by
      rw [isBranch, h.instruction]
      exact fixed
    rw [h'.width_eq same, h.width_eq fixed]

theorem Narrows.size_le {line narrower : Line} (h : line.Narrows narrower) :
    narrower.size ≤ line.size := by
  have width := h.width_le
  have table := Nat.mul_le_mul_left line.instruction.distances.length width
  simp only [size, Instruction.sizeAt, h.instruction]
  cases line.instruction.opcode.shape <;> dsimp only <;> omega

end Line

namespace Layout

def Narrows (layout narrower : Layout) : Prop :=
  List.Forall₂ Line.Narrows layout.lines.toList narrower.lines.toList

namespace Narrows

theorem refl (layout : Layout) : layout.Narrows layout :=
  List.forall₂_same.mpr fun line _ => Line.Narrows.refl line

theorem trans {layout middle narrower : Layout} (h : layout.Narrows middle)
    (h' : middle.Narrows narrower) : layout.Narrows narrower := by
  unfold Narrows at *
  generalize layout.lines.toList = lines at *
  generalize middle.lines.toList = lines' at *
  generalize narrower.lines.toList = lines'' at *
  induction h generalizing lines'' with
  | nil => exact h'
  | cons first _ ih =>
      cases h' with
      | cons second rest => exact .cons (first.trans second) (ih _ rest)

theorem size_eq {layout narrower : Layout} (h : layout.Narrows narrower) :
    narrower.lines.size = layout.lines.size :=
  (List.Forall₂.length_eq h).symm

theorem line {layout narrower : Layout} (h : layout.Narrows narrower) {number : Nat} {line' : Line}
    (here : narrower.lines[number]? = some line') :
    ∃ line, layout.lines[number]? = some line ∧ line.Narrows line' := by
  obtain ⟨inside, rfl⟩ := Array.getElem?_eq_some_iff.mp here
  have within : number < layout.lines.size := h.size_eq ▸ inside
  exact ⟨layout.lines[number], Array.getElem?_eq_getElem within, h.get within inside⟩

/-- Lines keep their order, and two lines are never further apart than before. -/
theorem position_le {layout narrower : Layout} (h : layout.Narrows narrower) {line later : Nat}
    (order : line ≤ later) (inside : later ≤ layout.lines.size) :
    narrower.position line ≤ narrower.position later ∧
      narrower.position later + layout.position line ≤
        layout.position later + narrower.position line := by
  induction order with
  | refl => omega
  | @step later order ih =>
      have within : later < narrower.lines.size := by
        rw [h.size_eq]
        omega
      have here := Array.getElem?_eq_getElem within
      obtain ⟨before, was, narrows⟩ := h.line here
      have sizes := narrows.size_le
      rw [position_succ here, position_succ was]
      have before := ih (by omega)
      omega

/-- A distance stays on its side of zero and gets no longer. -/
theorem span_between {layout narrower : Layout} (h : layout.Narrows narrower) {line target : Nat}
    (inside : line ≤ layout.lines.size) (inside' : target ≤ layout.lines.size) :
    0 ≤ narrower.span line target ∧ narrower.span line target ≤ layout.span line target ∨
      layout.span line target ≤ narrower.span line target ∧ narrower.span line target ≤ 0 := by
  unfold span
  rcases Nat.le_total line target with order | order
  · have := h.position_le order inside'
    omega
  · have := h.position_le order inside
    omega

end Narrows

/-! ## Sound layouts -/

/-- Whether every branch leads to a line of the layout, at a distance that fits its width. -/
def Sound (layout : Layout) : Prop :=
  ∀ {number : Nat} {line : Line}, layout.lines[number]? = some line →
    ∀ {target : Nat}, some target ∈ line.targets →
      target ≤ layout.lines.size ∧ line.width.Holds (layout.span number target)

theorem Sound.of_narrows {layout narrower : Layout} (h : layout.Sound)
    (narrows : layout.Narrows narrower)
    (holds : ∀ {number : Nat} {line : Line}, narrower.lines[number]? = some line →
      ∀ {target : Nat}, some target ∈ line.targets →
        line.width.Holds (layout.span number target)) : narrower.Sound := by
  intro number line' here target member
  obtain ⟨line, was, hn⟩ := narrows.line here
  obtain ⟨inside, -⟩ := h was (hn.targets ▸ member)
  have within : number < layout.lines.size := (Array.getElem?_eq_some_iff.mp was).1
  exact ⟨narrows.size_eq ▸ inside,
    (holds here member).between (narrows.span_between (Nat.le_of_lt within) inside)⟩

/-- The needed width holds all distances of a line. -/
theorem neededWidth_holds {layout : Layout} (h : layout.Sound) {number : Nat} {line : Line}
    (here : layout.lines[number]? = some line) {target : Nat}
    (member : some target ∈ line.targets) :
    (neededWidth layout.starts number line.targets).Holds (layout.span number target) := by
  obtain ⟨inside, holds⟩ := h here member
  have within : number < layout.lines.size := (Array.getElem?_eq_some_iff.mp here).1
  have listed : target ∈ line.targets.reduceOption :=
    List.mem_filterMap.mpr ⟨some target, member, rfl⟩
  rw [← distance_starts (Nat.le_of_lt within) inside] at holds ⊢
  exact (Width.holds_forOffset holds.wide).mono
    (Width.le_widest (List.mem_map.mpr ⟨target, listed, rfl⟩))

/-- What a step or several of shrinking come to. -/
structure Refines (layout narrower : Layout) : Prop where
  narrows : layout.Narrows narrower
  sound : narrower.Sound

theorem narrows_modify {layout : Layout} {number : Nat} {line : Line} {width : Width}
    (here : layout.lines[number]? = some line) (branch : line.isBranch = true)
    (less : width.bytes ≤ line.width.bytes) :
    layout.Narrows ⟨layout.lines.modify number fun line => { line with width }⟩ := by
  refine List.forall₂_iff_get.mpr ⟨by simp, fun other inside inside' => ?_⟩
  simp only [List.get_eq_getElem, Array.getElem_toList, Array.getElem_modify]
  split
  · next same =>
      subst same
      have found : layout.lines[number] = line := (Array.getElem?_eq_some_iff.mp here).2
      rw [found]
      exact ⟨rfl, rfl, less, fun fixed => absurd branch (by simp [fixed])⟩
  · exact Line.Narrows.refl _

/-- One line shrinks to a width that its distances fit. -/
theorem shrinkLine_refines {layout : Layout} (h : layout.Sound) (number : Nat) :
    ∃ narrower, shrinkLine (layout, layout.starts) number = (narrower, narrower.starts) ∧
      layout.Refines narrower := by
  have same : layout.Refines layout := ⟨Narrows.refl layout, h⟩
  unfold shrinkLine
  dsimp only
  split
  · exact ⟨layout, rfl, same⟩
  · next line here =>
      split
      · next shrinks =>
          obtain ⟨branch, less⟩ := shrinks
          have narrows := narrows_modify here branch (Nat.le_of_lt less)
          refine ⟨_, rfl, narrows, h.of_narrows narrows ?_⟩
          intro other line' found target member
          by_cases chosen : number = other
          · subst chosen
            rw [Array.getElem?_modify, if_pos rfl, here, Option.map_some] at found
            obtain rfl := Option.some.inj found
            exact neededWidth_holds h here member
          · rw [Array.getElem?_modify, if_neg chosen] at found
            exact (h found member).2
      · exact ⟨layout, rfl, same⟩

theorem foldl_shrinkLine_refines {layout : Layout} (h : layout.Sound) (numbers : List Nat) :
    ∃ narrower, numbers.foldl shrinkLine (layout, layout.starts) = (narrower, narrower.starts) ∧
      layout.Refines narrower := by
  induction numbers generalizing layout with
  | nil => exact ⟨layout, rfl, Narrows.refl layout, h⟩
  | cons number rest ih =>
      obtain ⟨_, step, narrows, sound⟩ := shrinkLine_refines h number
      obtain ⟨narrower, steps, narrows', sound'⟩ := ih sound
      rw [List.foldl_cons, step]
      exact ⟨narrower, steps, narrows.trans narrows', sound'⟩

theorem pass_refines {layout : Layout} (h : layout.Sound) : layout.Refines layout.pass := by
  obtain ⟨narrower, fold, refines⟩ := foldl_shrinkLine_refines h (List.range layout.lines.size)
  rw [pass, fold]
  exact refines

theorem settle_refines {layout : Layout} (h : layout.Sound) : layout.Refines layout.settle.1 := by
  induction layout using settle.induct with
  | case1 layout next less _ _ _ ih =>
      have step := pass_refines h
      have steps := ih step.sound
      unfold settle
      simp only [next] at less steps
      rw [if_pos less]
      exact ⟨step.narrows.trans steps.narrows, steps.sound⟩
  | case2 layout next less =>
      unfold settle
      simp only [next] at less
      rw [if_neg less]
      exact ⟨Narrows.refl layout, h⟩

end Layout

end ObjectMachine
