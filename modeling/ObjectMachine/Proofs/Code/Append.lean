import Mathlib.Data.List.ReduceOption
import ObjectMachine.Proofs.Code.Settled

/-!
# Shrinking streams in a row

The lines of two streams that are laid one behind the other never come between a branch and its
target in the other stream, so that each of them shrinks as it does alone: pass by pass the layout
of both is made of the layouts of either. The end of the first stream is the start of the second
one, which changes no distance.
-/

namespace ObjectMachine

def Line.shift (bytes lines : Nat) (line : Line) : Line :=
  { line with
    instruction := line.instruction.shift bytes
    targets := line.targets.map (Option.map (lines + ·)) }

namespace Layout

def append (bytes : Nat) (front back : Layout) : Layout :=
  ⟨front.lines ++ back.lines.map (Line.shift bytes front.lines.size)⟩

section

variable (bytes : Nat) (front back : Layout)

theorem size_append :
    (append bytes front back).lines.size = front.lines.size + back.lines.size := by
  simp [append]

theorem getElem?_append_left {number : Nat} (inside : number < front.lines.size) :
    (append bytes front back).lines[number]? = front.lines[number]? :=
  Array.getElem?_append_left inside

theorem getElem?_append_right (number : Nat) :
    (append bytes front back).lines[front.lines.size + number]? =
      back.lines[number]?.map (Line.shift bytes front.lines.size) := by
  rw [append, Array.getElem?_append_right (Nat.le_add_right _ _), Nat.add_sub_cancel_left,
    Array.getElem?_map]

theorem position_append_left {line : Nat} (inside : line ≤ front.lines.size) :
    (append bytes front back).position line = front.position line := by
  rw [position, append, Array.toList_append, List.take_append_of_le_length inside, position]

theorem position_append_right (line : Nat) :
    (append bytes front back).position (front.lines.size + line) =
      front.position front.lines.size + back.position line := by
  have same : Line.size ∘ Line.shift bytes front.lines.size = Line.size := rfl
  rw [position, append, Array.toList_append, ← Array.length_toList, List.take_length_add_append,
    List.map_append, Code.total_append, position, position, List.take_length, Array.toList_map,
    List.map_take, List.map_map, Array.length_toList, same, List.map_take]

theorem span_append_left {line target : Nat} (inside : line ≤ front.lines.size)
    (inside' : target ≤ front.lines.size) :
    (append bytes front back).span line target = front.span line target := by
  rw [span, span, position_append_left _ _ _ inside, position_append_left _ _ _ inside']

theorem span_append_right (line target : Nat) :
    (append bytes front back).span (front.lines.size + line) (front.lines.size + target) =
      back.span line target := by
  rw [span, span, position_append_right, position_append_right]
  omega

end

theorem neededWidth_eq {layout : Layout} {number : Nat} {targets : List (Option Nat)}
    (inside : number ≤ layout.lines.size)
    (all : ∀ target, some target ∈ targets → target ≤ layout.lines.size) :
    neededWidth layout.starts number targets =
      Width.widest (targets.reduceOption.map fun target =>
        Width.forOffset (layout.span number target)) := by
  refine congrArg Width.widest (List.map_congr_left fun target member => ?_)
  rw [distance_starts inside (all target (List.reduceOption_mem_iff.mp member))]

/-! ## Passes -/

section

variable (bytes : Nat) {front back : Layout}

theorem neededWidth_append_left (h : front.Sound) {number : Nat} {line : Line}
    (here : front.lines[number]? = some line) :
    neededWidth (append bytes front back).starts number line.targets =
      neededWidth front.starts number line.targets := by
  have inside := Nat.le_of_lt (Array.getElem?_eq_some_iff.mp here).1
  have all (target : Nat) (member : some target ∈ line.targets) : target ≤ front.lines.size :=
    (h here member).1
  have size := size_append bytes front back
  rw [neededWidth_eq inside all, neededWidth_eq (by omega) fun target member => by
    have := all target member
    omega]
  refine congrArg Width.widest (List.map_congr_left fun target member => ?_)
  rw [span_append_left bytes front back inside (all target (List.reduceOption_mem_iff.mp member))]

theorem neededWidth_append_right (h : back.Sound) {number : Nat} {line : Line}
    (here : back.lines[number]? = some line) :
    neededWidth (append bytes front back).starts (front.lines.size + number)
        (line.shift bytes front.lines.size).targets =
      neededWidth back.starts number line.targets := by
  have inside := Nat.le_of_lt (Array.getElem?_eq_some_iff.mp here).1
  have all (target : Nat) (member : some target ∈ line.targets) : target ≤ back.lines.size :=
    (h here member).1
  have size := size_append bytes front back
  rw [neededWidth_eq inside all, neededWidth_eq (by omega)]
  · rw [Line.shift, List.reduceOption_map, List.map_map]
    refine congrArg Width.widest (List.map_congr_left fun target _ => ?_)
    rw [Function.comp_apply, span_append_right]
  · intro target member
    obtain ⟨own, listed, found⟩ := List.mem_map.mp member
    obtain ⟨target, rfl, rfl⟩ := Option.map_eq_some_iff.mp found
    have := all target listed
    omega

theorem Sound.append (h : front.Sound) (h' : back.Sound) : (append bytes front back).Sound := by
  intro number line here target member
  have size := size_append bytes front back
  by_cases first : number < front.lines.size
  · rw [getElem?_append_left bytes front back first] at here
    obtain ⟨inside, holds⟩ := h here member
    refine ⟨by omega, ?_⟩
    rwa [span_append_left bytes front back (Nat.le_of_lt first) inside]
  · obtain ⟨number, rfl⟩ := Nat.exists_eq_add_of_le (Nat.le_of_not_lt first)
    rw [getElem?_append_right] at here
    obtain ⟨own, there, rfl⟩ := Option.map_eq_some_iff.mp here
    obtain ⟨target, listed, found⟩ := List.mem_map.mp member
    obtain ⟨target, rfl, rfl⟩ := Option.map_eq_some_iff.mp found
    obtain ⟨inside, holds⟩ := h' there listed
    refine ⟨by omega, ?_⟩
    rwa [span_append_right]

theorem shrinkAt_append_left (h : front.Sound) {number : Nat} (inside : number < front.lines.size) :
    (append bytes front back).shrinkAt number = append bytes (front.shrinkAt number) back := by
  have here := Array.getElem?_eq_getElem inside
  have there := (getElem?_append_left bytes front back inside).trans here
  rw [shrinkAt_of_some here, shrinkAt_of_some there, neededWidth_append_left bytes h here]
  split
  · refine congrArg Layout.mk (Array.ext_getElem? fun other => ?_)
    dsimp only [append]
    simp only [Array.getElem?_append, Array.getElem?_modify, Array.size_modify]
    grind
  · rfl

theorem shrinkAt_append_right (h : back.Sound) (number : Nat) :
    (append bytes front back).shrinkAt (front.lines.size + number) =
      append bytes front (back.shrinkAt number) := by
  have there := getElem?_append_right bytes front back number
  cases here : back.lines[number]? with
  | none =>
      rw [here, Option.map_none] at there
      rw [shrinkAt_of_none here, shrinkAt_of_none there]
  | some line =>
      rw [here, Option.map_some] at there
      rw [shrinkAt_of_some here, shrinkAt_of_some there, neededWidth_append_right bytes h here]
      have branch : (line.shift bytes front.lines.size).isBranch = line.isBranch := rfl
      have width : (line.shift bytes front.lines.size).width = line.width := rfl
      rw [branch, width]
      split
      · refine congrArg Layout.mk (Array.ext_getElem? fun other => ?_)
        dsimp only [append]
        simp only [Array.getElem?_append, Array.getElem?_modify, Array.getElem?_map]
        grind [Line.shift]
      · rfl

theorem foldl_shrinkAt_append_left (h : front.Sound) (numbers : List Nat)
    (inside : ∀ number ∈ numbers, number < front.lines.size) :
    numbers.foldl shrinkAt (append bytes front back) =
      append bytes (numbers.foldl shrinkAt front) back := by
  induction numbers generalizing front with
  | nil => rfl
  | cons number rest ih =>
      obtain ⟨first, others⟩ := List.forall_mem_cons.mp inside
      rw [List.foldl_cons, List.foldl_cons, shrinkAt_append_left bytes h first]
      refine ih (shrinkAt_refines h number).sound fun other member => ?_
      rw [size_shrinkAt]
      exact others other member

theorem foldl_shrinkAt_append_right (h : back.Sound) (numbers : List Nat) :
    (numbers.map (front.lines.size + ·)).foldl shrinkAt (append bytes front back) =
      append bytes front (numbers.foldl shrinkAt back) := by
  induction numbers generalizing back with
  | nil => rfl
  | cons number rest ih =>
      rw [List.map_cons, List.foldl_cons, List.foldl_cons, shrinkAt_append_right bytes h]
      exact ih (shrinkAt_refines h number).sound

theorem pass_append (h : front.Sound) (h' : back.Sound) :
    (append bytes front back).pass = append bytes front.pass back.pass := by
  have size : front.pass.lines.size = front.lines.size := (pass_refines h).narrows.size_eq
  rw [pass_eq, size_append, List.range_add, List.foldl_append,
    foldl_shrinkAt_append_left bytes h _ fun _ member => List.mem_range.mp member, ← pass_eq,
    ← size, foldl_shrinkAt_append_right bytes h', ← pass_eq]

theorem tight_append_iff (h : front.Sound) (h' : back.Sound) :
    (append bytes front back).Tight ↔ front.Tight ∧ back.Tight := by
  constructor
  · intro tight
    constructor
    · intro number line here branch
      have inside := (Array.getElem?_eq_some_iff.mp here).1
      rw [← neededWidth_append_left bytes h here]
      exact tight number line ((getElem?_append_left bytes front back inside).trans here) branch
    · intro number line here branch
      rw [← neededWidth_append_right bytes h' here]
      refine tight _ (line.shift bytes front.lines.size) ?_ branch
      rw [getElem?_append_right, here, Option.map_some]
  · rintro ⟨first, second⟩ number line here branch
    by_cases inside : number < front.lines.size
    · rw [getElem?_append_left bytes front back inside] at here
      rw [neededWidth_append_left bytes h here]
      exact first number line here branch
    · obtain ⟨number, rfl⟩ := Nat.exists_eq_add_of_le (Nat.le_of_not_lt inside)
      rw [getElem?_append_right] at here
      obtain ⟨own, there, rfl⟩ := Option.map_eq_some_iff.mp here
      rw [neededWidth_append_right bytes h' there]
      exact second number own there branch

/-- Two layouts in a row settle as each of them does, in the passes of the slower one. -/
theorem settle_append (h : front.Sound) (h' : back.Sound) :
    (append bytes front back).settle =
      (append bytes front.settle.1 back.settle.1, Nat.max front.settle.2 back.settle.2) := by
  refine settle_induction (motive := fun layout => ∀ front back : Layout, front.Sound →
    back.Sound → layout = append bytes front back → layout.settle =
      (append bytes front.settle.1 back.settle.1, Nat.max front.settle.2 back.settle.2))
    ?_ ?_ _ (h.append bytes h') front back h h' rfl
  · rintro layout sound tight front back h h' rfl
    obtain ⟨first, second⟩ := (tight_append_iff bytes h h').mp tight
    rw [settle_of_tight sound tight, settle_of_tight h first, settle_of_tight h' second]
    rfl
  · rintro layout sound loose ih front back h h' rfl
    have next := ih front.pass back.pass (pass_refines h).sound (pass_refines h').sound
      (pass_append bytes h h')
    have some := settle_passes_pos front.pass
    have some' := settle_passes_pos back.pass
    rw [settle_of_not_tight sound loose, next]
    -- A layout that is tight already waits for the other one.
    by_cases first : front.Tight
    · have same := (pass_eq_self_iff h).mpr first
      have second : ¬ back.Tight := fun second =>
        loose ((tight_append_iff bytes h h').mpr ⟨first, second⟩)
      rw [same, settle_of_tight h first, settle_of_not_tight h' second]
      simp only [Nat.max_def, Prod.mk.injEq, true_and]
      split <;> split <;> omega
    · by_cases second : back.Tight
      · have same := (pass_eq_self_iff h').mpr second
        rw [same, settle_of_tight h' second, settle_of_not_tight h first]
        simp only [Nat.max_def, Prod.mk.injEq, true_and]
        split <;> split <;> omega
      · rw [settle_of_not_tight h first, settle_of_not_tight h' second]
        simp only [Nat.max_def, Prod.mk.injEq, true_and]
        split <;> split <;> omega

/-! ## Instructions -/

theorem newDistance_eq {layout : Layout} {number target : Nat} (inside : number ≤ layout.lines.size)
    (inside' : target ≤ layout.lines.size) :
    layout.newDistance number (some target) = Int32.ofInt (layout.span number target) := by
  rw [newDistance, distance_starts inside inside']

theorem instructionAt_append_left (h : front.Sound) {number : Nat} {line : Line}
    (here : front.lines[number]? = some line) :
    (append bytes front back).instructionAt number line = front.instructionAt number line := by
  have inside := Nat.le_of_lt (Array.getElem?_eq_some_iff.mp here).1
  have size := size_append bytes front back
  have distances : line.targets.map ((append bytes front back).newDistance number) =
      line.targets.map (front.newDistance number) := by
    refine List.map_congr_left fun target member => ?_
    cases target with
    | none => rfl
    | some target =>
        have leads := (h here member).1
        rw [newDistance_eq inside leads, newDistance_eq (by omega) (by omega),
          span_append_left bytes front back inside leads]
  rw [instructionAt, instructionAt, distances, getD_starts inside, getD_starts (by omega),
    position_append_left bytes front back inside]

theorem instructionAt_append_right (h : back.Sound) {number : Nat} {line : Line}
    (here : back.lines[number]? = some line) :
    (append bytes front back).instructionAt (front.lines.size + number)
        (line.shift bytes front.lines.size) =
      (back.instructionAt number line).shift (front.position front.lines.size) := by
  have inside := Nat.le_of_lt (Array.getElem?_eq_some_iff.mp here).1
  have size := size_append bytes front back
  have distances : (line.shift bytes front.lines.size).targets.map
      ((append bytes front back).newDistance (front.lines.size + number)) =
        line.targets.map (back.newDistance number) := by
    rw [Line.shift, List.map_map]
    refine List.map_congr_left fun target member => ?_
    cases target with
    | none => rfl
    | some target =>
        have leads := (h here member).1
        rw [newDistance_eq inside leads, Function.comp_apply, Option.map_some,
          newDistance_eq (by omega) (by omega), span_append_right]
  rw [instructionAt, instructionAt, distances, getD_starts inside, getD_starts (by omega),
    position_append_right]
  rfl

theorem instructions_append (h : front.Sound) (h' : back.Sound) :
    (append bytes front back).instructions = front.instructions ++
      back.instructions.map (Instruction.shift (front.position front.lines.size)) := by
  refine List.ext_getElem? fun number => ?_
  by_cases first : number < front.lines.size
  · have here := Array.getElem?_eq_getElem first
    rw [List.getElem?_append_left (by rwa [length_instructions]), getElem?_instructions,
      getElem?_instructions, getElem?_append_left bytes front back first, here, Option.map_some,
      Option.map_some, instructionAt_append_left bytes h here]
  · obtain ⟨number, rfl⟩ := Nat.exists_eq_add_of_le (Nat.le_of_not_lt first)
    have behind : front.instructions.length ≤ front.lines.size + number := by
      rw [length_instructions]
      omega
    rw [List.getElem?_append_right behind, length_instructions, Nat.add_sub_cancel_left,
      List.getElem?_map, getElem?_instructions, getElem?_instructions, getElem?_append_right,
      Option.map_map, Option.map_map]
    cases here : back.lines[number]? with
    | none => rfl
    | some line =>
        rw [Option.map_some, Option.map_some, Function.comp_apply, Function.comp_apply,
          instructionAt_append_right bytes h' here]

end

end Layout

namespace Code

/-! ## Streams -/

section

variable {front back : List Instruction} {instruction : Instruction} {distance : Int32} {line : Nat}

theorem LeadsTo.append_left (h : LeadsTo front instruction distance line)
    (back : List Instruction) : LeadsTo (front ++ back) instruction distance line := by
  obtain ⟨inside, leads⟩ := h
  refine ⟨by rw [List.length_append]; omega, ?_⟩
  rw [boundary_append_left back inside]
  exact leads

theorem LeadsTo.append_right (h : LeadsTo back instruction distance line)
    (front : List Instruction) :
    LeadsTo (front ++ back.map (Instruction.shift (boundary front front.length)))
      (instruction.shift (boundary front front.length)) distance (front.length + line) := by
  obtain ⟨inside, leads⟩ := h
  refine ⟨by rw [List.length_append, List.length_map]; omega, ?_⟩
  rw [boundary_joined, Instruction.offset_shift]
  omega

end

def shiftEntries (bytes : Nat) (entryPoints : List UInt32) : List UInt32 :=
  entryPoints.map fun entry => UInt32.ofNat (bytes + entry.toNat)

end Code

namespace Layout

open Code

theorem Resolves.append {code code' : Bytes} {entryPoints entryPoints' : List UInt32}
    {instructions instructions' : List Instruction} {layout layout' : Layout}
    {lines lines' : List Nat} (h : Resolves code entryPoints instructions layout lines)
    (h' : Resolves code' entryPoints' instructions' layout' lines')
    (small : code.length + code'.length < 0x100000000) :
    Resolves (code ++ code') (entryPoints ++ shiftEntries code.length entryPoints')
      (instructions ++ instructions'.map (Instruction.shift code.length))
      (append code.length layout layout') (lines ++ lines'.map (layout.lines.size + ·)) := by
  have bytes := length_eq_boundary h.decoded
  have size := h.length_eq
  refine ⟨decode_append h.decoded h'.decoded, ?_, ?_⟩
  · rw [Layout.append, Array.toList_append, Array.toList_map]
    refine List.rel_append (h.resolved.imp ?_) (List.forall₂_map_left_iff.mpr
      (List.forall₂_map_right_iff.mpr (h'.resolved.imp ?_)))
    · intro instruction line made
      refine ⟨made.instruction_eq, made.width_eq, made.targets.imp ?_⟩
      rintro _ _ (leads | _)
      · exact .some (leads.append_left _)
      · exact .none
    · intro instruction line made
      refine ⟨congrArg (Instruction.shift code.length) made.instruction_eq, made.width_eq, ?_⟩
      refine List.forall₂_map_right_iff.mpr (made.targets.imp ?_)
      rintro _ _ (leads | _)
      · rw [bytes, size]
        exact .some (leads.append_right _)
      · exact .none
  · refine List.rel_append (h.entries.imp ?_) (List.forall₂_map_left_iff.mpr
      (List.forall₂_map_right_iff.mpr (h'.entries.imp ?_)))
    · rintro entry line ⟨inside, start⟩
      refine ⟨by rw [List.length_append]; omega, ?_⟩
      rw [boundary_append_left _ inside, start]
    · rintro entry line ⟨inside, start⟩
      refine ⟨by rw [List.length_append, List.length_map]; omega, ?_⟩
      have within := boundary_le_boundary inside (Nat.le_refl _)
      rw [← length_eq_boundary h'.decoded] at within
      rw [size, boundary_joined, ← bytes, ← start]
      exact UInt32.toNat_ofNat_of_lt' (show _ < 0x100000000 by omega)

theorem shrunk_append {code code' : Bytes} {entryPoints entryPoints' : List UInt32}
    {instructions instructions' : List Instruction} {layout layout' : Layout}
    {lines lines' : List Nat} (h : Resolves code entryPoints instructions layout lines)
    (h' : Resolves code' entryPoints' instructions' layout' lines') :
    let front := layout.shrunk code.length lines
    let back := layout'.shrunk code'.length lines'
    (Layout.append code.length layout layout').shrunk (code ++ code').length
        (lines ++ lines'.map (layout.lines.size + ·)) = {
      code := front.code ++ back.code
      entryPoints := front.entryPoints ++ shiftEntries front.code.length back.entryPoints
      passes := Nat.max front.passes back.passes
      bytesSaved := front.bytesSaved + back.bytesSaved } := by
  intro front back
  have settled := settle_append code.length h.sound h'.sound
  have first := settle_refines h.sound
  have second := settle_refines h'.sound
  have size : layout.settle.1.lines.size = instructions.length :=
    first.narrows.size_eq.trans h.length_eq
  have size' : layout'.settle.1.lines.size = instructions'.length :=
    second.narrows.size_eq.trans h'.length_eq
  have whole := size_append code.length layout.settle.1 layout'.settle.1
  have bytes : front.code.length = layout.settle.1.position layout.settle.1.lines.size := by
    rw [size, h.length_shrunk]
  have written : encode (Layout.append code.length layout layout').settle.1.instructions =
      front.code ++ back.code := by
    rw [settled, instructions_append code.length first.sound second.sound, encode,
      List.flatMap_append, List.flatMap_map]
    rfl
  have less := h.length_shrunk_le code.length
  have less' := h'.length_shrunk_le code'.length
  rw [shrunk, written]
  refine Shrunk.mk.injEq .. |>.mpr ⟨rfl, ?_, by rw [settled]; rfl, ?_⟩
  · rw [List.map_append, List.map_map, shiftEntries, settled]
    refine congrArg₂ _ (List.map_congr_left fun line member => ?_) ?_
    · obtain ⟨entry, -, inside, -⟩ := exists_of_mem_right h.entries member
      dsimp only
      rw [getD_starts (by omega), getD_starts (by omega), position_append_left _ _ _ (by omega)]
    · dsimp only [back, shrunk]
      rw [List.map_map]
      refine List.map_congr_left fun line member => ?_
      obtain ⟨entry, -, inside, start⟩ := exists_of_mem_right h'.entries member
      have nearer := h'.position_settle_le inside
      have small := entry.toNat_lt
      have length := h.length_eq
      have word : (UInt32.ofNat (layout'.settle.1.position line)).toNat =
          layout'.settle.1.position line :=
        UInt32.toNat_ofNat_of_lt' (show _ < 0x100000000 by omega)
      rw [Function.comp_apply, Function.comp_apply, getD_starts (by omega), getD_starts (by omega),
        word, bytes, ← position_append_right code.length, size, h.length_eq]
  · dsimp only [front, back, shrunk] at less less' ⊢
    rw [List.length_append, List.length_append]
    omega

end Layout

/-- Streams in a row shrink as each of them does alone. -/
theorem Code.shrink_append {code code' : Bytes} {entryPoints entryPoints' : List UInt32}
    {front back : Shrunk} (h : shrink code entryPoints = .ok front)
    (h' : shrink code' entryPoints' = .ok back)
    (small : code.length + code'.length < 0x100000000) :
    shrink (code ++ code') (entryPoints ++ shiftEntries code.length entryPoints') = .ok {
      code := front.code ++ back.code
      entryPoints := front.entryPoints ++ shiftEntries front.code.length back.entryPoints
      passes := Nat.max front.passes back.passes
      bytesSaved := front.bytesSaved + back.bytesSaved } := by
  obtain ⟨instructions, layout, lines, resolves, rfl⟩ := shrink_eq_ok_iff.mp h
  obtain ⟨instructions', layout', lines', resolves', rfl⟩ := shrink_eq_ok_iff.mp h'
  exact shrink_eq_ok_iff.mpr ⟨_, _, _, resolves.append resolves' small,
    (Layout.shrunk_append resolves resolves').symm⟩

end ObjectMachine
