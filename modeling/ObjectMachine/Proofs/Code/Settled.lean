import ObjectMachine.Proofs.Code.Closed

/-!
# Settled layouts

Passes over a layout end when none of its lines can be shrunk. Such a layout is tight: shrinking the
stream that it stands for changes nothing and takes one pass.
-/

namespace ObjectMachine

theorem Width.bytes_inj {width other : Width} (h : width.bytes = other.bytes) : width = other := by
  revert h
  cases width <;> cases other <;> decide

namespace Operand

theorem Matches.encodedDistances {tie : Int32 → Int32 → Prop} {operand operand' : Operand}
    (h : operand.Matches tie operand') :
    List.Forall₂ (Option.Rel tie) operand.encodedDistances operand'.encodedDistances := by
  cases operand with
  | offset distance =>
      cases operand' with
      | offset distance' => exact .cons (.some h) .nil
      | _ => cases h
  | table distances =>
      cases operand' with
      | table distances' =>
          refine List.forall₂_map_left_iff.mpr (List.forall₂_map_right_iff.mpr ?_)
          exact List.Forall₂.imp (fun _ _ => .some) h
      | _ => cases h
  | tryPair onCatch onFinally =>
      cases operand' with
      | tryPair onCatch' onFinally' =>
          obtain ⟨missing, caught, finished⟩ := h
          refine .cons ?_ (.cons (.some finished) .nil)
          by_cases none : onCatch = 0
          · rw [if_pos none, if_pos (missing.mp none)]
            exact .none
          · rw [if_neg none, if_neg fun none' => none (missing.mpr none')]
            exact .some (caught none)
      | _ => cases h
  | _ =>
      cases h
      exact .nil

theorem withDistances_withDistances (operand : Operand) (distances : List Int32) :
    (operand.withDistances distances).withDistances distances =
      operand.withDistances distances := by
  cases operand with
  | offset distance => rcases distances with _ | ⟨first, _ | ⟨second, rest⟩⟩ <;> rfl
  | tryPair onCatch onFinally =>
      rcases distances with _ | ⟨first, _ | ⟨second, _ | ⟨third, rest⟩⟩⟩ <;> rfl
  | _ => rfl

end Operand

/-- A distance leads to one line. -/
theorem Code.LeadsTo.unique {instructions : List Instruction} {instruction : Instruction}
    {distance : Int32} {line other : Nat} (h : LeadsTo instructions instruction distance line)
    (h' : LeadsTo instructions instruction distance other) : line = other := by
  have here := h.2
  have there := h'.2
  exact boundary_inj h.1 h'.1 (by omega)

theorem Line.Narrows.eq_of_width {line narrower : Line} (h : line.Narrows narrower)
    (same : narrower.width = line.width) : narrower = line := by
  obtain ⟨instruction, targets, -, -⟩ := h
  cases line
  cases narrower
  simp_all

namespace Layout

/-! ## The steps of a pass -/

def shrinkAt (layout : Layout) (number : Nat) : Layout :=
  match layout.lines[number]? with
  | none => layout
  | some line =>
    let needed := neededWidth layout.starts number line.targets
    if line.isBranch ∧ needed.bytes < line.width.bytes then
      ⟨layout.lines.modify number fun line => { line with width := needed }⟩
    else layout

theorem shrinkAt_of_none {layout : Layout} {number : Nat} (h : layout.lines[number]? = none) :
    layout.shrinkAt number = layout := by
  simp only [shrinkAt, h]

theorem shrinkAt_of_some {layout : Layout} {number : Nat} {line : Line}
    (h : layout.lines[number]? = some line) :
    layout.shrinkAt number =
      if line.isBranch ∧
          (neededWidth layout.starts number line.targets).bytes < line.width.bytes then
        ⟨layout.lines.modify number fun other =>
          { other with width := neededWidth layout.starts number line.targets }⟩
      else layout := by
  simp only [shrinkAt, h]

/-- The positions that a pass carries along are those of its layout. -/
theorem shrinkLine_eq (layout : Layout) (number : Nat) :
    shrinkLine (layout, layout.starts) number =
      (layout.shrinkAt number, (layout.shrinkAt number).starts) := by
  unfold shrinkLine
  dsimp only
  cases here : layout.lines[number]? with
  | none => rw [shrinkAt_of_none here]
  | some line =>
      rw [shrinkAt_of_some here]
      dsimp only
      split <;> rfl

theorem foldl_shrinkLine_eq (layout : Layout) (numbers : List Nat) :
    numbers.foldl shrinkLine (layout, layout.starts) =
      (numbers.foldl shrinkAt layout, (numbers.foldl shrinkAt layout).starts) := by
  induction numbers generalizing layout with
  | nil => rfl
  | cons number rest ih => rw [List.foldl_cons, List.foldl_cons, shrinkLine_eq, ih]

theorem pass_eq (layout : Layout) :
    layout.pass = (List.range layout.lines.size).foldl shrinkAt layout := by
  rw [pass, foldl_shrinkLine_eq]

theorem shrinkAt_refines {layout : Layout} (h : layout.Sound) (number : Nat) :
    layout.Refines (layout.shrinkAt number) := by
  obtain ⟨narrower, step, refines⟩ := shrinkLine_refines h number
  rw [shrinkLine_eq, Prod.mk.injEq] at step
  rw [step.1]
  exact refines

theorem foldl_shrinkAt_refines {layout : Layout} (h : layout.Sound) (numbers : List Nat) :
    layout.Refines (numbers.foldl shrinkAt layout) := by
  obtain ⟨narrower, steps, refines⟩ := foldl_shrinkLine_refines h numbers
  rw [foldl_shrinkLine_eq, Prod.mk.injEq] at steps
  rw [steps.1]
  exact refines

theorem size_shrinkAt (layout : Layout) (number : Nat) :
    (layout.shrinkAt number).lines.size = layout.lines.size := by
  unfold shrinkAt
  cases layout.lines[number]? with
  | none => rfl
  | some line =>
      dsimp only
      split
      · exact Array.size_modify
      · rfl

/-! ## Weights -/

theorem weight_eq (layout : Layout) :
    layout.weight = Code.total (layout.lines.toList.map (·.width.bytes)) := by
  have sum (lines : List Line) (start : Nat) :
      lines.foldl (fun total line => total + line.width.bytes) start =
        start + Code.total (lines.map (·.width.bytes)) := by
    induction lines generalizing start with
    | nil => rfl
    | cons line rest ih => rw [List.foldl_cons, ih, List.map_cons, Code.total, Nat.add_assoc]
  rw [weight, ← Array.foldl_toList, sum, Nat.zero_add]

/-- What falls with every line that gets narrower falls with a layout that does. -/
theorem Narrows.total_le {layout narrower : Layout} {measure : Line → Nat}
    (h : layout.Narrows narrower)
    (falls : ∀ {line line' : Line}, line.Narrows line' →
      measure line' ≤ measure line ∧ (measure line' = measure line → line' = line)) :
    Code.total (narrower.lines.toList.map measure) ≤ Code.total (layout.lines.toList.map measure) ∧
      (Code.total (narrower.lines.toList.map measure) =
        Code.total (layout.lines.toList.map measure) → narrower = layout) := by
  obtain ⟨⟨lines⟩⟩ := layout
  obtain ⟨⟨lines'⟩⟩ := narrower
  unfold Narrows at h
  have totals : Code.total (lines'.map measure) ≤ Code.total (lines.map measure) ∧
      (Code.total (lines'.map measure) = Code.total (lines.map measure) → lines' = lines) := by
    dsimp only at h
    induction h with
    | nil => exact ⟨Nat.le_refl _, fun _ => rfl⟩
    | cons here _ ih =>
        obtain ⟨less, same⟩ := ih
        obtain ⟨less', same'⟩ := falls here
        simp only [List.map_cons, Code.total]
        refine ⟨by omega, fun equal => ?_⟩
        rw [same' (by omega), same (by omega)]
  exact ⟨totals.1, fun equal => by rw [totals.2 equal]⟩

/-- A layout that has been narrowed weighs less, unless it is as it was. -/
theorem Narrows.weight_le {layout narrower : Layout} (h : layout.Narrows narrower) :
    narrower.weight ≤ layout.weight ∧ (narrower.weight = layout.weight → narrower = layout) := by
  rw [weight_eq, weight_eq]
  exact h.total_le fun narrows =>
    ⟨narrows.width_le, fun same => narrows.eq_of_width (Width.bytes_inj same)⟩

/-! ## Tight layouts -/

def Tight (layout : Layout) : Prop :=
  ∀ (number : Nat) (line : Line), layout.lines[number]? = some line → line.isBranch = true →
    line.width.bytes ≤ (neededWidth layout.starts number line.targets).bytes

theorem shrinkAt_eq_self_iff {layout : Layout} {number : Nat} :
    layout.shrinkAt number = layout ↔
      ∀ line : Line, layout.lines[number]? = some line → line.isBranch = true →
        line.width.bytes ≤ (neededWidth layout.starts number line.targets).bytes := by
  cases here : layout.lines[number]? with
  | none => simp [shrinkAt_of_none here]
  | some line =>
      rw [shrinkAt_of_some here]
      split
      · next shrinks =>
          constructor
          · intro same
            have there := congrArg (fun layout : Layout => layout.lines[number]?) same
            simp only [Array.getElem?_modify, if_true, here, Option.map_some] at there
            have narrow := congrArg Line.width (Option.some.inj there)
            dsimp only at narrow
            have less := shrinks.2
            rw [narrow] at less
            omega
          · intro wide
            have := wide line rfl shrinks.1
            omega
      · next keeps => simpa using keeps

theorem foldl_shrinkAt_eq_self_iff {layout : Layout} (h : layout.Sound) (numbers : List Nat) :
    numbers.foldl shrinkAt layout = layout ↔
      ∀ number ∈ numbers, layout.shrinkAt number = layout := by
  induction numbers with
  | nil => simp
  | cons number rest ih =>
      rw [List.foldl_cons, List.forall_mem_cons, ← ih]
      constructor
      · intro whole
        -- What has become narrower once does not become as wide as it was again.
        have step := shrinkAt_refines h number
        have less := step.narrows.weight_le
        have more := (foldl_shrinkAt_refines step.sound rest).narrows.weight_le
        rw [whole] at more
        have same := less.2 (by omega)
        rw [same] at whole
        exact ⟨same, whole⟩
      · rintro ⟨first, others⟩
        rw [first, others]

theorem pass_eq_self_iff {layout : Layout} (h : layout.Sound) :
    layout.pass = layout ↔ layout.Tight := by
  rw [pass_eq, foldl_shrinkAt_eq_self_iff h]
  constructor
  · intro all number line here
    have inside := (Array.getElem?_eq_some_iff.mp here).1
    exact shrinkAt_eq_self_iff.mp (all number (List.mem_range.mpr inside)) line here
  · intro tight number _
    exact shrinkAt_eq_self_iff.mpr (tight number)

theorem weight_pass_lt_iff {layout : Layout} (h : layout.Sound) :
    layout.pass.weight < layout.weight ↔ layout.pass ≠ layout := by
  have less := (pass_refines h).narrows.weight_le
  constructor
  · intro lighter same
    rw [same] at lighter
    exact Nat.lt_irrefl _ lighter
  · intro other
    exact Nat.lt_of_le_of_ne less.1 fun same => other (less.2 same)

theorem settle_of_tight {layout : Layout} (h : layout.Sound) (tight : layout.Tight) :
    layout.settle = (layout, 1) := by
  have same := (pass_eq_self_iff h).mpr tight
  rw [settle]
  dsimp only
  rw [if_neg fun less => (weight_pass_lt_iff h).mp less same]

theorem settle_of_not_tight {layout : Layout} (h : layout.Sound) (loose : ¬ layout.Tight) :
    layout.settle = (layout.pass.settle.1, layout.pass.settle.2 + 1) := by
  have other := (weight_pass_lt_iff h).mpr fun same => loose ((pass_eq_self_iff h).mp same)
  rw [settle]
  dsimp only
  rw [if_pos other]

/-- Passes go on for as long as they change something. -/
theorem settle_induction {motive : Layout → Prop}
    (tight : ∀ layout : Layout, layout.Sound → layout.Tight → motive layout)
    (loose : ∀ layout : Layout, layout.Sound → ¬ layout.Tight → motive layout.pass → motive layout)
    (layout : Layout) (h : layout.Sound) : motive layout := by
  induction layout using settle.induct with
  | case1 layout next _ _ _ _ ih =>
      by_cases settled : layout.Tight
      · exact tight layout h settled
      · exact loose layout h settled (ih (pass_refines h).sound)
  | case2 layout next heavy =>
      refine tight layout h ((pass_eq_self_iff h).mp ?_)
      by_contra other
      exact heavy ((weight_pass_lt_iff h).mpr other)

theorem tight_settle {layout : Layout} (h : layout.Sound) : layout.settle.1.Tight := by
  refine settle_induction (motive := fun layout => layout.settle.1.Tight)
    (fun layout h settled => ?_) (fun layout h loose ih => ?_) layout h
  · rw [settle_of_tight h settled]
    exact settled
  · rw [settle_of_not_tight h loose]
    exact ih

theorem settle_passes_pos (layout : Layout) : 0 < layout.settle.2 := by
  rw [settle]
  dsimp only
  split
  · exact Nat.succ_pos _
  · exact Nat.one_pos

/-! ## The layout of a stream -/

/-- What is left of a stream of some size when its layout is shrunk, with the positions of lines. -/
def shrunk (layout : Layout) (size : Nat) (lines : List Nat) : Shrunk where
  code := Code.encode layout.settle.1.instructions
  entryPoints := lines.map fun line => UInt32.ofNat (layout.settle.1.starts.getD line 0)
  passes := layout.settle.2
  bytesSaved := size - (Code.encode layout.settle.1.instructions).length

/-- Whether a line is what an instruction of a stream is made to. -/
structure Resolved (instructions : List Instruction) (instruction : Instruction) (line : Line) :
    Prop where
  instruction_eq : line.instruction = instruction
  width_eq : line.width = instruction.width
  targets : List.Forall₂ (Option.Rel (Code.LeadsTo instructions instruction))
    instruction.operand.encodedDistances line.targets

/-- Whether a stream has a layout, in which its entry points are lines. -/
structure Resolves (code : Bytes) (entryPoints : List UInt32) (instructions : List Instruction)
    (layout : Layout) (lines : List Nat) : Prop where
  decoded : Code.decode code = .ok instructions
  resolved : List.Forall₂ (Resolved instructions) instructions layout.lines.toList
  entries : List.Forall₂
    (fun entry line => line ≤ instructions.length ∧ entry.toNat = Code.boundary instructions line)
    entryPoints lines

theorem targetLine_eq_ok_iff {instructions : List Instruction} {instruction : Instruction}
    {distance : Option Int32} {target : Option Nat} :
    targetLine (lineIndex instructions) instruction distance = .ok target ↔
      Option.Rel (Code.LeadsTo instructions instruction) distance target := by
  constructor
  · exact targetLine_eq_ok
  · intro leads
    cases leads with
    | none => rfl
    | some leads =>
        unfold targetLine
        dsimp only
        rw [lineAt_eq_some_iff.mpr leads]

theorem toLine_eq_ok_iff {instructions : List Instruction} {instruction : Instruction}
    {line : Line} :
    toLine (lineIndex instructions) instruction = .ok line ↔
      Resolved instructions instruction line := by
  constructor
  · intro made
    obtain ⟨stands, width⟩ := toLine_eq_ok made
    exact ⟨stands.instruction_eq, width, stands.targets⟩
  · rintro ⟨rfl, width, targets⟩
    have found : line.instruction.operand.encodedDistances.mapM
        (targetLine (lineIndex instructions) line.instruction) = .ok line.targets :=
      Except.mapM_eq_ok_iff.mpr (targets.imp fun _ _ => targetLine_eq_ok_iff.mpr)
    rw [toLine, found, ← width]
    rfl

end Layout

/-- Shrinking succeeds if the stream has a layout, and gives what is left of that. -/
theorem Code.shrink_eq_ok_iff {code : Bytes} {entryPoints : List UInt32} {shrunk : Shrunk} :
    shrink code entryPoints = .ok shrunk ↔
      ∃ instructions layout lines, Layout.Resolves code entryPoints instructions layout lines ∧
        shrunk = layout.shrunk code.length lines := by
  constructor
  · intro h
    obtain ⟨instructions, decoded, h⟩ := Except.bind_eq_ok_iff.mp h
    obtain ⟨lines, entered, h⟩ := Except.bind_eq_ok_iff.mp h
    obtain ⟨made, resolved, h⟩ := Except.bind_eq_ok_iff.mp h
    refine ⟨instructions, ⟨made.toArray⟩, lines, ⟨Except.mapError_eq_ok_iff.mp decoded, ?_, ?_⟩,
      (Except.ok.inj h).symm⟩
    · exact (Except.mapM_eq_ok_iff.mp resolved).imp fun _ _ => Layout.toLine_eq_ok_iff.mp
    · exact (Except.mapM_eq_ok_iff.mp entered).imp fun _ _ => Layout.entryLine_eq_ok_iff.mp
  · rintro ⟨instructions, ⟨⟨made⟩⟩, lines, ⟨decoded, resolved, entries⟩, rfl⟩
    have entered :
        entryPoints.mapM (Layout.entryLine (Layout.lineIndex instructions)) = .ok lines :=
      Except.mapM_eq_ok_iff.mpr (entries.imp fun _ _ => Layout.entryLine_eq_ok_iff.mpr)
    have found : instructions.mapM (Layout.toLine (Layout.lineIndex instructions)) = .ok made :=
      Except.mapM_eq_ok_iff.mpr (resolved.imp fun _ _ => Layout.toLine_eq_ok_iff.mpr)
    exact Except.bind_eq_ok_iff.mpr ⟨instructions, Except.mapError_eq_ok_iff.mpr decoded,
      Except.bind_eq_ok_iff.mpr ⟨lines, entered, Except.bind_eq_ok_iff.mpr ⟨made, found, rfl⟩⟩⟩

namespace Layout

open Code

namespace Resolves

variable {code : Bytes} {entryPoints : List UInt32} {instructions : List Instruction}
  {layout : Layout} {lines : List Nat}
  (h : Resolves code entryPoints instructions layout lines)

include h

theorem laid : Laid 0 instructions :=
  (decode_eq_ok_iff.mp h.decoded).1

theorem length_eq : layout.lines.size = instructions.length :=
  h.resolved.length_eq.symm

theorem sound_models : layout.Models instructions ∧ layout.Sound ∧
    ∀ line, layout.position line = boundary instructions line :=
  sound_of_toLine h.laid (h.resolved.imp fun _ _ => toLine_eq_ok_iff.mpr)

theorem sound : layout.Sound :=
  h.sound_models.2.1

theorem position_eq (line : Nat) : layout.position line = boundary instructions line :=
  h.sound_models.2.2 line

/-- The instructions that are left stand at the positions of the settled layout. -/
theorem counterparts : Laid 0 layout.settle.1.instructions ∧
    (∀ line, boundary layout.settle.1.instructions line = layout.settle.1.position line) ∧
    List.Forall₂ (Counterpart instructions layout.settle.1.instructions) instructions
      layout.settle.1.instructions := by
  have settled := settle_refines h.sound
  exact instructions_counterparts h.laid (h.sound_models.1.narrows settled.narrows) settled.sound

theorem decode_shrunk (size : Nat) :
    decode (layout.shrunk size lines).code = .ok layout.settle.1.instructions :=
  decode_encode h.counterparts.1

theorem position_settle_le {line : Nat} (inside : line ≤ instructions.length) :
    layout.settle.1.position line ≤ boundary instructions line := by
  have narrows := (settle_refines h.sound).narrows
  obtain ⟨-, less⟩ := narrows.position_le (Nat.zero_le line) (h.length_eq ▸ inside)
  have zero (other : Layout) : other.position 0 = 0 := by simp [position, total]
  rw [zero, zero, h.position_eq] at less
  exact less

theorem length_shrunk (size : Nat) : (layout.shrunk size lines).code.length =
    layout.settle.1.position instructions.length := by
  obtain ⟨laid, boundaries, counterparts⟩ := h.counterparts
  rw [shrunk, laid.length_encode, boundaries, ← counterparts.length_eq]

theorem length_shrunk_le (size : Nat) :
    (layout.shrunk size lines).code.length ≤ code.length := by
  rw [h.length_shrunk, length_eq_boundary h.decoded]
  exact h.position_settle_le (Nat.le_refl _)

end Resolves

/-! ## The layout that is left -/

def written (layout : Layout) : Layout where
  lines := layout.lines.mapIdx fun number line =>
    { line with instruction := layout.instructionAt number line }

theorem getElem?_written (layout : Layout) (number : Nat) :
    layout.written.lines[number]? = layout.lines[number]?.map fun line =>
      { line with instruction := layout.instructionAt number line } :=
  Array.getElem?_mapIdx

theorem size_written (layout : Layout) : layout.written.lines.size = layout.lines.size :=
  Array.size_mapIdx

theorem position_written (layout : Layout) (line : Nat) :
    layout.written.position line = boundary layout.instructions line := by
  have sizes : layout.written.lines.toList.map Line.size =
      layout.instructions.map Instruction.size := by
    refine List.ext_getElem? fun number => ?_
    rw [List.getElem?_map, List.getElem?_map, getElem?_instructions, Array.getElem?_toList,
      getElem?_written, Option.map_map, Option.map_map]
    rfl
  rw [position, boundary, List.map_take, List.map_take, sizes]

namespace Resolves

variable {code : Bytes} {entryPoints : List UInt32} {instructions : List Instruction}
  {layout : Layout} {lines : List Nat}
  (h : Resolves code entryPoints instructions layout lines)

include h

theorem starts_written : layout.settle.1.written.starts = layout.settle.1.starts := by
  rw [starts_eq, starts_eq, size_written]
  congr 2
  funext line
  rw [position_written, h.counterparts.2.1]

theorem tight_written : layout.settle.1.written.Tight := by
  intro number line' here branch
  rw [getElem?_written] at here
  obtain ⟨line, found, rfl⟩ := Option.map_eq_some_iff.mp here
  rw [h.starts_written]
  exact tight_settle h.sound number line found branch

theorem instructions_written :
    layout.settle.1.written.instructions = layout.settle.1.instructions := by
  refine List.ext_getElem? fun number => ?_
  rw [getElem?_instructions, getElem?_instructions, getElem?_written, Option.map_map]
  refine congrArg (Option.map · _) (funext fun line => ?_)
  have distances : layout.settle.1.written.newDistance number =
      layout.settle.1.newDistance number := by
    funext target
    cases target with
    | none => rfl
    | some target => rw [newDistance, newDistance, h.starts_written]
  simp only [Function.comp_apply, instructionAt, h.starts_written, distances,
    Operand.withDistances_withDistances]

theorem resolved_written :
    List.Forall₂ (Resolved layout.settle.1.instructions) layout.settle.1.instructions
      layout.settle.1.written.lines.toList := by
  have models := h.sound_models.1.narrows (settle_refines h.sound).narrows
  have counterparts := h.counterparts.2.2
  generalize layout.settle.1 = settled at models counterparts ⊢
  refine List.forall₂_iff_get.mpr ⟨?_, fun number inside inside' => ?_⟩
  · rw [length_instructions, Array.length_toList, size_written]
  · have within : number < settled.lines.size := by rwa [length_instructions] at inside
    have listed : number < instructions.length := counterparts.length_eq ▸ inside
    have counterpart := counterparts.get listed inside
    have stands := models.get listed (by rwa [Array.length_toList])
    have new := getElem?_instructions settled number
    have line := getElem?_written settled number
    rw [Array.getElem?_eq_getElem within, Option.map_some] at new line
    rw [← Array.getElem?_toList] at line
    obtain ⟨_, new⟩ := List.getElem?_eq_some_iff.mp new
    obtain ⟨_, line⟩ := List.getElem?_eq_some_iff.mp line
    rw [List.get_eq_getElem, List.get_eq_getElem, line]
    refine ⟨new.symm, by rw [new]; rfl, ?_⟩
    -- Either distance of an instruction leads to the line that its layout names.
    have pairs := forall₂_trans counterpart.operand.encodedDistances.flip stands.targets
    refine pairs.imp fun distance' target both => ?_
    obtain ⟨distance, moved, leads⟩ := both
    cases leads with
    | none =>
        cases moved
        exact .none
    | some leads =>
        obtain ⟨distance', rfl, other, leads', there⟩ := exists_of_rel_some moved
        rw [leads.unique leads']
        exact .some there

theorem entries_written (size : Nat) :
    List.Forall₂ (fun entry line => line ≤ layout.settle.1.instructions.length ∧
        entry.toNat = boundary layout.settle.1.instructions line)
      (layout.shrunk size lines).entryPoints lines := by
  obtain ⟨-, boundaries, counterparts⟩ := h.counterparts
  rw [shrunk, List.forall₂_map_left_iff, List.forall₂_same]
  intro line member
  obtain ⟨entry, -, inside, start⟩ := exists_of_mem_right h.entries member
  have small := entry.toNat_lt
  have nearer := h.position_settle_le inside
  have size : line ≤ layout.settle.1.lines.size := by
    rw [← length_instructions, ← counterparts.length_eq]
    exact inside
  refine ⟨counterparts.length_eq ▸ inside, ?_⟩
  rw [getD_starts size, boundaries]
  exact UInt32.toNat_ofNat_of_lt' (show _ < 0x100000000 by omega)

/-- What is left of a stream has the settled layout. -/
theorem written (size : Nat) :
    Resolves (layout.shrunk size lines).code (layout.shrunk size lines).entryPoints
      layout.settle.1.instructions layout.settle.1.written lines :=
  ⟨h.decode_shrunk size, h.resolved_written, h.entries_written size⟩

theorem shrunk_written (size : Nat) :
    layout.settle.1.written.shrunk (layout.shrunk size lines).code.length lines =
      { layout.shrunk size lines with passes := 1, bytesSaved := 0 } := by
  have settled := settle_of_tight (h.written size).sound h.tight_written
  have same := h.instructions_written
  unfold shrunk
  simp only [settled, same, h.starts_written, Nat.sub_self]

end Resolves

end Layout

namespace Code

/-- What is left of a stream are counterparts of its instructions, and its entry points have moved
along with their lines. -/
theorem exists_counterparts {code : Bytes} {entryPoints : List UInt32} {shrunk : Shrunk}
    (h : shrink code entryPoints = .ok shrunk) :
    ∃ before after, decode code = .ok before ∧ decode shrunk.code = .ok after ∧
      List.Forall₂ (Counterpart before after) before after ∧
      List.Forall₂ (Moved before after) entryPoints shrunk.entryPoints := by
  obtain ⟨before, layout, lines, resolves, rfl⟩ := shrink_eq_ok_iff.mp h
  refine ⟨before, _, resolves.decoded, resolves.decode_shrunk _, resolves.counterparts.2.2, ?_⟩
  refine (forall₂_trans resolves.entries (resolves.entries_written code.length).flip).imp ?_
  rintro entry moved ⟨line, ⟨inside, here⟩, -, there⟩
  exact ⟨line, inside, here, there⟩

theorem length_shrink_le {code : Bytes} {entryPoints : List UInt32} {shrunk : Shrunk}
    (h : shrink code entryPoints = .ok shrunk) : shrunk.code.length ≤ code.length := by
  obtain ⟨instructions, layout, lines, resolves, rfl⟩ := shrink_eq_ok_iff.mp h
  exact resolves.length_shrunk_le code.length

theorem Closed.of_counterparts {before after : List Instruction} (h : Closed before)
    (counterparts : List.Forall₂ (Counterpart before after) before after) : Closed after := by
  intro instruction' member distance' encoded
  obtain ⟨instruction, listed, counterpart⟩ := exists_of_mem_right counterparts member
  obtain ⟨_, own, related⟩ :=
    exists_of_mem_right counterpart.operand.encodedDistances encoded
  obtain ⟨distance, rfl, line, leads, leads'⟩ := exists_of_rel_to_some related
  obtain ⟨line', inside, leads''⟩ := h instruction listed distance own
  obtain rfl := leads.unique leads''
  exact ⟨line, counterparts.length_eq ▸ inside, leads'⟩

/-- Shrinking a stream that has been shrunk changes nothing. -/
theorem shrink_shrunk {code : Bytes} {entryPoints : List UInt32} {shrunk : Shrunk}
    (h : shrink code entryPoints = .ok shrunk) :
    shrink shrunk.code shrunk.entryPoints = .ok { shrunk with passes := 1, bytesSaved := 0 } := by
  obtain ⟨instructions, layout, lines, resolves, rfl⟩ := shrink_eq_ok_iff.mp h
  exact shrink_eq_ok_iff.mpr ⟨_, _, lines, resolves.written code.length,
    (resolves.shrunk_written code.length).symm⟩

/-- Other entry points into a stream change nothing but the places they are moved to. -/
theorem exists_shrink_entries {code : Bytes} {entryPoints others : List UInt32} {shrunk : Shrunk}
    {instructions : List Instruction} (h : shrink code entryPoints = .ok shrunk)
    (decoded : decode code = .ok instructions)
    (starts : ∀ entry ∈ others, ∃ line ≤ instructions.length,
      entry.toNat = boundary instructions line) :
    ∃ moved, shrink code others = .ok { shrunk with entryPoints := moved } := by
  obtain ⟨own, layout, lines, resolves, rfl⟩ := shrink_eq_ok_iff.mp h
  obtain rfl := Except.ok.inj (decoded.symm.trans resolves.decoded)
  have entries : ∃ lines', List.Forall₂ (fun entry line => line ≤ instructions.length ∧
      entry.toNat = boundary instructions line) others lines' := by
    clear h
    induction others with
    | nil => exact ⟨[], .nil⟩
    | cons entry rest ih =>
        obtain ⟨⟨line, here⟩, there⟩ := List.forall_mem_cons.mp starts
        obtain ⟨more, listed⟩ := ih there
        exact ⟨line :: more, .cons here listed⟩
  obtain ⟨lines', entries⟩ := entries
  exact ⟨_, shrink_eq_ok_iff.mpr ⟨instructions, layout, lines',
    ⟨decoded, resolves.resolved, entries⟩, rfl⟩⟩

end Code

end ObjectMachine
