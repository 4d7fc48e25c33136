import ObjectMachine.Proofs.Code.Shrink

/-!
# Closed streams

A stream is closed if each of its branches leads to one of its instructions. Closed streams stay
closed when they are joined, and a closed stream can be shrunk.
-/

namespace ObjectMachine

namespace Code

def Starts (instructions : List Instruction) (address : Nat) : Prop :=
  ∃ line < instructions.length, address = boundary instructions line

/-- Whether two addresses are those of one line in two streams. -/
def SameLine (before after : List Instruction) (address address' : Nat) : Prop :=
  ∃ line < before.length, address = boundary before line ∧ address' = boundary after line

/-- Whether all branches of a stream lead to its instructions. -/
def Closed (instructions : List Instruction) : Prop :=
  ∀ instruction ∈ instructions, ∀ distance,
    some distance ∈ instruction.operand.encodedDistances →
      ∃ line < instructions.length, LeadsTo instructions instruction distance line

structure Encodes (code : Bytes) (instructions : List Instruction) : Prop where
  decoded : decode code = .ok instructions
  closed : Closed instructions

theorem Starts.sameLine {instructions : List Instruction} {address : Nat}
    (h : Starts instructions address) : SameLine instructions instructions address address := by
  obtain ⟨line, inside, rfl⟩ := h
  exact ⟨line, inside, rfl, rfl⟩

theorem SameLine.starts {before after : List Instruction} {address address' : Nat}
    (h : SameLine before after address address') : Starts before address := by
  obtain ⟨line, inside, here, -⟩ := h
  exact ⟨line, inside, here⟩

/-- A line has one address in a stream. -/
theorem SameLine.unique {before after : List Instruction} {address address' address'' : Nat}
    (h : SameLine before after address address') (h' : SameLine before after address address'') :
    address' = address'' := by
  obtain ⟨line, inside, here, rfl⟩ := h
  obtain ⟨other, inside', there, rfl⟩ := h'
  rw [boundary_inj (Nat.le_of_lt inside) (Nat.le_of_lt inside') (here.symm.trans there)]

theorem SameLine.starts_right {before after : List Instruction} {address address' : Nat}
    (h : SameLine before after address address') (length : before.length = after.length) :
    Starts after address' := by
  obtain ⟨line, inside, -, there⟩ := h
  exact ⟨line, length ▸ inside, there⟩

/-- An entry point at which an instruction starts is moved to where that instruction starts. -/
theorem Moved.sameLine {before after : List Instruction} {entry moved : UInt32}
    (h : Moved before after entry moved) (starts : Starts before entry.toNat) :
    SameLine before after entry.toNat moved.toNat := by
  obtain ⟨line, inside, here, there⟩ := h
  obtain ⟨own, within, start⟩ := starts
  obtain rfl := boundary_inj inside (Nat.le_of_lt within) (here.symm.trans start)
  exact ⟨line, within, here, there⟩

/-- Addresses are in the order of their lines, in either stream. -/
theorem SameLine.lt_iff {before after : List Instruction} (length : after.length = before.length)
    {a a' b b' : Nat} (h : SameLine before after a a') (h' : SameLine before after b b') :
    a < b ↔ a' < b' := by
  obtain ⟨line, inside, rfl, rfl⟩ := h
  obtain ⟨other, inside', rfl, rfl⟩ := h'
  rw [boundary_lt_iff (Nat.le_of_lt inside) (Nat.le_of_lt inside'),
    boundary_lt_iff (by omega) (by omega)]

/-! ## Joining -/

section

variable {front back : List Instruction}

theorem Starts.append_left {address : Nat} (h : Starts front address) (back : List Instruction) :
    Starts (front ++ back) address := by
  obtain ⟨line, inside, rfl⟩ := h
  refine ⟨line, ?_, (boundary_append_left back (Nat.le_of_lt inside)).symm⟩
  rw [List.length_append]
  omega

theorem boundary_joined (front back : List Instruction) (bytes line : Nat) :
    boundary (front ++ back.map (Instruction.shift bytes)) (front.length + line) =
      boundary front front.length + boundary back line := by
  rw [boundary_append_right, boundary_shift]

theorem Starts.append_right {address : Nat} (h : Starts back address) (front : List Instruction)
    (bytes : Nat) :
    Starts (front ++ back.map (Instruction.shift bytes))
      (boundary front front.length + address) := by
  obtain ⟨line, inside, rfl⟩ := h
  refine ⟨front.length + line, ?_, (boundary_joined front back bytes line).symm⟩
  rw [List.length_append, List.length_map]
  omega

theorem Closed.append (h : Closed front) (h' : Closed back) :
    Closed (front ++ back.map (Instruction.shift (boundary front front.length))) := by
  intro instruction member distance encoded
  have length : (front ++ back.map (Instruction.shift (boundary front front.length))).length =
      front.length + back.length := by
    rw [List.length_append, List.length_map]
  rw [length]
  rcases List.mem_append.mp member with here | there
  · obtain ⟨line, inside, -, leads⟩ := h instruction here distance encoded
    refine ⟨line, by omega, by omega, ?_⟩
    rw [boundary_append_left _ (Nat.le_of_lt inside)]
    exact leads
  · obtain ⟨own, listed, rfl⟩ := List.mem_map.mp there
    obtain ⟨line, inside, -, leads⟩ := h' own listed distance encoded
    refine ⟨front.length + line, by omega, by omega, ?_⟩
    rw [boundary_joined, Instruction.offset_shift]
    omega

end

namespace Encodes

theorem nil : Encodes [] [] :=
  ⟨decode_eq_ok_iff.mpr ⟨trivial, rfl⟩, fun _ member => nomatch member⟩

theorem append {front back : Bytes} {instructions others : List Instruction}
    (h : Encodes front instructions) (h' : Encodes back others) :
    Encodes (front ++ back) (instructions ++ others.map (Instruction.shift front.length)) := by
  refine ⟨decode_append h.decoded h'.decoded, ?_⟩
  rw [length_eq_boundary h.decoded]
  exact h.closed.append h'.closed

end Encodes

/-! ## Shrinking -/

/-- A closed stream can be shrunk if its entry points are lines. -/
theorem Encodes.exists_shrink {code : Bytes} {instructions : List Instruction}
    (h : Encodes code instructions) {entryPoints : List UInt32}
    (starts : ∀ entry ∈ entryPoints, Starts instructions entry.toNat) :
    ∃ shrunk, shrink code entryPoints = .ok shrunk := by
  have entered : ∃ lines, entryPoints.mapM
      (Layout.entryLine (Layout.lineIndex instructions)) = .ok lines := by
    refine Except.exists_mapM fun entry member => ?_
    obtain ⟨line, inside, here⟩ := starts entry member
    exact ⟨line, Layout.entryLine_eq_ok_iff.mpr ⟨Nat.le_of_lt inside, here⟩⟩
  have leads (instruction : Instruction) (member : instruction ∈ instructions) :
      ∃ targets, instruction.operand.encodedDistances.mapM
        (Layout.targetLine (Layout.lineIndex instructions) instruction) = .ok targets := by
    refine Except.exists_mapM fun distance encoded => ?_
    cases distance with
    | none => exact ⟨none, rfl⟩
    | some distance =>
        obtain ⟨line, -, leads⟩ := h.closed instruction member distance encoded
        refine ⟨some line, ?_⟩
        dsimp only [Layout.targetLine]
        rw [Layout.lineAt_eq_some_iff.mpr leads]
  have made : ∃ lines, instructions.mapM (Layout.toLine (Layout.lineIndex instructions)) =
      .ok lines := by
    refine Except.exists_mapM fun instruction member => ?_
    obtain ⟨targets, found⟩ := leads instruction member
    exact ⟨_, by rw [Layout.toLine, found]; rfl⟩
  obtain ⟨entryLines, entered⟩ := entered
  obtain ⟨lines, made⟩ := made
  exact ⟨_, Except.bind_eq_ok_iff.mpr ⟨instructions, Except.mapError_eq_ok_iff.mpr h.decoded,
    Except.bind_eq_ok_iff.mpr ⟨entryLines, entered,
      Except.bind_eq_ok_iff.mpr ⟨lines, made, rfl⟩⟩⟩⟩

end Code

end ObjectMachine
