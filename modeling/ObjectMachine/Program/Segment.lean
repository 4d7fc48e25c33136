import ObjectMachine.Code.Instruction

/-!
# Code segments

The code of a program with a view of every position, so that fetching an instruction does not
have to walk to it.
-/

namespace ObjectMachine

/-- The bytes from each position on, behind those already found. -/
def suffixesOnto (found : Array Bytes) : Bytes → Array Bytes
  | [] => found.push []
  | byte :: rest => suffixesOnto (found.push (byte :: rest)) rest

structure Segment where
  bytes : Bytes
  suffixes : Array Bytes
  suffixes_eq : suffixes = suffixesOnto #[] bytes

namespace Segment

def ofBytes (bytes : Bytes) : Segment :=
  ⟨bytes, suffixesOnto #[] bytes, rfl⟩

def cursor (segment : Segment) (position : Nat) : Cursor :=
  match segment.suffixes[position]? with
  | some rest => ⟨position, rest, false⟩
  | none => ⟨position, [], true⟩

/-- The instruction at a position. -/
def fetch (segment : Segment) (position : Nat) : Except DecodeError Instruction :=
  Read.instruction.run (segment.cursor position)

theorem getElem?_suffixesOnto (found : Array Bytes) (bytes : Bytes) (position : Nat) :
    (suffixesOnto found bytes)[position]? =
      if position < found.size then found[position]?
      else if position ≤ found.size + bytes.length then some (bytes.drop (position - found.size))
      else none := by
  induction bytes generalizing found with
  | nil =>
    simp only [suffixesOnto, Array.getElem?_push, List.length_nil, Nat.add_zero, List.drop_nil]
    split
    · next h => simp [h]
    · split
      · rfl
      · rw [if_neg (by omega)]
        exact Array.getElem?_eq_none (by omega)
  | cons byte rest ih =>
    simp only [suffixesOnto, ih, Array.size_push, List.length_cons]
    by_cases before : position < found.size
    · rw [if_pos (by omega), if_pos before, Array.getElem?_push, if_neg (by omega)]
    · rw [if_neg before]
      by_cases here : position = found.size
      · subst here
        rw [if_pos (by omega), if_pos (by omega)]
        simp
      · rw [if_neg (by omega)]
        split
        · rw [if_pos (by omega)]
          obtain ⟨distance, h⟩ : ∃ d, position - found.size = d + 1 :=
            ⟨position - found.size - 1, by omega⟩
          rw [h, List.drop_succ_cons, show position - (found.size + 1) = distance by omega]
        · rw [if_neg (by omega)]

theorem cursor_eq_seek (segment : Segment) (position : Nat) :
    segment.cursor position = Cursor.seek segment.bytes position := by
  have suffixes : segment.suffixes[position]? =
      if position ≤ segment.bytes.length then some (segment.bytes.drop position) else none := by
    rw [segment.suffixes_eq, getElem?_suffixesOnto]
    simp
  simp only [cursor, suffixes, Cursor.seek]
  by_cases inside : position ≤ segment.bytes.length
  · simp only [inside, if_true]
    cases segment.bytes.drop position <;> simp [inside]
  · simp only [inside, if_false, List.drop_eq_nil_of_le (Nat.le_of_not_le inside)]
    simp only [Cursor.mk.injEq, true_and]
    exact (decide_eq_true (Nat.lt_of_not_le inside)).symm

theorem fetch_eq_decodeAt (segment : Segment) (position : Nat) :
    segment.fetch position = Instruction.decodeAt segment.bytes position := by
  rw [fetch, cursor_eq_seek, Instruction.decodeAt]

end Segment

end ObjectMachine
