import ObjectMachine.Program.Segment
import ObjectMachine.Proofs.Code.Encoding

/-!
# Streams of instructions

A byte string decodes to the instructions that stand in it one behind the other. The boundaries
of a stream are the positions between its instructions, both ends included; decoding at the
boundary of a line gives the instruction of that line, also in the middle of a longer stream.
-/

namespace ObjectMachine

namespace Instruction

def shift (bytes : Nat) (instruction : Instruction) : Instruction :=
  { instruction with offset := bytes + instruction.offset }

@[simp] theorem offset_shift (bytes : Nat) (instruction : Instruction) :
    (instruction.shift bytes).offset = bytes + instruction.offset := rfl

@[simp] theorem size_shift (bytes : Nat) (instruction : Instruction) :
    (instruction.shift bytes).size = instruction.size := rfl

@[simp] theorem encode_shift (bytes : Nat) (instruction : Instruction) :
    (instruction.shift bytes).encode = instruction.encode := rfl

theorem WellFormed.shift {instruction : Instruction} (h : instruction.WellFormed) (bytes : Nat) :
    (instruction.shift bytes).WellFormed :=
  ⟨h.width_mem, h.fits⟩

end Instruction

namespace Code

open Cursor

/-- Whether instructions stand one behind the other from a position on, each of them in a form
that can be read again. -/
def Laid : Nat → List Instruction → Prop
  | _, [] => True
  | position, instruction :: rest =>
    instruction.offset = position ∧ instruction.WellFormed ∧
      Laid (position + instruction.size) rest

def total : List Nat → Nat
  | [] => 0
  | size :: sizes => size + total sizes

theorem total_append (sizes others : List Nat) :
    total (sizes ++ others) = total sizes + total others := by
  induction sizes with
  | nil => simp [total]
  | cons size sizes ih => simp only [List.cons_append, total, ih, Nat.add_assoc]

/-- Where a line of a stream starts. The end of the stream counts as a line. -/
def boundary (instructions : List Instruction) (line : Nat) : Nat :=
  total ((instructions.take line).map Instruction.size)

/-! ## Boundaries -/

@[simp] theorem boundary_zero (instructions : List Instruction) : boundary instructions 0 = 0 := by
  simp [boundary, total]

@[simp] theorem boundary_cons_succ (instruction : Instruction) (rest : List Instruction)
    (line : Nat) :
    boundary (instruction :: rest) (line + 1) = instruction.size + boundary rest line := by
  simp [boundary, total]

theorem boundary_succ {instructions : List Instruction} {line : Nat} {instruction : Instruction}
    (h : instructions[line]? = some instruction) :
    boundary instructions (line + 1) = boundary instructions line + instruction.size := by
  simp only [boundary, List.take_add_one, h, Option.toList_some, List.map_append, total_append,
    List.map_singleton, total, Nat.add_zero]

theorem boundary_lt_boundary {instructions : List Instruction} {line later : Nat}
    (h : line < later) (inside : later ≤ instructions.length) :
    boundary instructions line < boundary instructions later := by
  induction later with
  | zero => omega
  | succ later ih =>
      have here : instructions[later]? = some instructions[later] :=
        List.getElem?_eq_getElem (by omega)
      have positive := instructions[later].size_pos
      rw [boundary_succ here]
      by_cases last : line = later
      · subst last
        omega
      · have := ih (by omega) (by omega)
        omega

theorem boundary_le_boundary {instructions : List Instruction} {line later : Nat}
    (h : line ≤ later) (inside : later ≤ instructions.length) :
    boundary instructions line ≤ boundary instructions later := by
  rcases Nat.eq_or_lt_of_le h with rfl | h
  · exact Nat.le_refl _
  · exact Nat.le_of_lt (boundary_lt_boundary h inside)

/-- Boundaries are in the order of their lines. -/
theorem boundary_lt_iff {instructions : List Instruction} {line other : Nat}
    (h : line ≤ instructions.length) (h' : other ≤ instructions.length) :
    boundary instructions line < boundary instructions other ↔ line < other := by
  constructor
  · intro less
    refine Nat.lt_of_not_le fun more => ?_
    have := boundary_le_boundary more h
    omega
  · intro less
    exact boundary_lt_boundary less h'

theorem boundary_inj {instructions : List Instruction} {line other : Nat}
    (h : line ≤ instructions.length) (h' : other ≤ instructions.length)
    (same : boundary instructions line = boundary instructions other) : line = other := by
  have less := boundary_lt_iff h h'
  have more := boundary_lt_iff h' h
  omega

theorem boundary_append_left {front : List Instruction} (back : List Instruction) {line : Nat}
    (h : line ≤ front.length) : boundary (front ++ back) line = boundary front line := by
  rw [boundary, List.take_append_of_le_length h, boundary]

theorem boundary_append_right (front back : List Instruction) (line : Nat) :
    boundary (front ++ back) (front.length + line) =
      boundary front front.length + boundary back line := by
  simp only [boundary, List.take_length, List.take_length_add_append, List.map_append,
    total_append]

theorem boundary_shift (bytes : Nat) (instructions : List Instruction) (line : Nat) :
    boundary (instructions.map (Instruction.shift bytes)) line = boundary instructions line := by
  have same : Instruction.size ∘ Instruction.shift bytes = Instruction.size := rfl
  simp only [boundary, List.map_take, List.map_map, same]

/-! ## Streams in a row -/

namespace Laid

theorem append_iff {position : Nat} {front back : List Instruction} :
    Laid position (front ++ back) ↔
      Laid position front ∧ Laid (position + boundary front front.length) back := by
  induction front generalizing position with
  | nil => simp [Laid]
  | cons instruction rest ih =>
      simp only [List.cons_append, Laid, ih, List.length_cons, boundary_cons_succ, Nat.add_assoc,
        and_assoc]

theorem offset {position line : Nat} {instructions : List Instruction} {instruction : Instruction}
    (h : Laid position instructions) (here : instructions[line]? = some instruction) :
    instruction.offset = position + boundary instructions line := by
  induction instructions generalizing position line with
  | nil => simp at here
  | cons first rest ih =>
      obtain ⟨start, -, others⟩ := h
      cases line with
      | zero =>
          obtain rfl : first = instruction := by simpa using here
          simpa using start
      | succ line =>
          rw [ih others (by simpa using here), boundary_cons_succ, Nat.add_assoc]

theorem wellFormed {position : Nat} {instructions : List Instruction}
    (h : Laid position instructions) : ∀ instruction ∈ instructions, instruction.WellFormed := by
  induction instructions generalizing position with
  | nil => simp
  | cons first rest ih =>
      obtain ⟨-, sound, others⟩ := h
      simpa [sound] using ih others

theorem of_getElem? {position : Nat} {instructions : List Instruction}
    (h : ∀ (line : Nat) (instruction : Instruction), instructions[line]? = some instruction →
      instruction.offset = position + boundary instructions line ∧ instruction.WellFormed) :
    Laid position instructions := by
  induction instructions generalizing position with
  | nil => trivial
  | cons first rest ih =>
      obtain ⟨start, sound⟩ := h 0 first rfl
      refine ⟨by simpa using start, sound, ih fun line instruction here => ?_⟩
      obtain ⟨start, sound⟩ := h (line + 1) instruction (by simpa using here)
      rw [boundary_cons_succ, ← Nat.add_assoc] at start
      exact ⟨start, sound⟩

theorem length_encode {position : Nat} {instructions : List Instruction}
    (h : Laid position instructions) :
    (encode instructions).length = boundary instructions instructions.length := by
  induction instructions generalizing position with
  | nil => rfl
  | cons first rest ih =>
      obtain ⟨-, sound, others⟩ := h
      have tail : (rest.flatMap Instruction.encode).length = boundary rest rest.length := ih others
      simp [encode, boundary_cons_succ, sound.length_encode, tail]

theorem take {position : Nat} {instructions : List Instruction}
    (h : Laid position instructions) (line : Nat) : Laid position (instructions.take line) := by
  rw [← List.take_append_drop line instructions, append_iff] at h
  exact h.1

theorem drop_encode {position : Nat} {instructions : List Instruction}
    (h : Laid position instructions) {line : Nat} (inside : line ≤ instructions.length) :
    (encode instructions).drop (boundary instructions line) = encode (instructions.drop line) := by
  have split : encode instructions =
      encode (instructions.take line) ++ encode (instructions.drop line) := by
    rw [encode, encode, encode, ← List.flatMap_append, List.take_append_drop]
  have front : (encode (instructions.take line)).length = boundary instructions line := by
    rw [(h.take line).length_encode, boundary, List.take_take]
    simp [boundary, inside]
  rw [split, ← front, List.drop_left]

theorem shift {position : Nat} {instructions : List Instruction}
    (h : Laid position instructions) (bytes : Nat) :
    Laid (bytes + position) (instructions.map (Instruction.shift bytes)) := by
  induction instructions generalizing position with
  | nil => trivial
  | cons first rest ih =>
      obtain ⟨start, sound, others⟩ := h
      refine ⟨by rw [Instruction.offset_shift, start], sound.shift bytes, ?_⟩
      simpa [Nat.add_assoc] using ih others

end Laid

/-! ## Decoding -/

/-- Reading to the end finds the instructions that are laid there, and only those. -/
theorem untilEndOnto_eq_ok {fuel position : Nat} {bytes : Bytes} (enough : bytes.length ≤ fuel)
    {found all : List Instruction} :
    (∃ last, Read.untilEndOnto Read.instruction fuel found (ahead position bytes) =
        .ok all last) ↔
      ∃ more, all = found.reverse ++ more ∧ Laid position more ∧ bytes = encode more := by
  induction fuel generalizing position bytes found with
  | zero =>
      obtain rfl : bytes = [] := List.length_eq_zero_iff.mp (by omega)
      constructor
      · rintro ⟨last, h⟩
        simp only [Read.untilEndOnto, EStateM.Result.ok.injEq] at h
        exact ⟨[], by simpa using h.1.symm, trivial, rfl⟩
      · rintro ⟨more, rfl, laid, written⟩
        cases more with
        | nil => exact ⟨_, by rw [List.append_nil]; rfl⟩
        | cons first rest => simp [encode, Instruction.encode] at written
  | succ fuel ih =>
      cases bytes with
      | nil =>
          simp only [Read.untilEndOnto, hasMore_ahead, List.isEmpty_nil, Bool.not_true,
            Bool.false_eq_true, if_false, EStateM.Result.ok.injEq]
          constructor
          · rintro ⟨last, rfl, -⟩
            exact ⟨[], by simp, trivial, rfl⟩
          · rintro ⟨more, rfl, laid, written⟩
            cases more with
            | nil => exact ⟨_, by rw [List.append_nil], rfl⟩
            | cons first rest => simp [encode, Instruction.encode] at written
      | cons byte bytes =>
          simp only [Read.untilEndOnto, hasMore_ahead, List.isEmpty_cons, Bool.not_false, if_true]
          constructor
          · rintro ⟨last, h⟩
            cases hi : Read.instruction (ahead position (byte :: bytes)) with
            | error fault next => simp [hi] at h
            | ok first next =>
                simp only [hi] at h
                obtain ⟨start, sound, tail, hb, rfl⟩ := Read.instruction_eq_ok hi
                have positive := first.encode_length_pos
                have shorter : tail.length ≤ fuel := by
                  have := congrArg List.length hb
                  simp only [List.length_append, List.length_cons] at this enough
                  omega
                obtain ⟨more, rfl, laid, rfl⟩ := (ih shorter).mp ⟨last, h⟩
                refine ⟨first :: more, by simp, ⟨start, sound, ?_⟩, hb⟩
                rwa [← sound.length_encode]
          · rintro ⟨more, rfl, laid, written⟩
            cases more with
            | nil => simp [encode] at written
            | cons first rest =>
                obtain ⟨start, sound, others⟩ := laid
                have positive := first.encode_length_pos
                have hb : byte :: bytes = first.encode ++ encode rest := written
                have shorter : (encode rest).length ≤ fuel := by
                  have := congrArg List.length hb
                  simp only [List.length_append, List.length_cons] at this enough
                  omega
                have read := Read.instruction_encode first (encode rest) sound
                rw [start, ← hb, sound.length_encode] at read
                rw [read]
                exact (ih shorter).mpr ⟨rest, by simp, others, rfl⟩

theorem decode_eq_ok_iff {code : Bytes} {instructions : List Instruction} :
    decode code = .ok instructions ↔ Laid 0 instructions ∧ code = encode instructions := by
  rw [decode, Read.run_eq_ok, start_eq_ahead]
  change (∃ last, Read.untilEndOnto Read.instruction code.length [] (ahead 0 code) = _) ↔ _
  rw [untilEndOnto_eq_ok (Nat.le_refl _)]
  simp

/-- What has been laid out is decoded. -/
theorem decode_encode {instructions : List Instruction} (h : Laid 0 instructions) :
    decode (encode instructions) = .ok instructions :=
  decode_eq_ok_iff.mpr ⟨h, rfl⟩

theorem length_eq_boundary {code : Bytes} {instructions : List Instruction}
    (h : decode code = .ok instructions) :
    code.length = boundary instructions instructions.length := by
  obtain ⟨laid, rfl⟩ := decode_eq_ok_iff.mp h
  exact laid.length_encode

/-- Streams that decode can be joined. -/
theorem decode_append {front back : Bytes} {instructions others : List Instruction}
    (h : decode front = .ok instructions) (h' : decode back = .ok others) :
    decode (front ++ back) = .ok (instructions ++ others.map (Instruction.shift front.length)) := by
  have length := length_eq_boundary h
  obtain ⟨laid, rfl⟩ := decode_eq_ok_iff.mp h
  obtain ⟨laid', rfl⟩ := decode_eq_ok_iff.mp h'
  refine decode_eq_ok_iff.mpr ⟨Laid.append_iff.mpr ⟨laid, ?_⟩, ?_⟩
  · rw [length, Nat.zero_add]
    exact laid'.shift _
  · simp [encode, List.flatMap_map]

/-- At a boundary stands the instruction of that line. -/
theorem decodeAt_boundary {code : Bytes} {instructions : List Instruction}
    (h : decode code = .ok instructions) {line : Nat} {instruction : Instruction}
    (here : instructions[line]? = some instruction) :
    Instruction.decodeAt code (boundary instructions line) = .ok instruction := by
  obtain ⟨laid, rfl⟩ := decode_eq_ok_iff.mp h
  obtain ⟨inside, rfl⟩ := List.getElem?_eq_some_iff.mp here
  have within : boundary instructions line ≤ (encode instructions).length := by
    rw [laid.length_encode]
    exact boundary_le_boundary (Nat.le_of_lt inside) (Nat.le_refl _)
  have rest := laid.drop_encode (Nat.le_of_lt inside)
  rw [List.drop_eq_getElem_cons inside] at rest
  have start := laid.offset here
  have sound := laid.wellFormed _ (List.getElem_mem inside)
  have read := Read.instruction_encode _ (encode (instructions.drop (line + 1))) sound
  rw [start, Nat.zero_add] at read
  rw [Instruction.decodeAt, seek_of_drop rest within, Read.run_eq_ok]
  exact ⟨_, read⟩

theorem fetch_boundary {segment : Segment} {instructions : List Instruction}
    (h : decode segment.bytes = .ok instructions) {line : Nat} {instruction : Instruction}
    (here : instructions[line]? = some instruction) :
    segment.fetch (boundary instructions line) = .ok instruction := by
  rw [Segment.fetch_eq_decodeAt]
  exact decodeAt_boundary h here

/-! ## Round trips -/

/-- Decoding and encoding are inverse to each other. A stream that decodes is written back byte for
byte; its instructions tile it, each of them one that can be written, and decoding at the offset of
any of them gives it again. Instructions that can be written and stand one behind the other are
read back as they are. -/
theorem streams_round_trip :
    (∀ (code : Bytes) (instructions : List Instruction), decode code = .ok instructions →
      encode instructions = code ∧
      boundary instructions instructions.length = code.length ∧
      (∀ (line : Nat) (instruction : Instruction), instructions[line]? = some instruction →
        instruction.offset = boundary instructions line) ∧
      ∀ instruction ∈ instructions, instruction.WellFormed ∧
        Instruction.decodeAt code instruction.offset = .ok instruction) ∧
    ∀ instructions : List Instruction,
      (∀ instruction ∈ instructions, instruction.WellFormed) →
      (∀ (line : Nat) (instruction : Instruction), instructions[line]? = some instruction →
        instruction.offset = boundary instructions line) →
      decode (encode instructions) = .ok instructions := by
  constructor
  · intro code instructions decoded
    obtain ⟨laid, written⟩ := decode_eq_ok_iff.mp decoded
    have offset (line : Nat) (instruction : Instruction)
        (here : instructions[line]? = some instruction) :
        instruction.offset = boundary instructions line := by
      simpa using laid.offset here
    refine ⟨written.symm, (length_eq_boundary decoded).symm, offset, ?_⟩
    intro instruction member
    obtain ⟨line, here⟩ := List.getElem?_of_mem member
    refine ⟨laid.wellFormed instruction member, ?_⟩
    rw [offset line instruction here]
    exact decodeAt_boundary decoded here
  · intro instructions sound offset
    apply decode_encode
    apply Laid.of_getElem?
    intro line instruction here
    refine ⟨?_, sound instruction (List.mem_of_getElem? here)⟩
    simpa using offset line instruction here

/-- A float that is no number, a jump table with a distance of each sign, and a try construct
without a catch body whose finally body is as far back as can be. -/
theorem streams_round_trip_tables :
    let stream : List Instruction := [
      ⟨0, .pushDouble, .narrow, .double 0x7FF8000000000001⟩,
      ⟨9, .caseOf, .medium, .table [-9, 0x7FFF]⟩,
      ⟨16, .enterTry, .wide, .tryPair 0 (-0x80000000)⟩]
    decode (encode stream) = .ok stream ∧
      Instruction.decodeAt (encode stream) 16 =
        .ok ⟨16, .enterTry, .wide, .tryPair 0 (-0x80000000)⟩ := by
  intro stream
  have decoded : decode (encode stream) = .ok stream := by
    apply streams_round_trip.2
    · intro instruction member
      simp only [stream, List.mem_cons, List.not_mem_nil, or_false] at member
      rcases member with rfl | rfl | rfl
      · exact ⟨by decide, trivial⟩
      · refine ⟨by decide, by decide, ?_⟩
        simp [Width.Holds, Width.reach]
      · refine ⟨by decide, ?_⟩
        simp [Operand.Fits, Opcode.shape, Width.Holds, Width.reach]
    · intro line instruction here
      rcases line with _ | _ | _ | line
      · obtain rfl := Option.some.inj here
        rfl
      · obtain rfl := Option.some.inj here
        rfl
      · obtain rfl := Option.some.inj here
        rfl
      · simp [stream] at here
  refine ⟨decoded, ?_⟩
  obtain ⟨-, -, -, each⟩ := streams_round_trip.1 _ _ decoded
  have last : (⟨16, .enterTry, .wide, .tryPair 0 (-0x80000000)⟩ : Instruction) ∈ stream := by
    simp [stream]
  exact (each _ last).2

end Code

/-- An instruction says where it stands. -/
theorem Segment.offset_of_fetch {segment : Segment} {position : Nat} {instruction : Instruction}
    (h : segment.fetch position = .ok instruction) : instruction.offset = position := by
  rw [fetch_eq_decodeAt, Instruction.decodeAt, Read.run_eq_ok] at h
  obtain ⟨last, h⟩ := h
  have start : (Cursor.seek segment.bytes position).position = position := by
    unfold Cursor.seek
    split <;> rfl
  obtain ⟨cursor, _, hg, h⟩ := EStateM.bind_eq_ok_iff.mp h
  cases hg
  obtain ⟨⟨opcode, width⟩, _, -, h⟩ := EStateM.bind_eq_ok_iff.mp h
  obtain ⟨operand, _, -, h⟩ := EStateM.bind_eq_ok_iff.mp h
  cases h
  exact start

end ObjectMachine
