import ObjectMachine.Code.Instruction
import ObjectMachine.Proofs.Bytes.Codec

/-!
# The encoding of single instructions

Reading an instruction accepts exactly the bytes that a well-formed instruction is written as.
An instruction is well formed if it has a width that its opcode is encoded in and an operand of
the opcode's shape that fits this width.
-/

namespace ObjectMachine

namespace Width

/-- Bound on the distances that a width holds. -/
def reach : Width → Int
  | narrow => 0x80
  | medium => 0x8000
  | wide => 0x80000000

def Holds (width : Width) (distance : Int) : Prop :=
  -width.reach ≤ distance ∧ distance < width.reach

theorem capacity_bytes (width : Width) :
    (LittleEndian.capacity width.bytes : Int) = 2 * width.reach := by
  cases width <;> decide

theorem reach_mono {width wider : Width} (h : width.bytes ≤ wider.bytes) :
    width.reach ≤ wider.reach := by
  cases width <;> cases wider <;> first | decide | (exact absurd h (by decide))

theorem Holds.mono {width wider : Width} {distance : Int} (h : width.Holds distance)
    (hw : width.bytes ≤ wider.bytes) : wider.Holds distance := by
  have := reach_mono hw
  unfold Holds at *
  omega

theorem Holds.wide {width : Width} {distance : Int} (h : width.Holds distance) :
    Width.wide.Holds distance :=
  h.mono (by cases width <;> decide)

theorem mem_all (width : Width) : width ∈ all := by
  cases width <;> decide

theorem holds_zero (width : Width) : width.Holds 0 := by
  unfold Holds
  cases width <;> decide

/-- A distance that fits a width is one of 32 bits. -/
theorem Holds.toInt_ofInt {width : Width} {distance : Int} (h : width.Holds distance) :
    (Int32.ofInt distance).toInt = distance := by
  have wide := h.wide
  simp only [Holds, reach] at wide
  exact Int32.toInt_ofInt_of_le (by omega) (by omega)

theorem holds_forOffset {distance : Int} (h : wide.Holds distance) :
    (forOffset distance).Holds distance := by
  unfold forOffset
  split
  · next fits => exact fits
  · split
    · next fits => exact fits
    · exact h

theorem forOffset_le {width : Width} {distance : Int} (h : width.Holds distance) :
    (forOffset distance).bytes ≤ width.bytes := by
  unfold forOffset
  cases width with
  | narrow =>
      split
      · decide
      · next far => exact absurd (by simpa [Holds, reach] using h) far
  | medium =>
      split
      · decide
      · split
        · decide
        · next far => exact absurd (by simpa [Holds, reach] using h) far
  | wide =>
      split
      · decide
      · split <;> decide

end Width

namespace Opcode

theorem mem_all (opcode : Opcode) : opcode ∈ all := by
  cases opcode <;> decide

theorem mem_encodings {opcode : Opcode} {width : Width} :
    (opcode, width) ∈ encodings ↔ width ∈ opcode.widths := by
  simp [encodings, mem_all]

theorem decode?_eq_find? (byte : UInt8) :
    decode? byte =
      encodings.find? fun (opcode, width) => opcode.encode width == byte := by
  have small : byte.toNat < 256 := byte.toNat_lt
  simp [decode?, decodeTable, small]

theorem find?_encode_mem :
    ∀ entry ∈ encodings,
      (encodings.find? fun other => other.1.encode other.2 == entry.1.encode entry.2) =
        some entry := by
  decide +kernel

/-- The opcode bytes are told apart by the opcode and its width. -/
theorem decode?_eq_some_iff {byte : UInt8} {opcode : Opcode} {width : Width} :
    decode? byte = some (opcode, width) ↔ width ∈ opcode.widths ∧ opcode.encode width = byte := by
  constructor
  · intro h
    rw [decode?_eq_find?] at h
    have found := List.find?_some h
    exact ⟨mem_encodings.mp (List.mem_of_find?_eq_some h), by simpa using found⟩
  · rintro ⟨hw, rfl⟩
    rw [decode?_eq_find?]
    exact find?_encode_mem (opcode, width) (mem_encodings.mpr hw)

end Opcode

namespace Operand

/-- Whether an operand has the shape of an opcode and fits a width. -/
def Fits (opcode : Opcode) (width : Width) (operand : Operand) : Prop :=
  match opcode.shape, operand with
  | .absent, absent | .uint8, byte _ | .int16, short _ | .int32, int _ | .int64, long _
  | .float64, double _ => True
  | .uint16, count _ => opcode = .makeArray
  | .uint16, char _ => opcode ≠ .makeArray
  | .index, index number => number.toNat < LittleEndian.capacity width.bytes
  | .offset, offset distance => width.Holds distance.toInt
  | .caseTable, table distances =>
    distances.length < 0x10000 ∧ ∀ distance ∈ distances, width.Holds distance.toInt
  | .tryPair, tryPair onCatch onFinally =>
    width.Holds onCatch.toInt ∧ width.Holds onFinally.toInt
  | _, _ => False

end Operand

namespace Instruction

/-- Whether an instruction can be written and read again. -/
structure WellFormed (instruction : Instruction) : Prop where
  width_mem : instruction.width ∈ instruction.opcode.widths
  fits : instruction.operand.Fits instruction.opcode instruction.width

end Instruction

namespace Read

open Cursor

/-! ## Numbers of instructions -/

theorem toNat_toUInt16 (value : Int16) : value.toUInt16.toNat = (value.toInt % 0x10000).toNat := by
  have small : value.toUInt16.toNat < 0x10000 := value.toUInt16.toNat_lt
  have h : value.toInt = Int.bmod value.toUInt16.toNat 0x10000 :=
    BitVec.toInt_eq_toNat_bmod value.toBitVec
  rw [h, show (0x10000 : Int) = ((0x10000 : Nat) : Int) from rfl, Int.bmod_emod]
  omega

theorem toNat_toUInt32 (value : Int32) :
    value.toUInt32.toNat = (value.toInt % 0x100000000).toNat := by
  have small : value.toUInt32.toNat < 0x100000000 := value.toUInt32.toNat_lt
  have h : value.toInt = Int.bmod value.toUInt32.toNat 0x100000000 :=
    BitVec.toInt_eq_toNat_bmod value.toBitVec
  rw [h, show (0x100000000 : Int) = ((0x100000000 : Nat) : Int) from rfl, Int.bmod_emod]
  omega

theorem toNat_toUInt64 (value : Int64) :
    value.toUInt64.toNat = (value.toInt % 0x10000000000000000).toNat := by
  have small : value.toUInt64.toNat < 0x10000000000000000 := value.toUInt64.toNat_lt
  have h : value.toInt = Int.bmod value.toUInt64.toNat 0x10000000000000000 :=
    BitVec.toInt_eq_toNat_bmod value.toBitVec
  rw [h, show (0x10000000000000000 : Int) = ((0x10000000000000000 : Nat) : Int) from rfl,
    Int.bmod_emod]
  omega

theorem inverts_int16 : Inverts int16 Write.int16 fun _ => True := by
  have capacity : LittleEndian.capacity 2 = 0x10000 := rfl
  have written (value : Int16) : Write.int16 value = LittleEndian.signedBytes 2 value.toInt :=
    congrArg (LittleEndian.bytes 2) (toNat_toUInt16 value)
  refine (inverts_signedWord 2).map Int16.ofInt ?_ ?_ <;> rw [capacity]
  · rintro number ⟨low, high⟩
    exact ⟨trivial, by rw [written, Int16.toInt_ofInt_of_le (by omega) (by omega)]⟩
  · intro value _
    have low := value.le_toInt
    have high := value.toInt_lt
    exact ⟨value.toInt, ⟨by omega, by omega⟩, Int16.ofInt_toInt value⟩

theorem inverts_int32 : Inverts int32 Write.int32 fun _ => True := by
  have capacity : LittleEndian.capacity 4 = 0x100000000 := rfl
  have written (value : Int32) : Write.int32 value = LittleEndian.signedBytes 4 value.toInt :=
    congrArg (LittleEndian.bytes 4) (toNat_toUInt32 value)
  refine (inverts_signedWord 4).map Int32.ofInt ?_ ?_ <;> rw [capacity]
  · rintro number ⟨low, high⟩
    exact ⟨trivial, by rw [written, Int32.toInt_ofInt_of_le (by omega) (by omega)]⟩
  · intro value _
    have low := value.le_toInt
    have high := value.toInt_lt
    exact ⟨value.toInt, ⟨by omega, by omega⟩, Int32.ofInt_toInt value⟩

theorem inverts_int64 : Inverts int64 Write.int64 fun _ => True := by
  have capacity : LittleEndian.capacity 8 = 0x10000000000000000 := rfl
  have written (value : Int64) : Write.int64 value = LittleEndian.signedBytes 8 value.toInt :=
    congrArg (LittleEndian.bytes 8) (toNat_toUInt64 value)
  refine (inverts_signedWord 8).map Int64.ofInt ?_ ?_ <;> rw [capacity]
  · rintro number ⟨low, high⟩
    exact ⟨trivial, by rw [written, Int64.toInt_ofInt_of_le (by omega) (by omega)]⟩
  · intro value _
    have low := value.le_toInt
    have high := value.toInt_lt
    exact ⟨value.toInt, ⟨by omega, by omega⟩, Int64.ofInt_toInt value⟩

/-- Only the lowest bytes of a number are written. -/
theorem bytes_mod_capacity (count number : Nat) :
    LittleEndian.bytes count (number % LittleEndian.capacity count) =
      LittleEndian.bytes count number := by
  have h := LittleEndian.bytes_value (LittleEndian.bytes count number)
  rwa [LittleEndian.length_bytes, LittleEndian.value_bytes] at h

/-- A narrow distance keeps the lowest bytes of the 32-bit one. -/
theorem encodeDistance_eq (width : Width) (distance : Int32) :
    Operand.encodeDistance width distance =
      LittleEndian.signedBytes width.bytes distance.toInt := by
  rw [Operand.encodeDistance, LittleEndian.signedBytes, toNat_toUInt32,
    ← bytes_mod_capacity width.bytes (distance.toInt % 0x100000000).toNat]
  have split : LittleEndian.capacity width.bytes = 0x100 ∨
      LittleEndian.capacity width.bytes = 0x10000 ∨
      LittleEndian.capacity width.bytes = 0x100000000 := by
    cases width <;> decide
  congr 1
  rcases split with h | h | h <;> rw [h] <;> omega

theorem inverts_distance (width : Width) :
    Inverts (distance width) (Operand.encodeDistance width)
      fun value => width.Holds value.toInt := by
  have capacity := width.capacity_bytes
  refine (inverts_signedWord width.bytes).map Int32.ofInt ?_ ?_ <;> rw [capacity]
  · rintro number ⟨low, high⟩
    have holds : width.Holds number := ⟨by omega, by omega⟩
    exact ⟨by rw [holds.toInt_ofInt]; exact holds, by rw [encodeDistance_eq, holds.toInt_ofInt]⟩
  · rintro value ⟨low, high⟩
    exact ⟨value.toInt, ⟨by omega, by omega⟩, Int32.ofInt_toInt value⟩

theorem inverts_index (width : Width) :
    Inverts (index width) (Operand.encodeIndex width)
      fun number => number.toNat < LittleEndian.capacity width.bytes := by
  refine (inverts_word width.bytes).map UInt32.ofNat ?_ ?_
  · intro number small
    have exact : (UInt32.ofNat number).toNat = number := by
      refine UInt32.toNat_ofNat_of_lt' (Nat.lt_of_lt_of_le small ?_)
      cases width <;> decide
    rw [exact, Operand.encodeIndex, exact]
    exact ⟨small, rfl⟩
  · intro number small
    exact ⟨number.toNat, small, UInt32.ofNat_toNat⟩

/-! ## Opcodes and operands -/

theorem opcode_ahead_cons (position : Nat) (first : UInt8) (rest : Bytes) :
    opcode (ahead position (first :: rest)) =
      match Opcode.decode? first with
      | some found => .ok found (ahead (position + 1) rest)
      | none => .error (.invalidOpcode first position) (ahead (position + 1) rest) := by
  have here : (get : Read Cursor) (ahead position (first :: rest)) =
      .ok (ahead position (first :: rest)) (ahead position (first :: rest)) := rfl
  have taken : byte (ahead position (first :: rest)) = .ok first (ahead (position + 1) rest) := rfl
  simp only [opcode]
  rw [bind_of_ok here, bind_of_ok taken]
  cases Opcode.decode? first <;> rfl

theorem inverts_opcode :
    Inverts opcode (fun found => [found.1.encode found.2]) (fun found => found.2 ∈ found.1.widths)
    where
  read_write := by
    intro position found tail hw
    have h : Opcode.decode? (found.1.encode found.2) = some found :=
      Opcode.decode?_eq_some_iff.mpr ⟨hw, rfl⟩
    rw [List.singleton_append, opcode_ahead_cons, h]
    rfl
  write_read := by
    intro position bytes found next hr
    cases bytes with
    | nil =>
        obtain ⟨_, _, hg, hr⟩ := bind_eq_ok.mp hr
        cases hg
        obtain ⟨_, _, hb, _⟩ := bind_eq_ok.mp hr
        cases hb
    | cons first rest =>
        rw [opcode_ahead_cons] at hr
        cases hd : Opcode.decode? first with
        | none => simp [hd] at hr
        | some pair =>
            simp only [hd, EStateM.Result.ok.injEq] at hr
            obtain ⟨rfl, rfl⟩ := hr
            obtain ⟨hw, rfl⟩ := Opcode.decode?_eq_some_iff.mp hd
            exact ⟨hw, rest, rfl, rfl⟩

theorem inverts_table (width : Width) :
    Inverts (do let count ← uint16; .table <$> times count.toNat (distance width))
      (Operand.encode width)
      (fun operand => ∃ distances, operand = .table distances ∧ distances.length < 0x10000 ∧
        ∀ distance ∈ distances, width.Holds distance.toInt) := by
  have items (count : UInt16) :
      Inverts (Operand.table <$> times count.toNat (distance width))
        (fun operand => operand.distances.flatMap (Operand.encodeDistance width))
        (fun operand => ∃ distances, operand = .table distances ∧
          distances.length = count.toNat ∧ ∀ distance ∈ distances, width.Holds distance.toInt) := by
    refine ((inverts_distance width).times count.toNat).map Operand.table ?_ ?_
    · intro distances valid
      exact ⟨⟨distances, rfl, valid⟩, rfl⟩
    · rintro _ ⟨distances, rfl, valid⟩
      exact ⟨distances, valid, rfl⟩
  refine inverts_uint16.bind (fun count _ => items count) ?_ ?_
  · rintro count _ _ ⟨distances, rfl, length, holds⟩
    refine ⟨⟨distances, rfl, ?_, holds⟩, ?_⟩
    · rw [length]
      exact count.toNat_lt
    · rw [Operand.encode, length]
      rfl
  · rintro _ ⟨distances, rfl, length, holds⟩
    have count : (UInt16.ofNat distances.length).toNat = distances.length :=
      UInt16.toNat_ofNat_of_lt' length
    exact ⟨UInt16.ofNat distances.length, trivial, distances, rfl, count.symm, holds⟩

theorem inverts_tryPair (width : Width) :
    Inverts (do
        let onCatch ← distance width
        let onFinally ← distance width
        pure (.tryPair onCatch onFinally))
      (Operand.encode width)
      (fun operand => ∃ onCatch onFinally, operand = .tryPair onCatch onFinally ∧
        width.Holds onCatch.toInt ∧ width.Holds onFinally.toInt) := by
  have second (onCatch : Int32) :
      Inverts (do let onFinally ← distance width; pure (Operand.tryPair onCatch onFinally))
        (fun
          | .tryPair _ onFinally => Operand.encodeDistance width onFinally
          | _ => [])
        (fun operand => ∃ onFinally, operand = .tryPair onCatch onFinally ∧
          width.Holds onFinally.toInt) := by
    refine (inverts_distance width).bind
      (fun onFinally _ => inverts_pure (Operand.tryPair onCatch onFinally)
        (fun _ => []) rfl fun _ => Iff.rfl) ?_ ?_
    · rintro onFinally _ holds rfl
      exact ⟨⟨onFinally, rfl, holds⟩, (List.append_nil _).symm⟩
    · rintro _ ⟨onFinally, rfl, holds⟩
      exact ⟨onFinally, holds, rfl⟩
  refine (inverts_distance width).bind (fun onCatch _ => second onCatch) ?_ ?_
  · rintro onCatch _ holds ⟨onFinally, rfl, holds'⟩
    exact ⟨⟨onCatch, onFinally, rfl, holds, holds'⟩, rfl⟩
  · rintro _ ⟨onCatch, onFinally, rfl, holds, holds'⟩
    exact ⟨onCatch, holds, onFinally, rfl, holds'⟩

/-- Operands of one number in another shape. -/
theorem Inverts.operand {item : Read α} {write : α → Bytes} {valid : α → Prop}
    (h : Inverts item write valid) (shape : α → Operand) {width : Width} {fits : Operand → Prop}
    (hw : ∀ value, Operand.encode width (shape value) = write value)
    (hf : ∀ operand, fits operand ↔ ∃ value, operand = shape value ∧ valid value) :
    Inverts (shape <$> item) (Operand.encode width) fits := by
  refine h.map shape ?_ ?_
  · intro value hv
    exact ⟨(hf _).mpr ⟨value, rfl, hv⟩, hw value⟩
  · intro operand ho
    obtain ⟨value, rfl, hv⟩ := (hf operand).mp ho
    exact ⟨value, hv, rfl⟩

theorem inverts_operand (opcode : Opcode) (width : Width) :
    Inverts (operand opcode width) (Operand.encode width) (Operand.Fits opcode width) := by
  unfold operand
  cases hs : opcode.shape with
  | absent =>
      exact inverts_pure Operand.absent _ rfl fun operand => by
        cases operand <;> simp [Operand.Fits, hs]
  | uint8 =>
      exact inverts_byte.operand .byte (fun _ => rfl) fun operand => by
        cases operand <;> simp [Operand.Fits, hs]
  | uint16 =>
      dsimp only
      split
      · next he =>
          subst he
          exact inverts_uint16.operand .count (fun _ => rfl) fun operand => by
            cases operand <;> simp [Operand.Fits, hs]
      · next he =>
          exact inverts_uint16.operand .char (fun _ => rfl) fun operand => by
            cases operand <;> simp [Operand.Fits, hs, he]
  | int16 =>
      exact inverts_int16.operand .short (fun _ => rfl) fun operand => by
        cases operand <;> simp [Operand.Fits, hs]
  | int32 =>
      exact inverts_int32.operand .int (fun _ => rfl) fun operand => by
        cases operand <;> simp [Operand.Fits, hs]
  | int64 =>
      exact inverts_int64.operand .long (fun _ => rfl) fun operand => by
        cases operand <;> simp [Operand.Fits, hs]
  | float64 =>
      exact inverts_uint64.operand .double (fun _ => rfl) fun operand => by
        cases operand <;> simp [Operand.Fits, hs]
  | index =>
      exact (inverts_index width).operand .index (fun _ => rfl) fun operand => by
        cases operand <;> simp [Operand.Fits, hs]
  | offset =>
      exact (inverts_distance width).operand .offset (fun _ => rfl) fun operand => by
        cases operand <;> simp [Operand.Fits, hs]
  | caseTable =>
      exact (inverts_table width).of_iff fun operand => by
        cases operand <;> simp [Operand.Fits, hs]
  | tryPair =>
      refine (inverts_tryPair width).of_iff fun operand => ?_
      constructor
      · cases operand with
        | tryPair onCatch onFinally => exact fun h => ⟨onCatch, onFinally, rfl, by
            simpa only [Operand.Fits, hs] using h⟩
        | _ => simp [Operand.Fits, hs]
      · rintro ⟨onCatch, onFinally, rfl, holds⟩
        simpa only [Operand.Fits, hs] using holds

/-! ## Whole instructions -/

theorem instruction_eq (position : Nat) (bytes : Bytes) :
    instruction (ahead position bytes) =
      (do
        let (opcode, width) ← opcode
        let operand ← operand opcode width
        pure (⟨position, opcode, width, operand⟩ : Instruction) : Read Instruction)
        (ahead position bytes) := rfl

theorem instruction_encode (instruction : Instruction) (tail : Bytes) (h : instruction.WellFormed) :
    Read.instruction (ahead instruction.offset (instruction.encode ++ tail)) =
      .ok instruction (ahead (instruction.offset + instruction.encode.length) tail) := by
  obtain ⟨offset, op, width, operand⟩ := instruction
  obtain ⟨hw, hf⟩ := h
  have first : opcode (ahead offset (op.encode width :: (Operand.encode width operand ++ tail))) =
      .ok (op, width) (ahead (offset + 1) (Operand.encode width operand ++ tail)) :=
    inverts_opcode.read_write offset (op, width) (Operand.encode width operand ++ tail) hw
  have second := (inverts_operand op width).read_write (offset + 1) operand tail hf
  rw [instruction_eq]
  simp only [Instruction.encode, List.cons_append]
  rw [bind_of_ok first]
  dsimp only
  rw [bind_of_ok second, Nat.add_assoc, Nat.add_comm 1]
  rfl

theorem instruction_eq_ok {position : Nat} {bytes : Bytes} {found : Instruction} {next : Cursor}
    (h : Read.instruction (ahead position bytes) = .ok found next) :
    found.offset = position ∧ found.WellFormed ∧ ∃ tail, bytes = found.encode ++ tail ∧
      next = ahead (position + found.encode.length) tail := by
  rw [instruction_eq] at h
  obtain ⟨⟨op, width⟩, _, ho, h⟩ := bind_eq_ok.mp h
  obtain ⟨hw, rest, hb, hm⟩ := inverts_opcode.write_read _ _ _ _ ho
  obtain ⟨operand, last, hp, h⟩ := bind_eq_ok.mp h
  rw [hm] at hp
  obtain ⟨hf, tail, hr, hl⟩ := (inverts_operand op width).write_read _ _ _ _ hp
  have hfound : (⟨position, op, width, operand⟩ : Instruction) = found ∧ last = next := by
    simpa only [pure, EStateM.pure, EStateM.Result.ok.injEq] using h
  obtain ⟨rfl, rfl⟩ := hfound
  refine ⟨rfl, ⟨hw, hf⟩, tail, by rw [hb, hr]; rfl, ?_⟩
  rw [hl]
  simp only [Instruction.encode, List.length_cons, List.length_nil]
  congr 1
  omega

end Read

namespace Instruction

theorem encode_length_pos (instruction : Instruction) : 0 < instruction.encode.length := by
  simp [encode]

theorem length_encodeDistances (width : Width) (distances : List Int32) :
    (distances.flatMap (Operand.encodeDistance width)).length =
      distances.length * width.bytes := by
  induction distances with
  | nil => simp
  | cons distance rest ih =>
      simp only [List.flatMap_cons, List.length_append, List.length_cons, ih, Nat.succ_mul,
        Operand.encodeDistance, LittleEndian.length_bytes]
      omega

/-- A well-formed instruction takes as many bytes as it says. -/
theorem WellFormed.length_encode {instruction : Instruction} (h : instruction.WellFormed) :
    instruction.encode.length = instruction.size := by
  obtain ⟨offset, opcode, width, operand⟩ := instruction
  obtain ⟨-, hf⟩ := h
  simp only [encode, size, sizeAt, List.length_cons, Nat.add_comm _ 1]
  congr 1
  unfold Operand.Fits at hf
  cases hs : opcode.shape <;> cases operand <;> simp only [hs] at hf <;>
    simp only [Operand.encode, Operand.encodeIndex, Write.byte, Write.uint16, Write.int16,
      Write.int32, Write.int64, Write.uint32, Write.uint64, distances, Operand.distances,
      List.length_nil, List.length_cons, List.length_append, LittleEndian.length_bytes,
      length_encodeDistances] <;>
    simp [Operand.encodeDistance, Nat.two_mul]

theorem size_pos (instruction : Instruction) : 0 < instruction.size := by
  simp only [size, sizeAt]
  omega

end Instruction

end ObjectMachine
