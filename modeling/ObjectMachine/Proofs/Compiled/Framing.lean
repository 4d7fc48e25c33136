import ObjectMachine.Compiled.File
import ObjectMachine.Proofs.Code.Encoding

/-!
# The framing of unit files

Every file that is long enough is a header in front of a body. It is accepted if the header declares
lengths that the body has, and then it is what the unit is written as, so that files and units
determine each other.
-/

namespace ObjectMachine

namespace CompiledUnit

open Read Cursor

/-! ## Headers -/

/-- What a file starts with: two bytes that tell what it is, and the lengths of its sections. -/
abbrev Header := UInt8 × UInt8 × Int32 × Int32

def readHeader : Read Header := do
  let first ← Read.byte
  let second ← Read.byte
  let metadataLength ← Read.int32
  let codeLength ← Read.int32
  pure (first, second, metadataLength, codeLength)

def writeHeader : Header → Bytes
  | (first, second, metadataLength, codeLength) =>
    [first] ++ ([second] ++ (Write.int32 metadataLength ++ Write.int32 codeLength))

theorem length_int32 (value : Int32) : (Write.int32 value).length = 4 :=
  LittleEndian.length_bytes 4 _

theorem length_writeHeader (header : Header) : (writeHeader header).length = headerSize := by
  obtain ⟨first, second, metadataLength, codeLength⟩ := header
  simp only [writeHeader, List.length_append, List.length_singleton, length_int32]
  rfl

theorem readHeader_write (header : Header) (body : Bytes) :
    readHeader (start (writeHeader header ++ body)) = .ok header (ahead headerSize body) := by
  obtain ⟨first, second, metadataLength, codeLength⟩ := header
  have place : ahead headerSize body = ahead (0 + [first].length + [second].length +
      (Write.int32 metadataLength).length + (Write.int32 codeLength).length) body := by
    rw [length_int32, length_int32]
    rfl
  rw [place, start_eq_ahead, writeHeader, List.append_assoc, List.append_assoc, List.append_assoc]
  refine (bind_of_ok (inverts_byte.read_write _ first _ trivial)).trans ?_
  refine (bind_of_ok (inverts_byte.read_write _ second _ trivial)).trans ?_
  refine (bind_of_ok (inverts_int32.read_write _ metadataLength _ trivial)).trans ?_
  exact bind_of_ok (inverts_int32.read_write _ codeLength _ trivial)

theorem not_neg_iff (value : Int32) : ¬ value < 0 ↔ 0 ≤ value.toInt := by
  rw [Int32.lt_iff_toInt_lt, Int.not_lt, Int32.toInt_zero]

theorem decode_write (first second : UInt8) (metadataLength codeLength : Int32) (body : Bytes)
    (unit : CompiledUnit) :
    decode (writeHeader (first, second, metadataLength, codeLength) ++ body) = .ok unit ↔
      (first, second) = magic ∧ 0 ≤ metadataLength.toInt ∧ 0 ≤ codeLength.toInt ∧
        metadataLength.toInt + codeLength.toInt = body.length ∧
        unit = ⟨body.take metadataLength.toInt.toNat, body.drop metadataLength.toInt.toNat⟩ := by
  generalize whole : writeHeader (first, second, metadataLength, codeLength) ++ body = file
  have long : ¬ file.length < headerSize := by
    rw [← whole, List.length_append, length_writeHeader]
    omega
  have header : readHeader.run (start file) = .ok (first, second, metadataLength, codeLength) :=
    run_eq_ok.mpr ⟨_, whole ▸ readHeader_write _ body⟩
  have behind : file.drop headerSize = body := by
    rw [← whole, ← length_writeHeader (first, second, metadataLength, codeLength),
      List.drop_left]
  have reads (next : Header → Except UnitError CompiledUnit) :
      (readHeader.run (start file)).mapError .decode >>= next =
        next (first, second, metadataLength, codeLength) := by
    rw [header]
    rfl
  unfold decode
  refine Except.throw_if_eq_ok_iff.trans ((and_iff_right long).trans ?_)
  refine (Eq.congr_left (reads _)).trans (Except.throw_if_eq_ok_iff.trans ?_)
  refine and_congr not_not (Except.throw_if_eq_ok_iff.trans ?_)
  refine (and_congr_left' (not_neg_iff _)).trans (and_congr_right fun metadata => ?_)
  refine Except.throw_if_eq_ok_iff.trans ?_
  refine (and_congr_left' (not_neg_iff _)).trans (and_congr_right fun code => ?_)
  refine Except.throw_if_eq_ok_iff.trans (and_congr ?_ ?_)
  · rw [not_not, ← behind, List.length_drop]
    omega
  · rw [behind]
    exact (Except.ok.injEq _ _).to_iff.trans eq_comm

/-! ## Files -/

def lengthAt (file : Bytes) (position : Nat) : Int :=
  LittleEndian.signedValue ((file.drop position).take 4)

/-- Whether a file starts with the bytes that tell what it is and declares two lengths that are not
negative and are together what follows. -/
structure Framed (file : Bytes) : Prop where
  header : headerSize ≤ file.length
  magic : [magic.1, magic.2] <+: file
  metadata : 0 ≤ lengthAt file 2
  code : 0 ≤ lengthAt file 6
  whole : lengthAt file 2 + lengthAt file 6 = (file.drop headerSize).length

/-- Four bytes are what one number is written as. -/
theorem int32_of_word {word : Bytes} (four : word.length = 4) :
    Write.int32 (Int32.ofInt (LittleEndian.signedValue word)) = word ∧
      (Int32.ofInt (LittleEndian.signedValue word)).toInt = LittleEndian.signedValue word := by
  have low := Int.le_bmod (x := LittleEndian.value word) (LittleEndian.capacity_pos 4)
  have high := Int.bmod_lt (x := LittleEndian.value word) (LittleEndian.capacity_pos 4)
  have same : (Int32.ofInt (LittleEndian.signedValue word)).toInt =
      LittleEndian.signedValue word := by
    rw [LittleEndian.signedValue, four]
    exact Int32.toInt_ofInt_of_le low high
  refine ⟨?_, same⟩
  calc Write.int32 (Int32.ofInt (LittleEndian.signedValue word))
      = LittleEndian.signedBytes 4 (Int32.ofInt (LittleEndian.signedValue word)).toInt :=
        congrArg (LittleEndian.bytes 4) (toNat_toUInt32 _)
    _ = LittleEndian.signedBytes word.length (LittleEndian.signedValue word) := by
        rw [same, four]
    _ = word := LittleEndian.signedBytes_signedValue word

/-- Every file that is long enough is a header in front of a body. -/
theorem exists_header {file : Bytes} (long : headerSize ≤ file.length) :
    ∃ first second metadataLength codeLength,
      file = writeHeader (first, second, metadataLength, codeLength) ++ file.drop headerSize ∧
        metadataLength.toInt = lengthAt file 2 ∧ codeLength.toInt = lengthAt file 6 := by
  match file, long with
  | first :: second :: rest, long =>
      have eight : 8 ≤ rest.length := by simpa [headerSize] using long
      obtain ⟨written, same⟩ := int32_of_word (show (rest.take 4).length = 4 by
        rw [List.length_take]
        omega)
      obtain ⟨written', same'⟩ := int32_of_word (show ((rest.drop 4).take 4).length = 4 by
        rw [List.length_take, List.length_drop]
        omega)
      refine ⟨first, second, _, _, ?_, same, same'⟩
      have behind : rest.drop 8 = (rest.drop 4).drop 4 := by rw [List.drop_drop]
      change first :: second :: rest =
        writeHeader (first, second, _, _) ++ rest.drop 8
      rw [writeHeader, written, written', behind]
      simp only [List.cons_append, List.nil_append, List.append_assoc, List.take_append_drop]

theorem magic_prefix_iff {first second : UInt8} {metadataLength codeLength : Int32} {body : Bytes} :
    [magic.1, magic.2] <+: writeHeader (first, second, metadataLength, codeLength) ++ body ↔
      (first, second) = magic := by
  rw [writeHeader, Prod.ext_iff]
  simp [List.cons_prefix_cons, eq_comm]

/-- A file is accepted if it is framed, and its sections are the parts of what follows the
header. -/
theorem decode_eq_ok_iff_framed {file : Bytes} {unit : CompiledUnit} :
    decode file = .ok unit ↔ Framed file ∧
      unit = ⟨(file.drop headerSize).take (lengthAt file 2).toNat,
        (file.drop headerSize).drop (lengthAt file 2).toNat⟩ := by
  by_cases long : headerSize ≤ file.length
  · obtain ⟨first, second, metadataLength, codeLength, whole, same, same'⟩ := exists_header long
    have decodes := decode_write first second metadataLength codeLength (file.drop headerSize) unit
    rw [← magic_prefix_iff, ← whole, same, same'] at decodes
    refine decodes.trans ⟨?_, ?_⟩
    · rintro ⟨magic, metadata, code, sum, rfl⟩
      exact ⟨⟨long, magic, metadata, code, sum⟩, rfl⟩
    · rintro ⟨⟨-, magic, metadata, code, sum⟩, rfl⟩
      exact ⟨magic, metadata, code, sum, rfl⟩
  · refine iff_of_false (fun decodes => ?_) fun framed => long framed.1.header
    unfold decode at decodes
    exact (Except.throw_if_eq_ok_iff.mp decodes).1 (Nat.not_le.mp long)

theorem int32_of_nonneg {value : Int32} (nonneg : 0 ≤ value.toInt) :
    Write.int32 value = LittleEndian.bytes 4 value.toInt.toNat := by
  have small := value.toInt_lt
  unfold Write.int32 Write.uint32
  rw [toNat_toUInt32, Int.emod_eq_of_lt nonneg (by omega)]

theorem encode_eq {unit : CompiledUnit} {metadataLength codeLength : Int32}
    (metadata : metadataLength.toInt = unit.metadata.length)
    (code : codeLength.toInt = unit.code.length) :
    encode unit = writeHeader (magic.1, magic.2, metadataLength, codeLength) ++
      (unit.metadata ++ unit.code) := by
  rw [writeHeader, int32_of_nonneg (by omega), int32_of_nonneg (by omega), metadata, code,
    Int.toNat_natCast, Int.toNat_natCast]
  simp only [encode, List.append_assoc, List.cons_append, List.nil_append]

theorem decode_encode {unit : CompiledUnit} (metadata : unit.metadata.length < 0x80000000)
    (code : unit.code.length < 0x80000000) : decode (encode unit) = .ok unit := by
  have declared {size : Nat} (small : size < 0x80000000) : (Int32.ofInt size).toInt = size :=
    Int32.toInt_ofInt_of_le (by omega) (by omega)
  rw [encode_eq (declared metadata) (declared code)]
  refine (decode_write _ _ _ _ _ _).mpr ?_
  rw [declared metadata, declared code, List.length_append, Int.toNat_natCast, List.take_left,
    List.drop_left]
  exact ⟨rfl, Int.natCast_nonneg _, Int.natCast_nonneg _, (Int.natCast_add _ _).symm, rfl⟩

theorem encode_of_decode {file : Bytes} {unit : CompiledUnit} (decodes : decode file = .ok unit) :
    encode unit = file ∧ unit.metadata.length < 0x80000000 ∧ unit.code.length < 0x80000000 := by
  obtain ⟨⟨long, starts, metadata, code, sum⟩, rfl⟩ := decode_eq_ok_iff_framed.mp decodes
  obtain ⟨first, second, metadataLength, codeLength, whole, same, same'⟩ := exists_header long
  have size : (((file.drop headerSize).take (lengthAt file 2).toNat).length : Int) =
      lengthAt file 2 := by
    rw [List.length_take]
    omega
  have size' : (((file.drop headerSize).drop (lengthAt file 2).toNat).length : Int) =
      lengthAt file 6 := by
    rw [List.length_drop]
    omega
  have small := metadataLength.toInt_lt
  have small' := codeLength.toInt_lt
  dsimp only
  refine ⟨?_, by omega, by omega⟩
  obtain ⟨rfl, rfl⟩ := Prod.ext_iff.mp (magic_prefix_iff.mp (whole ▸ starts))
  rw [encode_eq (same.trans size.symm) (same'.trans size'.symm), List.take_append_drop]
  exact whole.symm

theorem length_encode (unit : CompiledUnit) :
    (encode unit).length = headerSize + unit.metadata.length + unit.code.length := by
  simp only [encode, List.length_append, List.length_cons, List.length_nil,
    LittleEndian.length_bytes, headerSize]

/-- What is declared does not depend on what follows the header. -/
theorem lengthAt_append {file tail : Bytes} {position : Nat} (inside : position + 4 ≤ file.length) :
    lengthAt (file ++ tail) position = lengthAt file position := by
  unfold lengthAt
  rw [List.drop_append_of_le_length (by omega), List.take_append_of_le_length]
  rw [List.length_drop]
  omega

/-- **Framing is a bijection.** Units with sections of less than two gigabytes are read back from
the files that they are written as, and exactly the framed files are read, each of them being what
its unit is written as. So no file has bytes left over or missing, and no two files hold one
unit. -/
theorem framing_bijective :
    (∀ unit : CompiledUnit, unit.metadata.length < 0x80000000 → unit.code.length < 0x80000000 →
        decode (encode unit) = .ok unit) ∧
      (∀ file, (∃ unit, decode file = .ok unit) ↔ Framed file) ∧
      (∀ file unit, decode file = .ok unit → encode unit = file ∧
        unit.metadata.length < 0x80000000 ∧ unit.code.length < 0x80000000 ∧
        file.length = headerSize + unit.metadata.length + unit.code.length) ∧
      (∀ file tail, Framed file → Framed (file ++ tail) → tail = []) ∧
      ∀ file file' unit, decode file = .ok unit → decode file' = .ok unit → file = file' := by
  refine ⟨fun unit => decode_encode, fun file => ?_, fun file unit decodes => ?_,
    fun file tail framed longer => ?_, fun file file' unit decodes decodes' => ?_⟩
  · constructor
    · rintro ⟨unit, decodes⟩
      exact (decode_eq_ok_iff_framed.mp decodes).1
    · exact fun framed => ⟨_, decode_eq_ok_iff_framed.mpr ⟨framed, rfl⟩⟩
  · obtain ⟨written, metadata, code⟩ := encode_of_decode decodes
    exact ⟨written, metadata, code, written ▸ length_encode unit⟩
  · have ten : headerSize = 10 := rfl
    have long := framed.header
    have whole := longer.whole
    rw [lengthAt_append (by omega), lengthAt_append (by omega), framed.whole, List.length_drop,
      List.length_drop, List.length_append] at whole
    exact List.length_eq_zero_iff.mp (by omega)
  · exact (encode_of_decode decodes).1.symm.trans (encode_of_decode decodes').1

end CompiledUnit

end ObjectMachine
