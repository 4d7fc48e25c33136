import ObjectMachine.Bytes.Cursor
import ObjectMachine.Bytes.Write
import ObjectMachine.Proofs.Results

/-!
# Readings that undo a writing

A reading is tied to the bytes it accepts by one predicate in both directions: what has been
written is read back, whatever follows it, and whatever is read was written that way. The rules
below compose such pairs along the constructions that readings are made of.
-/

namespace ObjectMachine

namespace Cursor

def ahead (position : Nat) (rest : Bytes) : Cursor := ⟨position, rest, false⟩

theorem start_eq_ahead (source : Bytes) : start source = ahead 0 source := rfl

theorem hasMore_ahead (position : Nat) (rest : Bytes) :
    (ahead position rest).hasMore = !rest.isEmpty := rfl

/-- A position that bytes follow is not behind the end. -/
theorem seek_of_drop {source rest : Bytes} {position : Nat} (h : source.drop position = rest)
    (inside : position ≤ source.length) : seek source position = ahead position rest := by
  unfold seek
  rw [h]
  cases rest with
  | nil => simp [ahead, Nat.not_lt.mpr inside]
  | cons byte rest => rfl

end Cursor

namespace LittleEndian

/-- The `count` lowest bytes of a number in two's complement, lowest first. -/
def signedBytes (count : Nat) (number : Int) : Bytes :=
  bytes count (number % capacity count).toNat

theorem capacity_pos (count : Nat) : 0 < capacity count := by
  induction count with
  | zero => simp
  | succ count ih => rw [capacity_succ]; omega

theorem signedBytes_signedValue (word : Bytes) :
    signedBytes word.length (signedValue word) = word := by
  have small := value_lt word
  rw [signedBytes, signedValue, Int.bmod_emod, ← Int.natCast_emod, Int.toNat_natCast,
    Nat.mod_eq_of_lt small, bytes_value]

theorem signedValue_signedBytes {count : Nat} {number : Int}
    (low : -(capacity count : Int) ≤ 2 * number) (high : 2 * number < capacity count) :
    signedValue (signedBytes count number) = number := by
  have positive := capacity_pos count
  have nonneg : 0 ≤ number % capacity count := Int.emod_nonneg _ (by omega)
  have small : number % capacity count < capacity count := Int.emod_lt_of_pos _ (by omega)
  rw [signedValue, signedBytes, value_bytes, length_bytes, Nat.mod_eq_of_lt (by omega),
    Int.toNat_of_nonneg nonneg, Int.emod_bmod]
  exact Int.bmod_eq_of_le (by omega) (by omega)

end LittleEndian

namespace Read

open Cursor

/-- A reading accepts exactly the written forms of the valid values, in front of any bytes. -/
structure Inverts (reading : Read α) (write : α → Bytes) (valid : α → Prop) : Prop where
  read_write : ∀ (position : Nat) (value : α) (tail : Bytes), valid value →
    reading (ahead position (write value ++ tail)) =
      .ok value (ahead (position + (write value).length) tail)
  write_read : ∀ (position : Nat) (bytes : Bytes) (value : α) (next : Cursor),
    reading (ahead position bytes) = .ok value next →
      valid value ∧ ∃ tail, bytes = write value ++ tail ∧
        next = ahead (position + (write value).length) tail

/-! ## Results of composed readings -/

theorem bind_eq_ok {reading : Read α} {next : α → Read β} {cursor last : Cursor} {value : β} :
    (reading >>= next) cursor = .ok value last ↔
      ∃ first middle, reading cursor = .ok first middle ∧ next first middle = .ok value last :=
  EStateM.bind_eq_ok_iff

theorem bind_of_ok {reading : Read α} {next : α → Read β} {cursor middle : Cursor} {first : α}
    (h : reading cursor = .ok first middle) :
    (reading >>= next) cursor = next first middle := by
  change EStateM.bind reading next cursor = _
  simp [EStateM.bind, h]

theorem map_eq_ok {reading : Read α} {f : α → β} {cursor last : Cursor} {value : β} :
    (f <$> reading) cursor = .ok value last ↔
      ∃ first, reading cursor = .ok first last ∧ f first = value := by
  change EStateM.map f reading cursor = _ ↔ _
  unfold EStateM.map
  cases reading cursor with
  | ok first middle =>
      constructor
      · rintro ⟨⟩
        exact ⟨first, rfl, rfl⟩
      · rintro ⟨_, ⟨⟩, rfl⟩
        rfl
  | error fault middle => simp

theorem map_of_ok {reading : Read α} {f : α → β} {cursor last : Cursor} {value : α}
    (h : reading cursor = .ok value last) : (f <$> reading) cursor = .ok (f value) last :=
  map_eq_ok.mpr ⟨value, h, rfl⟩

theorem run_eq_ok {reading : Read α} {cursor : Cursor} {value : α} :
    reading.run cursor = .ok value ↔ ∃ last, reading cursor = .ok value last := by
  unfold run EStateM.run
  cases reading cursor with
  | ok value middle => simp
  | error fault middle => simp

/-! ## Primitives -/

theorem inverts_take (count : Nat) : Inverts (take count) id (·.length = count) where
  read_write := by
    rintro position value tail rfl
    simp [take, ahead]
  write_read := by
    intro position bytes value next h
    by_cases enough : (bytes.take count).length = count
    · simp only [take, ahead, enough, Bool.not_false, and_self, if_true,
        EStateM.Result.ok.injEq] at h
      obtain ⟨rfl, rfl⟩ := h
      refine ⟨enough, bytes.drop count, (List.take_append_drop count bytes).symm, ?_⟩
      simp only [id, ahead, enough]
    · simp only [take, ahead, enough, false_and, if_false] at h
      cases h

theorem inverts_byte : Inverts byte (fun value => [value]) fun _ => True where
  read_write := by
    intro position value tail _
    simp [byte, ahead]
  write_read := by
    intro position bytes value next h
    cases bytes with
    | nil => simp [byte, ahead] at h
    | cons first rest =>
        simp only [byte, ahead, EStateM.Result.ok.injEq] at h
        obtain ⟨rfl, rfl⟩ := h
        exact ⟨trivial, rest, rfl, rfl⟩

theorem inverts_pure (value : α) (write : α → Bytes) {valid : α → Prop}
    (hw : write value = []) (hv : ∀ other, valid other ↔ other = value) :
    Inverts (pure value) write valid where
  read_write := by
    intro position other tail ho
    obtain rfl := (hv other).mp ho
    rw [hw]
    rfl
  write_read := by
    intro position bytes result next h
    cases h
    exact ⟨(hv value).mpr rfl, bytes, by rw [hw]; rfl, by rw [hw]; rfl⟩

/-! ## Composition -/

theorem Inverts.of_iff {reading : Read α} {write : α → Bytes} {valid valid' : α → Prop}
    (h : Inverts reading write valid) (hv : ∀ value, valid' value ↔ valid value) :
    Inverts reading write valid' := by
  rwa [funext fun value => propext (hv value)]

theorem Inverts.map {reading : Read α} {write : α → Bytes} {valid : α → Prop}
    {write' : β → Bytes} {valid' : β → Prop} (h : Inverts reading write valid) (shape : α → β)
    (forth : ∀ value, valid value → valid' (shape value) ∧ write' (shape value) = write value)
    (back : ∀ value, valid' value → ∃ first, valid first ∧ shape first = value) :
    Inverts (shape <$> reading) write' valid' where
  read_write := by
    intro position value tail hv
    obtain ⟨first, hf, rfl⟩ := back value hv
    rw [(forth first hf).2, map_of_ok (h.read_write position first tail hf)]
  write_read := by
    intro position bytes value next hr
    obtain ⟨first, hf, rfl⟩ := map_eq_ok.mp hr
    obtain ⟨hv, tail, hb, hn⟩ := h.write_read position bytes first next hf
    obtain ⟨hv', hw⟩ := forth first hv
    exact ⟨hv', tail, by rw [hw]; exact hb, by rw [hw]; exact hn⟩

/-- Two readings in a row, the second one making the whole value. -/
theorem Inverts.bind {reading : Read α} {write : α → Bytes} {valid : α → Prop}
    {next : α → Read β} {more : α → β → Bytes} {valid' : α → β → Prop} {whole : β → Bytes}
    {sound : β → Prop} (h : Inverts reading write valid)
    (hn : ∀ first, valid first → Inverts (next first) (more first) (valid' first))
    (forth : ∀ first value, valid first → valid' first value →
      sound value ∧ whole value = write first ++ more first value)
    (back : ∀ value, sound value → ∃ first, valid first ∧ valid' first value) :
    Inverts (reading >>= next) whole sound where
  read_write := by
    intro position value tail hs
    obtain ⟨first, hv, hv'⟩ := back value hs
    rw [(forth first value hv hv').2, List.append_assoc,
      bind_of_ok (h.read_write position first _ hv), (hn first hv).read_write _ _ tail hv',
      List.length_append, Nat.add_assoc]
  write_read := by
    intro position bytes value last hr
    obtain ⟨first, middle, hf, hl⟩ := bind_eq_ok.mp hr
    obtain ⟨hv, tail, rfl, rfl⟩ := h.write_read _ _ _ _ hf
    obtain ⟨hv', tail', rfl, rfl⟩ := (hn first hv).write_read _ _ _ _ hl
    obtain ⟨hs, hw⟩ := forth first value hv hv'
    exact ⟨hs, tail', by rw [hw, List.append_assoc],
      by rw [hw, List.length_append, Nat.add_assoc]⟩

/-! ## Repetition -/

theorem timesOnto_read_write {item : Read α} {write : α → Bytes} {valid : α → Prop}
    (h : Inverts item write valid) (values found : List α) (position : Nat) (tail : Bytes)
    (hv : ∀ value ∈ values, valid value) :
    timesOnto item values.length found (ahead position (values.flatMap write ++ tail)) =
      .ok (found.reverse ++ values) (ahead (position + (values.flatMap write).length) tail) := by
  induction values generalizing found position with
  | nil => simp [timesOnto]
  | cons value values ih =>
      have first := h.read_write position value (values.flatMap write ++ tail)
        (hv value List.mem_cons_self)
      simp only [List.flatMap_cons, List.append_assoc, List.length_cons, timesOnto, first]
      rw [ih _ _ fun value hm => hv value (List.mem_cons_of_mem _ hm)]
      simp [Nat.add_assoc]

theorem timesOnto_write_read {item : Read α} {write : α → Bytes} {valid : α → Prop}
    (h : Inverts item write valid) (count : Nat) (found values : List α) (position : Nat)
    (bytes : Bytes) (next : Cursor)
    (hr : timesOnto item count found (ahead position bytes) = .ok values next) :
    ∃ more tail, values = found.reverse ++ more ∧ more.length = count ∧
      (∀ value ∈ more, valid value) ∧ bytes = more.flatMap write ++ tail ∧
      next = ahead (position + (more.flatMap write).length) tail := by
  induction count generalizing found position bytes with
  | zero =>
      simp only [timesOnto, EStateM.Result.ok.injEq] at hr
      obtain ⟨rfl, rfl⟩ := hr
      exact ⟨[], bytes, by simp⟩
  | succ count ih =>
      simp only [timesOnto] at hr
      cases hi : item (ahead position bytes) with
      | error fault middle => simp [hi] at hr
      | ok value middle =>
          obtain ⟨hv, rest, rfl, rfl⟩ := h.write_read _ _ _ _ hi
          simp only [hi] at hr
          obtain ⟨more, tail, rfl, rfl, hm, rfl, rfl⟩ := ih _ _ _ hr
          refine ⟨value :: more, tail, by simp, rfl, ?_, by simp, by simp [Nat.add_assoc]⟩
          simpa [hv] using hm

theorem Inverts.times {item : Read α} {write : α → Bytes} {valid : α → Prop}
    (h : Inverts item write valid) (count : Nat) :
    Inverts (times count item) (·.flatMap write)
      (fun values => values.length = count ∧ ∀ value ∈ values, valid value) where
  read_write := by
    rintro position values tail ⟨rfl, hv⟩
    simpa [Read.times] using timesOnto_read_write h values [] position tail hv
  write_read := by
    intro position bytes values next hr
    obtain ⟨more, tail, rfl, hc, hv, hb, hn⟩ :=
      timesOnto_write_read h count [] values position bytes next hr
    exact ⟨⟨hc, hv⟩, tail, hb, hn⟩

/-! ## Words -/

theorem inverts_word (count : Nat) :
    Inverts (word count) (LittleEndian.bytes count) (· < LittleEndian.capacity count) := by
  refine (inverts_take count).map LittleEndian.value ?_ ?_
  · rintro bytes rfl
    exact ⟨LittleEndian.value_lt bytes, LittleEndian.bytes_value bytes⟩
  · intro number small
    exact ⟨LittleEndian.bytes count number, LittleEndian.length_bytes count number,
      by rw [LittleEndian.value_bytes, Nat.mod_eq_of_lt small]⟩

theorem inverts_uint16 : Inverts uint16 Write.uint16 fun _ => True := by
  refine (inverts_word 2).map UInt16.ofNat ?_ ?_
  · intro number small
    refine ⟨trivial, ?_⟩
    rw [Write.uint16, UInt16.toNat_ofNat_of_lt' small]
  · intro value _
    exact ⟨value.toNat, value.toNat_lt, UInt16.ofNat_toNat⟩

theorem inverts_uint32 : Inverts uint32 Write.uint32 fun _ => True := by
  refine (inverts_word 4).map UInt32.ofNat ?_ ?_
  · intro number small
    refine ⟨trivial, ?_⟩
    rw [Write.uint32, UInt32.toNat_ofNat_of_lt' small]
  · intro value _
    exact ⟨value.toNat, value.toNat_lt, UInt32.ofNat_toNat⟩

theorem inverts_uint64 : Inverts uint64 Write.uint64 fun _ => True := by
  refine (inverts_word 8).map UInt64.ofNat ?_ ?_
  · intro number small
    refine ⟨trivial, ?_⟩
    rw [Write.uint64, UInt64.toNat_ofNat_of_lt' small]
  · intro value _
    exact ⟨value.toNat, value.toNat_lt, UInt64.ofNat_toNat⟩

theorem inverts_signedWord (count : Nat) :
    Inverts (signedWord count) (LittleEndian.signedBytes count) fun number =>
      -(LittleEndian.capacity count : Int) ≤ 2 * number ∧
        2 * number < LittleEndian.capacity count := by
  refine (inverts_take count).map LittleEndian.signedValue ?_ ?_
  · rintro word rfl
    have positive := LittleEndian.capacity_pos word.length
    have low := Int.le_bmod (x := LittleEndian.value word) positive
    have high := Int.bmod_lt (x := LittleEndian.value word) positive
    have halves : LittleEndian.capacity word.length = 1 ∨
        LittleEndian.capacity word.length % 2 = 0 := by
      cases word with
      | nil => simp
      | cons byte rest => rw [List.length_cons, LittleEndian.capacity_succ]; omega
    refine ⟨?_, LittleEndian.signedBytes_signedValue word⟩
    simp only [LittleEndian.signedValue]
    omega
  · rintro number ⟨low, high⟩
    exact ⟨LittleEndian.signedBytes count number, LittleEndian.length_bytes _ _,
      LittleEndian.signedValue_signedBytes low high⟩

/-! ## Several forms -/

/-- A reading accepts exactly the forms of the values it reads, in front of any bytes. -/
def Accepts (reading : Read α) (form : α → Bytes → Prop) : Prop :=
  ∀ (position : Nat) (bytes : Bytes) (value : α) (next : Cursor),
    reading (ahead position bytes) = .ok value next ↔
      ∃ word tail, form value word ∧ bytes = word ++ tail ∧
        next = ahead (position + word.length) tail

theorem Inverts.accepts {reading : Read α} {write : α → Bytes} {valid : α → Prop}
    (h : Inverts reading write valid) :
    Accepts reading fun value word => valid value ∧ word = write value := by
  intro position bytes value next
  constructor
  · intro read
    obtain ⟨sound, tail, rfl, rfl⟩ := h.write_read position bytes value next read
    exact ⟨write value, tail, ⟨sound, rfl⟩, rfl, rfl⟩
  · rintro ⟨word, tail, ⟨sound, rfl⟩, rfl, rfl⟩
    exact h.read_write position value tail sound

theorem Accepts.inverts {reading : Read α} {write : α → Bytes} {valid : α → Prop}
    (h : Accepts reading fun value word => valid value ∧ word = write value) :
    Inverts reading write valid where
  read_write := by
    intro position value tail sound
    exact (h position _ value _).mpr ⟨write value, tail, ⟨sound, rfl⟩, rfl, rfl⟩
  write_read := by
    intro position bytes value next read
    obtain ⟨word, tail, ⟨sound, rfl⟩, rfl, rfl⟩ := (h position bytes value next).mp read
    exact ⟨sound, tail, rfl, rfl⟩

theorem Accepts.of_iff {reading : Read α} {form form' : α → Bytes → Prop}
    (h : Accepts reading form) (same : ∀ value word, form' value word ↔ form value word) :
    Accepts reading form' := by
  intro position bytes value next
  simp only [same]
  exact h position bytes value next

theorem accepts_pure (value : α) :
    Accepts (pure value) fun other word => other = value ∧ word = [] := by
  intro position bytes other next
  constructor
  · intro read
    cases read
    exact ⟨[], bytes, ⟨rfl, rfl⟩, rfl, rfl⟩
  · rintro ⟨word, tail, ⟨rfl, rfl⟩, rfl, rfl⟩
    rfl

theorem accepts_throw (fault : DecodeError) :
    Accepts (throw fault : Read α) fun _ _ => False := by
  intro position bytes value next
  constructor
  · intro read
    cases read
  · rintro ⟨word, tail, none, -⟩
    exact none.elim

theorem Accepts.bind {reading : Read α} {next : α → Read β} {form : α → Bytes → Prop}
    {more : α → β → Bytes → Prop} (h : Accepts reading form)
    (hn : ∀ first, Accepts (next first) (more first)) :
    Accepts (reading >>= next) fun value word =>
      ∃ first front, form first front ∧ ∃ back, more first value back ∧ word = front ++ back := by
  intro position bytes value last
  constructor
  · intro read
    obtain ⟨first, middle, here, there⟩ := bind_eq_ok.mp read
    obtain ⟨front, rest, formed, rfl, rfl⟩ := (h _ _ _ _).mp here
    obtain ⟨back, tail, formed', rfl, rfl⟩ := (hn first _ _ _ _).mp there
    refine ⟨front ++ back, tail, ⟨first, front, formed, back, formed', rfl⟩, ?_, ?_⟩
    · rw [List.append_assoc]
    · rw [List.length_append, Nat.add_assoc]
  · rintro ⟨_, tail, ⟨first, front, formed, back, formed', rfl⟩, rfl, rfl⟩
    rw [List.append_assoc, List.length_append, ← Nat.add_assoc,
      bind_of_ok ((h _ _ _ _).mpr ⟨front, back ++ tail, formed, rfl, rfl⟩)]
    exact (hn first _ _ _ _).mpr ⟨back, tail, formed', rfl, rfl⟩

theorem Accepts.map {reading : Read α} {form : α → Bytes → Prop} (h : Accepts reading form)
    (shape : α → β) :
    Accepts (shape <$> reading) fun value word =>
      ∃ first, form first word ∧ value = shape first := by
  intro position bytes value next
  constructor
  · intro read
    obtain ⟨first, here, rfl⟩ := map_eq_ok.mp read
    obtain ⟨word, tail, formed, rfl, rfl⟩ := (h _ _ _ _).mp here
    exact ⟨word, tail, ⟨first, formed, rfl⟩, rfl, rfl⟩
  · rintro ⟨word, tail, ⟨first, formed, rfl⟩, rfl, rfl⟩
    exact map_of_ok ((h _ _ _ _).mpr ⟨word, tail, formed, rfl, rfl⟩)

/-! ## Texts -/

theorem length_text (value : String) : (Write.text value).length = value.utf8ByteSize := by
  rfl

theorem fromUTF8?_eq_some_iff {bytes : Bytes} {value : String} :
    String.fromUTF8? ⟨bytes.toArray⟩ = some value ↔ bytes = Write.text value := by
  unfold String.fromUTF8? Write.text
  constructor
  · intro h
    split at h
    · cases h
      simp [String.fromUTF8, String.toUTF8]
    · cases h
  · rintro rfl
    have whole : (⟨value.toUTF8.data.toList.toArray⟩ : ByteArray) = value.toUTF8 := by simp
    rw [whole]
    simp [String.fromUTF8, value.isValidUTF8]

theorem text_eq (length : Nat) :
    text length = (do
      let start := (← get).position
      let bytes ← take length
      (String.fromUTF8? ⟨bytes.toArray⟩).elim (throw (.invalidText start)) pure) := by
  unfold text
  refine bind_congr fun cursor => bind_congr fun bytes => ?_
  cases String.fromUTF8? ⟨bytes.toArray⟩ <;> rfl

theorem accepts_text (length : Nat) :
    Accepts (text length) fun value word =>
      value.utf8ByteSize = length ∧ word = Write.text value := by
  have decided (start : Nat) (bytes : Bytes) : Accepts
      ((String.fromUTF8? ⟨bytes.toArray⟩).elim (throw (.invalidText start)) pure)
      fun value word => bytes = Write.text value ∧ word = [] := by
    cases found : String.fromUTF8? ⟨bytes.toArray⟩ with
    | some value =>
        apply (accepts_pure value).of_iff
        intro other word
        rw [← fromUTF8?_eq_some_iff, found, Option.some.injEq, eq_comm]
    | none =>
        apply (accepts_throw _).of_iff
        intro other word
        simp [← fromUTF8?_eq_some_iff, found]
  -- The reading asks where it stands first, for its error.
  have from_here (start : Nat) : Accepts
      (do
        let bytes ← take length
        (String.fromUTF8? ⟨bytes.toArray⟩).elim (throw (.invalidText start)) pure)
      fun value word => value.utf8ByteSize = length ∧ word = Write.text value := by
    apply ((inverts_take length).accepts.bind (decided start)).of_iff
    intro value word
    constructor
    · rintro ⟨rfl, rfl⟩
      exact ⟨Write.text value, _, ⟨length_text value, rfl⟩, [], ⟨rfl, rfl⟩, by simp⟩
    · rintro ⟨_, _, ⟨rfl, rfl⟩, _, ⟨rfl, rfl⟩, rfl⟩
      exact ⟨(length_text value).symm, by simp⟩
  rw [text_eq]
  intro position
  exact from_here position position

theorem inverts_name : Inverts name Write.name fun value => value.utf8ByteSize < 0x10000 := by
  refine Accepts.inverts ?_
  refine (inverts_uint16.accepts.bind fun length => accepts_text length.toNat).of_iff ?_
  intro value word
  constructor
  · rintro ⟨small, rfl⟩
    refine ⟨UInt16.ofNat value.utf8ByteSize, _, ⟨trivial, rfl⟩, _, ⟨?_, rfl⟩, ?_⟩
    · exact (UInt16.toNat_ofNat_of_lt' small).symm
    · rw [Write.uint16, UInt16.toNat_ofNat_of_lt' small]
      rfl
  · rintro ⟨length, _, ⟨-, rfl⟩, _, ⟨size, rfl⟩, rfl⟩
    rw [size]
    exact ⟨length.toNat_lt, by rw [Write.name, size]; rfl⟩

end Read

end ObjectMachine
