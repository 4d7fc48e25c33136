/-!
# Little-endian words

Numbers are stored lowest byte first. Writing a fixed number of bytes keeps the number modulo
what they can hold, and reading is its inverse on strings of that length.
-/

namespace ObjectMachine

/-- A byte string. -/
abbrev Bytes := List UInt8

namespace LittleEndian

/-- How many numbers `count` bytes can hold. -/
def capacity (count : Nat) : Nat := 1 <<< (8 * count)

/-- The `count` lowest bytes of `number`, lowest first. -/
def bytes : Nat → Nat → Bytes
  | 0, _ => []
  | count + 1, number => UInt8.ofNat number :: bytes count (number / 256)

/-- The number whose bytes are given, lowest first. -/
def value : Bytes → Nat
  | [] => 0
  | byte :: rest => byte.toNat + 256 * value rest

/-- The number whose two's complement bytes are given, lowest first. -/
def signedValue (word : Bytes) : Int :=
  Int.bmod (value word) (capacity word.length)

@[simp] theorem capacity_zero : capacity 0 = 1 := rfl

theorem capacity_succ (count : Nat) : capacity (count + 1) = 256 * capacity count := by
  simp only [capacity, Nat.shiftLeft_eq, Nat.mul_add, Nat.pow_add]
  omega

@[simp] theorem length_bytes (count number : Nat) : (bytes count number).length = count := by
  induction count generalizing number with
  | zero => rfl
  | succ count ih => simp [bytes, ih]

theorem value_lt (word : Bytes) : value word < capacity word.length := by
  induction word with
  | nil => simp [value]
  | cons byte rest ih =>
    have := byte.toNat_lt
    simp only [value, List.length_cons, capacity_succ]
    omega

theorem value_bytes (count number : Nat) :
    value (bytes count number) = number % capacity count := by
  induction count generalizing number with
  | zero => simp [bytes, value, Nat.mod_one]
  | succ count ih =>
    have lowest : (UInt8.ofNat number).toNat = number % 256 := UInt8.toNat_ofNat'
    rw [bytes, value, ih, lowest, capacity_succ, Nat.mod_mul]

theorem bytes_value (word : Bytes) : bytes word.length (value word) = word := by
  induction word with
  | nil => rfl
  | cons byte rest ih =>
    have h : (byte.toNat + 256 * value rest) / 256 = value rest := by
      have := byte.toNat_lt
      omega
    have hb : UInt8.ofNat (byte.toNat + 256 * value rest) = byte := by
      apply UInt8.toNat_inj.mp
      have := byte.toNat_lt
      rw [UInt8.toNat_ofNat']
      omega
    simp [bytes, value, h, hb, ih]

end LittleEndian

end ObjectMachine
