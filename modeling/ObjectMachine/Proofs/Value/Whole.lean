import Mathlib.Data.Int.ModEq
import Mathlib.Tactic.Positivity
import Mathlib.Tactic.Ring
import ObjectMachine.Value.Number

/-!
# Whole numbers

A whole number is of one of five kinds, each with a width and with or without a sign. Two of them
are computed with in the kind that they have in common: the exact result is reduced into the range
of that kind, and only a divisor of zero has none.
-/

namespace ObjectMachine

/-! ## Kinds -/

inductive WholeKind
  | byte
  | char
  | short
  | int
  | long
deriving DecidableEq, Repr

namespace WholeKind

variable {kind kind' : WholeKind} {number exact : Int}

def width : WholeKind → Nat
  | byte => 8
  | char | short => 16
  | int => 32
  | long => 64

def least : WholeKind → Int
  | byte | char => 0
  | short => -2 ^ 15
  | int => -2 ^ 31
  | long => -2 ^ 63

def Holds (kind : WholeKind) (number : Int) : Prop :=
  kind.least ≤ number ∧ number < kind.least + 2 ^ kind.width

/-- The number in the range of the kind that is the same modulo its width. -/
def reduce (kind : WholeKind) (exact : Int) : Int :=
  (exact - kind.least) % 2 ^ kind.width + kind.least

/-- The kind in which two numbers are computed with: that of both, or else long if one of them is
long, or else int. -/
def common (kind kind' : WholeKind) : WholeKind :=
  if kind = kind' then kind else if kind = long ∨ kind' = long then long else int

theorem common_comm (kind kind' : WholeKind) : kind.common kind' = kind'.common kind := by
  cases kind <;> cases kind' <;> rfl

theorem common_of_wide (wide : kind = kind' → kind = int ∨ kind = long) :
    kind.common kind' = if kind = long ∨ kind' = long then long else int := by
  cases kind <;> cases kind' <;> first
    | rfl
    | exact absurd (wide rfl) (by decide)

theorem reduce_eq_iff :
    kind.reduce exact = number ↔ kind.Holds number ∧ number ≡ exact [ZMOD 2 ^ kind.width] := by
  have positive : (0 : Int) < 2 ^ kind.width := by positivity
  unfold reduce Holds
  constructor
  · rintro rfl
    have low := Int.emod_nonneg (exact - kind.least) positive.ne'
    have high := Int.emod_lt_of_pos (exact - kind.least) positive
    refine ⟨⟨by omega, by omega⟩, ?_⟩
    calc (exact - kind.least) % 2 ^ kind.width + kind.least
        ≡ exact - kind.least + kind.least [ZMOD 2 ^ kind.width] :=
          (Int.mod_modEq _ _).add_right _
      _ = exact := Int.sub_add_cancel _ _
  · rintro ⟨⟨low, high⟩, same⟩
    have shifted : (exact - kind.least) % 2 ^ kind.width = (number - kind.least) % 2 ^ kind.width :=
      (same.sub_right _).symm
    rw [shifted, Int.emod_eq_of_lt (by omega) (by omega), Int.sub_add_cancel]

end WholeKind

namespace ArithmeticOp

/-- The result of an operation on integers of any size. A quotient is truncated toward zero, and a
remainder has the sign of the dividend. -/
def exact : ArithmeticOp → Int → Int → Int
  | add, x, y => x + y
  | sub, x, y => x - y
  | mul, x, y => x * y
  | div, x, y => x.tdiv y
  | mod, x, y => x.tmod y

def divides : ArithmeticOp → Bool
  | div | mod => true
  | _ => false

end ArithmeticOp

namespace Value

/-! ## Machine words -/

section Words

variable {ν : Type} [BEq ν] [OfNat ν 0] [Add ν] [Sub ν] [Mul ν] [Div ν] [Mod ν] {kind : WholeKind}

/-- Whether a type of machine words stands for the numbers of a kind and computes with them modulo
the width of the kind. -/
structure Represents (kind : WholeKind) (toInt : ν → Int) : Prop where
  holds (a : ν) : kind.Holds (toInt a)
  zero (a : ν) : a == 0 ↔ toInt a = 0
  add (a b : ν) : toInt (a + b) ≡ toInt a + toInt b [ZMOD 2 ^ kind.width]
  sub (a b : ν) : toInt (a - b) ≡ toInt a - toInt b [ZMOD 2 ^ kind.width]
  mul (a b : ν) : toInt (a * b) ≡ toInt a * toInt b [ZMOD 2 ^ kind.width]
  div (a b : ν) : toInt (a / b) ≡ (toInt a).tdiv (toInt b) [ZMOD 2 ^ kind.width]
  mod (a b : ν) : toInt (a % b) ≡ (toInt a).tmod (toInt b) [ZMOD 2 ^ kind.width]

/-- Words without a sign. -/
theorem represents_of_toNat {toNat : ν → Nat} (least : kind.least = 0)
    (bounded : ∀ a, toNat a < 2 ^ kind.width) (zero : ∀ a, a == 0 ↔ toNat a = 0)
    (add : ∀ a b, toNat (a + b) = (toNat a + toNat b) % 2 ^ kind.width)
    (sub : ∀ a b, toNat (a - b) = (2 ^ kind.width - toNat b + toNat a) % 2 ^ kind.width)
    (mul : ∀ a b, toNat (a * b) = toNat a * toNat b % 2 ^ kind.width)
    (div : ∀ a b, toNat (a / b) = toNat a / toNat b)
    (mod : ∀ a b, toNat (a % b) = toNat a % toNat b) :
    Represents kind fun a => (toNat a : Int) where
  holds a := by
    rw [WholeKind.Holds, least, zero_add]
    exact ⟨Int.natCast_nonneg _, by exact_mod_cast bounded a⟩
  zero a := (zero a).trans Int.natCast_eq_zero.symm
  add a b := by
    rw [add]
    push_cast
    exact Int.mod_modEq _ _
  sub a b := by
    rw [sub]
    push_cast [(bounded b).le]
    refine (Int.mod_modEq _ _).trans (Int.modEq_iff_dvd.mpr ⟨-1, ?_⟩)
    ring
  mul a b := by
    rw [mul]
    push_cast
    exact Int.mod_modEq _ _
  div a b := by
    rw [div, Int.natCast_ediv, Int.tdiv_eq_ediv_of_nonneg (Int.natCast_nonneg _)]
  mod a b := by
    rw [mod, Int.natCast_emod, Int.tmod_eq_emod_of_nonneg (Int.natCast_nonneg _)]

/-- Words with a sign. Of the two that divide, only the quotient may leave the range. -/
theorem represents_of_toInt {toInt : ν → Int} (holds : ∀ a, kind.Holds (toInt a))
    (zero : ∀ a, a == 0 ↔ toInt a = 0)
    (add : ∀ a b, toInt (a + b) = (toInt a + toInt b).bmod (2 ^ kind.width))
    (sub : ∀ a b, toInt (a - b) = (toInt a - toInt b).bmod (2 ^ kind.width))
    (mul : ∀ a b, toInt (a * b) = (toInt a * toInt b).bmod (2 ^ kind.width))
    (div : ∀ a b, toInt (a / b) = ((toInt a).tdiv (toInt b)).bmod (2 ^ kind.width))
    (mod : ∀ a b, toInt (a % b) = (toInt a).tmod (toInt b)) : Represents kind toInt := by
  have wraps (exact : Int) : exact.bmod (2 ^ kind.width) ≡ exact [ZMOD 2 ^ kind.width] := by
    have same := Int.bmod_emod (x := exact) (m := 2 ^ kind.width)
    push_cast at same
    exact same
  exact {
    holds, zero
    add := fun a b => add a b ▸ wraps _
    sub := fun a b => sub a b ▸ wraps _
    mul := fun a b => mul a b ▸ wraps _
    div := fun a b => div a b ▸ wraps _
    mod := fun a b => mod a b ▸ .rfl }

/-- A whole operation has the exact result, reduced into the range of the kind. -/
theorem Represents.wholeResult {toInt : ν → Int} (h : Represents kind toInt) (op : ArithmeticOp)
    (a b : ν) :
    if op.divides ∧ toInt b = 0 then wholeResult op a b = .error .divisionByZero
    else ∃ result, wholeResult op a b = .ok result ∧
      toInt result = kind.reduce (op.exact (toInt a) (toInt b)) := by
  have reduced {result : ν} {exact : Int} (same : toInt result ≡ exact [ZMOD 2 ^ kind.width]) :
      toInt result = kind.reduce exact :=
    (WholeKind.reduce_eq_iff.mpr ⟨h.holds result, same⟩).symm
  cases op with
  | add => exact ⟨_, rfl, reduced (h.add a b)⟩
  | sub => exact ⟨_, rfl, reduced (h.sub a b)⟩
  | mul => exact ⟨_, rfl, reduced (h.mul a b)⟩
  | div =>
      split
      · next zero => exact if_pos ((h.zero b).mpr zero.2)
      · next apart =>
          exact ⟨_, if_neg fun zero => apart ⟨rfl, (h.zero b).mp zero⟩, reduced (h.div a b)⟩
  | mod =>
      split
      · next zero => exact if_pos ((h.zero b).mpr zero.2)
      · next apart =>
          exact ⟨_, if_neg fun zero => apart ⟨rfl, (h.zero b).mp zero⟩, reduced (h.mod a b)⟩

end Words

theorem represents_byte : Represents .byte fun a : UInt8 => (a.toNat : Int) :=
  represents_of_toNat rfl UInt8.toNat_lt (fun _ => by rw [beq_iff_eq, ← UInt8.toNat_inj]; rfl)
    UInt8.toNat_add UInt8.toNat_sub UInt8.toNat_mul UInt8.toNat_div UInt8.toNat_mod

theorem represents_char : Represents .char fun a : UInt16 => (a.toNat : Int) :=
  represents_of_toNat rfl UInt16.toNat_lt (fun _ => by rw [beq_iff_eq, ← UInt16.toNat_inj]; rfl)
    UInt16.toNat_add UInt16.toNat_sub UInt16.toNat_mul UInt16.toNat_div UInt16.toNat_mod

theorem represents_short : Represents .short Int16.toInt :=
  represents_of_toInt (fun a => ⟨a.le_toInt, a.toInt_lt⟩)
    (fun _ => by rw [beq_iff_eq, ← Int16.toInt_inj]; rfl)
    Int16.toInt_add Int16.toInt_sub Int16.toInt_mul Int16.toInt_div Int16.toInt_mod

theorem represents_int : Represents .int Int32.toInt :=
  represents_of_toInt (fun a => ⟨a.le_toInt, a.toInt_lt⟩)
    (fun _ => by rw [beq_iff_eq, ← Int32.toInt_inj]; rfl)
    Int32.toInt_add Int32.toInt_sub Int32.toInt_mul Int32.toInt_div Int32.toInt_mod

theorem represents_long : Represents .long Int64.toInt :=
  represents_of_toInt (fun a => ⟨a.le_toInt, a.toInt_lt⟩)
    (fun _ => by rw [beq_iff_eq, ← Int64.toInt_inj]; rfl)
    Int64.toInt_add Int64.toInt_sub Int64.toInt_mul Int64.toInt_div Int64.toInt_mod

/-! ## Whole values -/

variable {a b : Value} {kind kind' : WholeKind}

def wholeKind? : Value → Option WholeKind
  | byte _ => some .byte
  | char _ => some .char
  | short _ => some .short
  | int _ => some .int
  | long _ => some .long
  | _ => none

def IsWhole (value : Value) (kind : WholeKind) (integer : Int) : Prop :=
  value.wholeKind? = some kind ∧ ∃ number, value.asInteger? = some number ∧ number.toInt = integer

theorem isWhole_of_toNat {count : Nat} (small : count < 2 ^ 16) (ofKind : a.wholeKind? = some kind)
    (holds : a.asInteger? = some (Int64.ofNat count)) : a.IsWhole kind count :=
  ⟨ofKind, _, holds, Int64.toInt_ofNat_of_lt (by omega)⟩

theorem isWhole_byte (value : UInt8) : (byte value).IsWhole .byte value.toNat :=
  isWhole_of_toNat (value.toNat_lt.trans (by decide)) rfl rfl

theorem isWhole_char (value : UInt16) : (char value).IsWhole .char value.toNat :=
  isWhole_of_toNat value.toNat_lt rfl rfl

theorem isWhole_short (value : Int16) : (short value).IsWhole .short value.toInt :=
  ⟨rfl, _, rfl, Int16.toInt_toInt64 value⟩

theorem isWhole_int (value : Int32) : (int value).IsWhole .int value.toInt :=
  ⟨rfl, _, rfl, Int32.toInt_toInt64 value⟩

theorem isWhole_long (value : Int64) : (long value).IsWhole .long value.toInt :=
  ⟨rfl, _, rfl, rfl⟩

/-- A value of a whole kind holds a number of that kind. -/
theorem exists_isWhole (ofKind : a.wholeKind? = some kind) :
    ∃ integer, a.IsWhole kind integer ∧ kind.Holds integer := by
  cases a with
  | byte value => cases ofKind; exact ⟨_, isWhole_byte value, represents_byte.holds value⟩
  | char value => cases ofKind; exact ⟨_, isWhole_char value, represents_char.holds value⟩
  | short value => cases ofKind; exact ⟨_, isWhole_short value, represents_short.holds value⟩
  | int value => cases ofKind; exact ⟨_, isWhole_int value, represents_int.holds value⟩
  | long value => cases ofKind; exact ⟨_, isWhole_long value, represents_long.holds value⟩
  | _ => cases ofKind

/-- A value that holds a whole number is of a whole kind. -/
theorem exists_isWhole_of_asInteger? {number : Int64} (holds : a.asInteger? = some number) :
    ∃ kind, a.IsWhole kind number.toInt := by
  cases a <;> first
    | exact ⟨_, rfl, number, holds, rfl⟩
    | cases holds

theorem IsWhole.unique {x y : Int} (whole : a.IsWhole kind x) (whole' : a.IsWhole kind' y) :
    x = y := by
  obtain ⟨-, number, holds, rfl⟩ := whole
  obtain ⟨-, number', holds', rfl⟩ := whole'
  rw [Option.some.inj (holds.symm.trans holds')]

theorem IsWhole.holds {integer : Int} (whole : a.IsWhole kind integer) : kind.Holds integer := by
  obtain ⟨other, whole', bounded⟩ := exists_isWhole whole.1
  exact whole.unique whole' ▸ bounded

/-- A kind that is not long fits in an int. -/
theorem IsWhole.toInt32 {integer : Int} (whole : a.IsWhole kind integer) (narrow : kind ≠ .long) :
    a.toInteger.toInt32.toInt = integer := by
  have bounded := whole.holds
  obtain ⟨-, number, holds, rfl⟩ := whole
  rw [toInteger, holds, Option.getD_some, Int64.toInt_toInt32]
  cases kind with
  | long => exact absurd rfl narrow
  | _ =>
      simp only [WholeKind.Holds, WholeKind.least, WholeKind.width] at bounded
      exact Int.bmod_eq_of_le (by omega) (by omega)

theorem IsWhole.toInteger {integer : Int} (whole : a.IsWhole kind integer) :
    a.toInteger.toInt = integer := by
  obtain ⟨-, number, holds, rfl⟩ := whole
  rw [Value.toInteger, holds, Option.getD_some]

end Value

/-! ## Pairs -/

/-- What a pair of whole numbers stands for. -/
def NumberPair.wholes? : NumberPair → Option (WholeKind × Int × Int)
  | bytes a b => some (.byte, a.toNat, b.toNat)
  | chars a b => some (.char, a.toNat, b.toNat)
  | shorts a b => some (.short, a.toInt, b.toInt)
  | ints a b => some (.int, a.toInt, b.toInt)
  | longs a b => some (.long, a.toInt, b.toInt)
  | doubles _ _ => none

namespace Value

variable {a b : Value} {kind kind' : WholeKind} {x y : Int}

/-- Values become ints, or longs if one of them is long, unless both are of one narrower kind. -/
theorem promote_of_wide (first : a.wholeKind? = some kind) (second : b.wholeKind? = some kind')
    (wide : kind = kind' → kind = .int ∨ kind = .long) :
    promote a b = if kind = .long ∨ kind' = .long then some (.longs a.toInteger b.toInteger)
      else some (.ints a.toInteger.toInt32 b.toInteger.toInt32) := by
  cases a <;> cases first <;> cases b <;> cases second <;> first
    | exact absurd (wide rfl) (by decide)
    | rfl

/-- Two whole numbers are promoted to their common kind, and neither is changed by that. -/
theorem promote_whole (first : a.IsWhole kind x) (second : b.IsWhole kind' y) :
    ∃ pair, promote a b = some pair ∧ pair.wholes? = some (kind.common kind', x, y) := by
  by_cases wide : kind = kind' → kind = .int ∨ kind = .long
  · rw [promote_of_wide first.1 second.1 wide, WholeKind.common_of_wide wide]
    split
    · exact ⟨_, rfl, by rw [NumberPair.wholes?, first.toInteger, second.toInteger]⟩
    · next narrow =>
        obtain ⟨narrow, narrow'⟩ := not_or.mp narrow
        exact ⟨_, rfl, by rw [NumberPair.wholes?, first.toInt32 narrow, second.toInt32 narrow']⟩
  · obtain ⟨rfl, narrow⟩ := Classical.not_imp.mp wide
    rw [WholeKind.common, if_pos rfl]
    have ofKind := first.1
    have ofKind' := second.1
    cases a <;> cases ofKind <;> cases b <;> cases ofKind'
    case byte.refl.byte.refl v w =>
      exact ⟨_, rfl, by rw [first.unique (isWhole_byte v), second.unique (isWhole_byte w)]; rfl⟩
    case char.refl.char.refl v w =>
      exact ⟨_, rfl, by rw [first.unique (isWhole_char v), second.unique (isWhole_char w)]; rfl⟩
    case short.refl.short.refl v w =>
      exact ⟨_, rfl, by rw [first.unique (isWhole_short v), second.unique (isWhole_short w)]; rfl⟩
    all_goals exact absurd (by decide) narrow

/-! ## Arithmetic -/

/-- Whether the outcome of an operation on whole numbers is the exact result, reduced into the range
of the kind. -/
def Computes (kind : WholeKind) (op : ArithmeticOp) (x y : Int) (outcome : Except Fault Value) :
    Prop :=
  if op.divides ∧ y = 0 then outcome = .error .divisionByZero
  else ∃ result, outcome = .ok result ∧ result.IsWhole kind (kind.reduce (op.exact x y))

theorem Represents.computes {ν : Type} [BEq ν] [OfNat ν 0] [Add ν] [Sub ν] [Mul ν] [Div ν] [Mod ν]
    {toInt : ν → Int} (h : Represents kind toInt) {toValue : ν → Value}
    (whole : ∀ word, (toValue word).IsWhole kind (toInt word)) (op : ArithmeticOp) (a b : ν) :
    Computes kind op (toInt a) (toInt b) (toValue <$> Value.wholeResult op a b) := by
  have outcome := h.wholeResult op a b
  unfold Computes
  split at outcome
  · next divides =>
      rw [if_pos divides, outcome]
      rfl
  · next apart =>
      obtain ⟨word, same, reduced⟩ := outcome
      rw [if_neg apart, same]
      exact ⟨_, rfl, reduced ▸ whole word⟩

theorem computes_arithmetic {pair : NumberPair} (promoted : promote a b = some pair)
    (wholes : pair.wholes? = some (kind, x, y)) (op : ArithmeticOp) :
    Computes kind op x y (arithmetic op a b) := by
  unfold arithmetic
  rw [promoted]
  cases pair with
  | bytes a b => cases wholes; exact represents_byte.computes isWhole_byte op a b
  | chars a b => cases wholes; exact represents_char.computes isWhole_char op a b
  | shorts a b => cases wholes; exact represents_short.computes isWhole_short op a b
  | ints a b => cases wholes; exact represents_int.computes isWhole_int op a b
  | longs a b => cases wholes; exact represents_long.computes isWhole_long op a b
  | doubles a b => cases wholes

theorem Computes.wholeKind_eq {outcome : Except Fault Value} {op : ArithmeticOp}
    (computes : Computes kind op x y outcome) {result : Value} (ok : outcome = .ok result) :
    result.wholeKind? = some kind := by
  unfold Computes at computes
  split at computes
  · rw [computes] at ok
    cases ok
  · obtain ⟨_, same, whole⟩ := computes
    rw [same] at ok
    cases ok
    exact whole.1

/-- **Whole arithmetic is exact modulo the width of the common kind.** An operation on two whole
numbers of any kinds fails only when it divides by zero. Its result otherwise is of their common
kind, and it is the exact result reduced into the range of that kind. The order of the operands
does not change the kind of the result. -/
theorem arithmetic_whole (first : a.wholeKind? = some kind) (second : b.wholeKind? = some kind')
    (op : ArithmeticOp) :
    ∃ x y, a.asInteger? = some x ∧ b.asInteger? = some y ∧
      (if op.divides ∧ y = 0 then arithmetic op a b = .error .divisionByZero
        else ∃ result number, arithmetic op a b = .ok result ∧
          result.wholeKind? = some (kind.common kind') ∧ result.asInteger? = some number ∧
          number.toInt = (kind.common kind').reduce (op.exact x.toInt y.toInt)) ∧
      ∀ result result', arithmetic op a b = .ok result → arithmetic op b a = .ok result' →
        result.wholeKind? = result'.wholeKind? := by
  obtain ⟨_, whole, -⟩ := exists_isWhole first
  obtain ⟨_, whole', -⟩ := exists_isWhole second
  obtain ⟨pair, promoted, wholes⟩ := promote_whole whole whole'
  obtain ⟨pair', promoted', wholes'⟩ := promote_whole whole' whole
  have computes := computes_arithmetic promoted wholes op
  have computes' := computes_arithmetic promoted' wholes' op
  obtain ⟨-, x, holds, rfl⟩ := whole
  obtain ⟨-, y, holds', rfl⟩ := whole'
  refine ⟨x, y, holds, holds', ?_, fun result result' ok ok' => ?_⟩
  · have zero : y.toInt = 0 ↔ y = 0 := Int64.toInt_inj (y := 0)
    simp only [Computes, IsWhole, zero] at computes
    split at computes
    · next divides => exact (if_pos divides).symm ▸ computes
    · next apart =>
        obtain ⟨result, ok, ofKind, number, found, same⟩ := computes
        exact (if_neg apart).symm ▸ ⟨result, number, ok, ofKind, found, same⟩
  · rw [computes.wholeKind_eq ok, computes'.wholeKind_eq ok', WholeKind.common_comm]

/-- The least long divided by minus one is itself, since the quotient wraps around. -/
theorem arithmetic_whole_least :
    (long Int64.minValue).wholeKind? = some .long ∧ (int (-1)).wholeKind? = some .int ∧
      arithmetic .div (long Int64.minValue) (int (-1)) = .ok (long Int64.minValue) ∧
      ∃ result number,
        arithmetic .div (long Int64.minValue) (int (-1)) = .ok result ∧
        result.asInteger? = some number ∧ number.toInt = WholeKind.long.reduce (2 ^ 63) := by
  refine ⟨rfl, rfl, by decide +kernel, ?_⟩
  obtain ⟨x, y, holds, holds', outcome, -⟩ :=
    arithmetic_whole (a := long Int64.minValue) (b := int (-1)) rfl rfl .div
  obtain rfl := Option.some.inj holds
  obtain rfl := Option.some.inj holds'
  rw [if_neg (by decide +kernel)] at outcome
  obtain ⟨result, number, ok, -, found, same⟩ := outcome
  exact ⟨result, number, ok, found, same⟩

end Value

end ObjectMachine
