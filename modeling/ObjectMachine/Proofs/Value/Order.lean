import Mathlib.Algebra.Order.Field.Power
import Mathlib.Data.List.Lex
import Mathlib.Data.Rat.Cast.Order
import Mathlib.Order.Compare
import Mathlib.Order.WithBot
import ObjectMachine.Proofs.Value.Whole

/-!
# The order of values

A comparison asks for the verdict on two values: their order, or that they are equal or not, or that
they cannot be compared. Whole numbers are in the order of the integers, doubles in that of the
numbers they stand for, and texts in that of their bytes.
-/

namespace ObjectMachine

/-! ## Operators -/

namespace ComparisonOp

/-- The relation that an operator stands for. -/
def Relates {α : Type} [LT α] [LE α] : ComparisonOp → α → α → Prop
  | eq, x, y => x = y
  | ne, x, y => x ≠ y
  | lt, x, y => x < y
  | le, x, y => x ≤ y
  | gt, x, y => y < x
  | ge, x, y => y ≤ x

def mirrored : ComparisonOp → ComparisonOp
  | eq => eq
  | ne => ne
  | lt => gt
  | le => ge
  | gt => lt
  | ge => le

theorem holds_iff {α : Type} [PartialOrder α] {x y : α} {order : Ordering}
    (compares : order.Compares x y) (op : ComparisonOp) : op.holds order ↔ op.Relates x y := by
  cases order with
  | lt =>
      have less : x < y := compares
      cases op <;> simp [holds, Relates, less, less.ne, less.le, less.not_gt, less.not_ge]
  | eq =>
      obtain rfl : x = y := compares
      cases op <;> simp [holds, Relates]
  | gt =>
      have greater : y < x := compares
      cases op <;> simp [holds, Relates, greater, greater.ne', greater.le, greater.not_gt,
        greater.not_ge]

theorem holds_mirrored (op : ComparisonOp) (order : Ordering) :
    op.mirrored.holds order.swap = op.holds order := by
  cases op <;> cases order <;> rfl

end ComparisonOp

/-- An order that is decided by a strict order is that of the numbers stood for. -/
theorem compareOfLessAndEq_compares {ν α : Type} [LT ν] [DecidableEq ν] [LinearOrder α]
    {value : ν → α} (less : ∀ x y, x < y ↔ value x < value y)
    (injective : Function.Injective value) (x y : ν) [Decidable (x < y)] :
    (compareOfLessAndEq x y).Compares (value x) (value y) := by
  unfold compareOfLessAndEq
  split
  · next before => exact (less x y).mp before
  · next notBefore =>
      split
      · next same => exact congrArg value same
      · next apart =>
          exact lt_of_le_of_ne (not_lt.mp fun before => notBefore ((less x y).mpr before))
            fun same => apart (injective same).symm

/-! ## Doubles -/

namespace Binary64

/-- The number with a mantissa and an exponent. -/
def rational (negative : Bool) (mantissa : Nat) (exponent : Int) : ℚ :=
  (if negative then -1 else 1) * mantissa * 2 ^ exponent

/-- The number that a double stands for, between minus and plus infinity. -/
def value? : Binary64 → Option (WithBot (WithTop ℚ))
  | finite negative mantissa exponent => some ↑(↑(rational negative mantissa exponent) : WithTop ℚ)
  | infinite true => some ⊥
  | infinite false => some ⊤
  | nan => none

theorem rational_eq_units {negative : Bool} {mantissa : Nat} {exponent unit : Int}
    (above : unit ≤ exponent) :
    rational negative mantissa exponent =
      signedUnits negative mantissa exponent unit * 2 ^ unit := by
  obtain ⟨places, rfl⟩ := Int.le.dest above
  have units : (↑(mantissa <<< (unit + places - unit).toNat) : ℚ) = mantissa * 2 ^ places := by
    rw [Nat.shiftLeft_eq, add_sub_cancel_left, Int.toNat_natCast]
    push_cast
    rfl
  unfold rational signedUnits
  rw [zpow_add₀ two_ne_zero, zpow_natCast]
  split
  · rw [Int.cast_neg, Int.cast_natCast, units]
    ring
  · rw [Int.cast_natCast, units]
    ring

theorem finite_compares (negative negative' : Bool) (mantissa mantissa' : Nat)
    (exponent exponent' : Int) :
    (compare (signedUnits negative mantissa exponent (min exponent exponent'))
      (signedUnits negative' mantissa' exponent' (min exponent exponent'))).Compares
      (rational negative mantissa exponent) (rational negative' mantissa' exponent') := by
  have monotone : StrictMono fun units : Int => (units : ℚ) * 2 ^ min exponent exponent' :=
    fun _ _ less => mul_lt_mul_of_pos_right (Int.cast_lt.mpr less) (zpow_pos two_pos _)
  rw [rational_eq_units (min_le_left exponent exponent'),
    rational_eq_units (min_le_right exponent exponent')]
  exact monotone.compares.mpr
    (compareOfLessAndEq_compares (fun _ _ => Iff.rfl) Function.injective_id _ _)

/-- Doubles are in the order of the numbers that they stand for. -/
theorem order_compares {x y : Binary64} {v w : WithBot (WithTop ℚ)} (first : x.value? = some v)
    (second : y.value? = some w) :
    ∃ order, Binary64.order x y = some order ∧ order.Compares v w := by
  have below (number : ℚ) : ((number : WithTop ℚ) : WithBot (WithTop ℚ)) < ⊤ :=
    WithBot.coe_lt_coe.mpr (WithTop.coe_lt_top number)
  have above (number : ℚ) : ⊥ < ((number : WithTop ℚ) : WithBot (WithTop ℚ)) :=
    WithBot.bot_lt_coe _
  cases x with
  | nan => cases first
  | infinite negative =>
      cases y with
      | nan => cases second
      | infinite negative' =>
          cases negative <;> cases negative' <;> cases first <;> cases second
          · exact ⟨.eq, rfl, rfl⟩
          · exact ⟨.gt, rfl, bot_lt_top⟩
          · exact ⟨.lt, rfl, bot_lt_top⟩
          · exact ⟨.eq, rfl, rfl⟩
      | finite =>
          cases negative <;> cases first <;> cases second
          · exact ⟨.gt, rfl, below _⟩
          · exact ⟨.lt, rfl, above _⟩
  | finite =>
      cases first
      cases y with
      | nan => cases second
      | infinite negative =>
          cases negative <;> cases second
          · exact ⟨.lt, rfl, below _⟩
          · exact ⟨.gt, rfl, above _⟩
      | finite =>
          cases second
          have monotone : StrictMono fun number : ℚ =>
              ((number : WithTop ℚ) : WithBot (WithTop ℚ)) :=
            WithBot.coe_strictMono.comp WithTop.coe_strictMono
          exact ⟨_, rfl, monotone.compares.mpr (finite_compares ..)⟩

theorem order_of_nan {x y : Binary64} (nan : x.value? = none ∨ y.value? = none) :
    Binary64.order x y = none := by
  have isNan {z : Binary64} (none : z.value? = none) : z = .nan := by
    cases z with
    | nan => rfl
    | infinite negative => cases negative <;> cases none
    | finite => cases none
  rcases nan with none | none
  · rw [isNan none]
    rfl
  · rw [isNan none]
    cases x <;> rfl

theorem order_swap (x y : Binary64) :
    Binary64.order y x = (Binary64.order x y).map Ordering.swap := by
  cases first : x.value? with
  | none => rw [order_of_nan (.inl first), order_of_nan (.inr first), Option.map_none]
  | some v =>
      cases second : y.value? with
      | none => rw [order_of_nan (.inl second), order_of_nan (.inr second), Option.map_none]
      | some w =>
          obtain ⟨order, same, compares⟩ := order_compares first second
          obtain ⟨order', same', compares'⟩ := order_compares second first
          rw [same, same', Option.map_some, compares'.inj (Ordering.compares_swap.mpr compares)]

end Binary64

/-! ## Verdicts -/

/-- What a comparison is decided by. -/
inductive Verdict
  | ordered (order : Ordering)
  /-- One of two numbers is none. -/
  | unordered
  /-- Two things that have no order are equal or not. -/
  | equal (same : Bool)
  | incomparable
deriving DecidableEq, Repr

namespace Verdict

def holds? : Verdict → ComparisonOp → Option Bool
  | ordered order, op => some (op.holds order)
  | unordered, op => some (op == .ne)
  | equal same, op => if op.isEquality then some (same == (op == .eq)) else none
  | incomparable, _ => none

def swap : Verdict → Verdict
  | ordered order => ordered order.swap
  | other => other

theorem holds?_ne (verdict : Verdict) : verdict.holds? .ne = (verdict.holds? .eq).map not := by
  cases verdict with
  | equal same => cases same <;> rfl
  | _ => rfl

theorem holds?_le (verdict : Verdict) : verdict.holds? .le =
    (verdict.holds? .lt).bind fun less => (verdict.holds? .eq).map (less || ·) := by
  cases verdict with
  | ordered order => cases order <;> rfl
  | _ => rfl

theorem holds?_ge (verdict : Verdict) : verdict.holds? .ge =
    (verdict.holds? .gt).bind fun greater => (verdict.holds? .eq).map (greater || ·) := by
  cases verdict with
  | ordered order => cases order <;> rfl
  | _ => rfl

theorem holds?_swap (verdict : Verdict) (op : ComparisonOp) :
    verdict.swap.holds? op.mirrored = verdict.holds? op := by
  cases verdict with
  | ordered order => exact congrArg some (op.holds_mirrored order)
  | _ => cases op <;> rfl

end Verdict

namespace NumberPair

def swap : NumberPair → NumberPair
  | bytes a b => bytes b a
  | chars a b => chars b a
  | shorts a b => shorts b a
  | ints a b => ints b a
  | longs a b => longs b a
  | doubles a b => doubles b a

end NumberPair

namespace Value

variable {a b : Value} {kind kind' : WholeKind} {x y : Int}

def pairVerdict (pair : NumberPair) : Verdict :=
  (pairOrder pair).elim .unordered .ordered

def plainVerdict : Value → Value → Verdict
  | text a, text b => .ordered (textOrder a b)
  | a, b => (equal? a b).elim .incomparable .equal

def verdict (a b : Value) : Verdict :=
  (promote a b).elim (plainVerdict a b) pairVerdict

theorem plainVerdict_of_not_texts (notTexts : ∀ s t, a = text s → b = text t → False) :
    plainVerdict a b = (equal? a b).elim .incomparable .equal := by
  unfold plainVerdict
  split
  · exact (notTexts _ _ rfl rfl).elim
  · rfl

theorem comparison_eq (op : ComparisonOp) (a b : Value) : comparison op a b =
    ((verdict a b).holds? op).elim (.error (mismatch "comparison" a b)) .ok := by
  unfold comparison verdict
  cases promote a b with
  | some pair =>
      dsimp only [Option.elim, pairVerdict]
      cases pairOrder pair <;> rfl
  | none =>
      dsimp only [Option.elim]
      split
      · rfl
      · next notTexts =>
          rw [plainVerdict_of_not_texts notTexts]
          cases equal? a b with
          | none => cases op <;> rfl
          | some same => cases op <;> rfl

theorem promote_swap (a b : Value) : promote b a = (promote a b).map NumberPair.swap := by
  cases a <;> cases b <;> rfl

theorem equal?_swap (a b : Value) : equal? b a = equal? a b := by
  cases a <;> cases b <;> first
    | rfl
    | exact congrArg some BEq.comm

theorem compare_compares (x y : Int) : (compare x y).Compares x y :=
  compareOfLessAndEq_compares (fun _ _ => Iff.rfl) Function.injective_id x y

def bytesOf (content : String) : List Nat :=
  content.toUTF8.toList.map UInt8.toNat

theorem textOrder_compares (s t : String) : (textOrder s t).Compares (bytesOf s) (bytesOf t) :=
  compareOfLessAndEq_compares (fun _ _ => Iff.rfl) Function.injective_id (bytesOf s) (bytesOf t)

theorem pairVerdict_swap (pair : NumberPair) : pairVerdict pair.swap = (pairVerdict pair).swap := by
  cases pair with
  | doubles a b =>
      dsimp only [NumberPair.swap, pairVerdict, pairOrder]
      rw [Binary64.order_swap]
      cases Binary64.order (.ofBits a) (.ofBits b) <;> rfl
  | _ => exact congrArg Verdict.ordered Std.OrientedCmp.eq_swap

theorem plainVerdict_swap (a b : Value) : plainVerdict b a = (plainVerdict a b).swap := by
  by_cases texts : ∃ s t, a = text s ∧ b = text t
  · obtain ⟨s, t, rfl, rfl⟩ := texts
    exact congrArg Verdict.ordered ((textOrder_compares t s).inj
      (Ordering.compares_swap.mpr (textOrder_compares s t)))
  · rw [plainVerdict_of_not_texts fun t s second first => texts ⟨s, t, first, second⟩,
      plainVerdict_of_not_texts fun s t first second => texts ⟨s, t, first, second⟩, equal?_swap]
    cases equal? a b <;> rfl

theorem verdict_swap (a b : Value) : verdict b a = (verdict a b).swap := by
  unfold verdict
  rw [promote_swap]
  cases promote a b with
  | some pair => exact pairVerdict_swap pair
  | none => exact plainVerdict_swap a b

/-! ## Laws -/

theorem comparison_ne (a b : Value) : comparison .ne a b = not <$> comparison .eq a b := by
  rw [comparison_eq, comparison_eq, Verdict.holds?_ne]
  cases (verdict a b).holds? .eq <;> rfl

theorem comparison_mirrored (op : ComparisonOp) (a b : Value) :
    (comparison op.mirrored b a).toOption = (comparison op a b).toOption := by
  rw [comparison_eq, comparison_eq, verdict_swap, Verdict.holds?_swap]
  cases (verdict a b).holds? op <;> rfl

theorem comparison_le (a b : Value) : comparison .le a b =
    (do pure ((← comparison .lt a b) || (← comparison .eq a b))) := by
  rw [comparison_eq, comparison_eq, comparison_eq, Verdict.holds?_le]
  cases (verdict a b).holds? .lt <;> cases (verdict a b).holds? .eq <;> rfl

theorem comparison_ge (a b : Value) : comparison .ge a b =
    (do pure ((← comparison .gt a b) || (← comparison .eq a b))) := by
  rw [comparison_eq, comparison_eq, comparison_eq, Verdict.holds?_ge]
  cases (verdict a b).holds? .gt <;> cases (verdict a b).holds? .eq <;> rfl

/-! ## Orders -/

/-- Whether an outcome says if something holds. -/
def Decides (outcome : Except Fault Bool) (condition : Prop) : Prop :=
  ∃ holds, outcome = .ok holds ∧ (holds = true ↔ condition)

theorem Decides.iff {outcome : Except Fault Bool} {condition : Prop}
    (decides : Decides outcome condition) : outcome = .ok true ↔ condition := by
  obtain ⟨holds, rfl, same⟩ := decides
  rw [Except.ok.injEq, same]

theorem decides_of_ordered {α : Type} [PartialOrder α] {v w : α} {order : Ordering}
    (ordered : verdict a b = .ordered order) (compares : order.Compares v w) (op : ComparisonOp) :
    Decides (comparison op a b) (op.Relates v w) :=
  ⟨op.holds order, by rw [comparison_eq, ordered]; rfl, op.holds_iff compares⟩

theorem pairOrder_compares {pair : NumberPair} (wholes : pair.wholes? = some (kind, x, y)) :
    ∃ order, pairOrder pair = some order ∧ order.Compares x y := by
  cases pair with
  | bytes a b =>
      cases wholes
      have less (x y : UInt8) : x < y ↔ (x.toNat : Int) < y.toNat := by
        rw [UInt8.lt_iff_toNat_lt, Int.ofNat_lt]
      exact ⟨_, rfl, compareOfLessAndEq_compares less
        (fun _ _ same => UInt8.toNat_inj.mp (Int.ofNat_inj.mp same)) a b⟩
  | chars a b =>
      cases wholes
      have less (x y : UInt16) : x < y ↔ (x.toNat : Int) < y.toNat := by
        rw [UInt16.lt_iff_toNat_lt, Int.ofNat_lt]
      exact ⟨_, rfl, compareOfLessAndEq_compares less
        (fun _ _ same => UInt16.toNat_inj.mp (Int.ofNat_inj.mp same)) a b⟩
  | shorts a b => cases wholes; exact ⟨_, rfl, compare_compares _ _⟩
  | ints a b => cases wholes; exact ⟨_, rfl, compare_compares _ _⟩
  | longs a b => cases wholes; exact ⟨_, rfl, compare_compares _ _⟩
  | doubles a b => cases wholes

/-- Whole numbers of any kinds are in the order of the integers. -/
theorem verdict_whole (first : a.IsWhole kind x) (second : b.IsWhole kind' y) :
    ∃ order, verdict a b = .ordered order ∧ order.Compares x y := by
  obtain ⟨pair, promoted, wholes⟩ := promote_whole first second
  obtain ⟨order, same, compares⟩ := pairOrder_compares wholes
  exact ⟨order, by rw [verdict, promoted, Option.elim, pairVerdict, same, Option.elim], compares⟩

theorem decides_whole {number number' : Int64} (first : a.asInteger? = some number)
    (second : b.asInteger? = some number') (op : ComparisonOp) :
    Decides (comparison op a b) (op.Relates number.toInt number'.toInt) := by
  obtain ⟨kind, whole⟩ := exists_isWhole_of_asInteger? first
  obtain ⟨kind', whole'⟩ := exists_isWhole_of_asInteger? second
  obtain ⟨order, ordered, compares⟩ := verdict_whole whole whole'
  exact decides_of_ordered ordered compares op

def double? (a : Value) : Option (WithBot (WithTop ℚ)) :=
  (Binary64.ofBits a.toDouble).value?

theorem promote_double {rank rank' : NumberRank} (first : a.rank? = some rank)
    (second : b.rank? = some rank') (double : rank = .double ∨ rank' = .double) :
    promote a b = some (.doubles a.toDouble b.toDouble) := by
  cases a <;> cases first <;> cases b <;> cases second <;> first
    | rfl
    | exact absurd double (by decide)

theorem verdict_double {rank rank' : NumberRank} (first : a.rank? = some rank)
    (second : b.rank? = some rank') (double : rank = .double ∨ rank' = .double) :
    verdict a b = (Binary64.order (.ofBits a.toDouble) (.ofBits b.toDouble)).elim .unordered
      .ordered := by
  rw [verdict, promote_double first second double]
  rfl

/-- Next to a double, numbers are in the order of the doubles, and nothing is said to hold of what
is no number but that it is unequal. -/
theorem decides_double {rank rank' : NumberRank} (first : a.rank? = some rank)
    (second : b.rank? = some rank') (double : rank = .double ∨ rank' = .double)
    (op : ComparisonOp) :
    match a.double?, b.double? with
    | some v, some w => Decides (comparison op a b) (op.Relates v w)
    | _, _ => comparison op a b = .ok (op == .ne) := by
  have ordered := verdict_double first second double
  split
  · next v w here there =>
      obtain ⟨order, same, compares⟩ := Binary64.order_compares here there
      rw [same] at ordered
      exact decides_of_ordered ordered compares op
  · next numbers =>
      have nan : a.double? = none ∨ b.double? = none := by
        cases here : a.double? with
        | none => exact .inl rfl
        | some v =>
            cases there : b.double? with
            | none => exact .inr rfl
            | some w => exact (numbers v w here there).elim
      rw [Binary64.order_of_nan nan] at ordered
      rw [comparison_eq, ordered]
      rfl

theorem decides_texts (s t : String) (op : ComparisonOp) :
    Decides (comparison op (text s) (text t)) (op.Relates (bytesOf s) (bytesOf t)) :=
  decides_of_ordered rfl (textOrder_compares s t) op

def Equals (a b : Value) : Prop :=
  comparison .eq a b = .ok true

def Less (a b : Value) : Prop :=
  comparison .lt a b = .ok true

/-- On whole numbers both are decided by the integers. -/
theorem decides_toInteger (first : a.asInteger?.isSome) (second : b.asInteger?.isSome)
    (op : ComparisonOp) :
    Decides (comparison op a b) (op.Relates a.toInteger.toInt b.toInteger.toInt) := by
  obtain ⟨number, first⟩ := Option.isSome_iff_exists.mp first
  obtain ⟨number', second⟩ := Option.isSome_iff_exists.mp second
  rw [toInteger, toInteger, first, second]
  exact decides_whole first second op

theorem equals_iff (first : a.asInteger?.isSome) (second : b.asInteger?.isSome) :
    Equals a b ↔ a.toInteger.toInt = b.toInteger.toInt :=
  (decides_toInteger first second .eq).iff

theorem less_iff (first : a.asInteger?.isSome) (second : b.asInteger?.isSome) :
    Less a b ↔ a.toInteger.toInt < b.toInteger.toInt :=
  (decides_toInteger first second .lt).iff

end Value

end ObjectMachine
