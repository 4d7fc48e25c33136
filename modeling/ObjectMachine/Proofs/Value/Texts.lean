import Mathlib.Data.List.DropRight
import ObjectMachine.Value.Conversion

/-!
# Values as texts

A whole number or truth value that is written as a text is read back from it. So is a code unit that
stands for a character, unless the character is a blank: blanks at the ends of a text do not count.
Half of a surrogate pair is written as its code, and nothing reads that as the code unit again.
-/

namespace ObjectMachine

/-! ## Trimmed texts -/

namespace Text

variable {text : List Char} {char : Char}

theorem trimmed_eq_rdropWhile (text : List Char) :
    trimmed text = (text.dropWhile isBlank).rdropWhile isBlank :=
  rfl

theorem trimmed_of_forall (h : ∀ char ∈ text, isBlank char = false) : trimmed text = text := by
  have left : text.dropWhile isBlank = text := by
    cases text with
    | nil => rfl
    | cons first rest => simp [h first List.mem_cons_self]
  rw [trimmed_eq_rdropWhile, left, List.rdropWhile_eq_self_iff]
  intro some
  simp [h _ (List.getLast_mem some)]

theorem head?_trimmed (h : isBlank char = false) : (trimmed (char :: text)).head? = some char := by
  have left : (char :: text).dropWhile isBlank = char :: text := by simp [h]
  have first : (char :: text).rdropWhile isBlank ≠ [] := by
    simp [List.rdropWhile_eq_nil_iff, h]
  obtain ⟨rest, whole⟩ := List.rdropWhile_prefix isBlank (char :: text)
  rw [trimmed_eq_rdropWhile, left]
  cases kept : (char :: text).rdropWhile isBlank with
  | nil => exact absurd kept first
  | cons other more =>
      rw [kept] at whole
      simpa using congrArg List.head? whole

theorem trimmed_of_blank (h : isBlank char = true) : trimmed [char] = [] := by
  simp [trimmed, h]

theorem isBlank_of_isDigit (h : char.isDigit = true) : isBlank char = false := by
  obtain ⟨low, high⟩ : 48 ≤ char.toNat ∧ char.toNat ≤ 57 := by
    simpa [Char.isDigit, UInt32.le_iff_toNat_le] using h
  unfold isBlank
  simp
  omega

end Text

/-! ## Digits -/

namespace Decimal

theorem ofDigits_toDigits (number : Nat) : ofDigits (Nat.toDigits 10 number) = number := by
  have same (digits : List Char) (total : Nat) :
      digits.foldl (fun total digit => total * 10 + digitValue digit) total =
        Nat.ofDigitChars 10 digits total := by
    simp only [Nat.ofDigitChars, digitValue, Nat.mul_comm]
  rw [ofDigits, same, Nat.ofDigitChars_ten_toDigits]

theorem isDigit_of_mem {digit : Char} {number : Nat} (h : digit ∈ Nat.toDigits 10 number) :
    digit.isDigit = true :=
  Nat.isDigit_of_mem_toDigits (by omega) (Nat.le_refl 10) h

theorem natural?_toDigits (number : Nat) : natural? (Nat.toDigits 10 number) = some number := by
  have digits : (Nat.toDigits 10 number).all Char.isDigit = true :=
    List.all_eq_true.mpr fun _ => isDigit_of_mem
  simp [natural?, digits, Nat.toDigits_ne_nil, ofDigits_toDigits]

/-- The digits of a number do not begin with a sign. -/
theorem toDigits_ne_cons {number : Nat} {first : Char} {rest : List Char}
    (h : first.isDigit = false) : Nat.toDigits 10 number ≠ first :: rest := by
  intro same
  have digit := isDigit_of_mem (same ▸ List.mem_cons_self : first ∈ Nat.toDigits 10 number)
  rw [h] at digit
  cases digit

theorem unsigned?_toDigits (number : Nat) : unsigned? (Nat.toDigits 10 number) = some number := by
  unfold unsigned?
  split
  · next same => exact absurd same (toDigits_ne_cons rfl)
  · exact natural?_toDigits number

theorem toList_toString_ofNat (number : Nat) :
    (toString (Int.ofNat number)).toList = Nat.toDigits 10 number :=
  Nat.toList_repr

theorem toList_toString_negSucc (number : Nat) :
    (toString (Int.negSucc number)).toList = '-' :: Nat.toDigits 10 (number + 1) := by
  change ("-" ++ (number + 1).repr).toList = _
  rw [String.toList_append, Nat.toList_repr]
  rfl

theorem signed?_toString (number : Int) : signed? (toString number).toList = some number := by
  cases number with
  | ofNat number =>
      rw [toList_toString_ofNat]
      unfold signed?
      split
      · next same => exact absurd same (toDigits_ne_cons rfl)
      · next same => exact absurd same (toDigits_ne_cons rfl)
      · simp [natural?_toDigits]
  | negSucc number =>
      rw [toList_toString_negSucc]
      simp only [signed?, natural?_toDigits]
      rfl

/-- A number that is in the range of a kind is read as one of that kind. -/
theorem unsignedBelow?_toDigits {width number : Nat} (fits : number < 1 <<< width) :
    unsignedBelow? width (Nat.toDigits 10 number) = some number := by
  simp [unsignedBelow?, unsigned?_toDigits, fits]

theorem signedWithin?_toString {width : Nat} {number : Int}
    (low : -((1 <<< (width - 1) : Nat) : Int) ≤ number)
    (high : number < ((1 <<< (width - 1) : Nat) : Int)) :
    signedWithin? width (toString number).toList = some number := by
  rw [signedWithin?, signed?_toString]
  exact if_pos (decide_eq_true ⟨low, high⟩)

/-- Nothing of a written number is a blank. -/
theorem trimmed_toDigits (number : Nat) :
    Text.trimmed (Nat.toDigits 10 number) = Nat.toDigits 10 number :=
  Text.trimmed_of_forall fun _ member => Text.isBlank_of_isDigit (isDigit_of_mem member)

theorem trimmed_toString (number : Int) :
    Text.trimmed (toString number).toList = (toString number).toList := by
  cases number with
  | ofNat number => rw [toList_toString_ofNat, trimmed_toDigits]
  | negSucc number =>
      rw [toList_toString_negSucc]
      refine Text.trimmed_of_forall fun char member => ?_
      rcases List.mem_cons.mp member with rfl | digit
      · rfl
      · exact Text.isBlank_of_isDigit (isDigit_of_mem digit)

end Decimal

/-! ## Values -/

namespace Value

variable {kind : Kind} {value : Value}

def plainKind? : Value → Option Kind
  | bool _ => some .bool
  | byte _ => some .byte
  | char _ => some .char
  | short _ => some .short
  | int _ => some .int
  | long _ => some .long
  | _ => none

def isSurrogate (codeUnit : UInt16) : Bool :=
  0xD800 ≤ codeUnit.toNat && codeUnit.toNat < 0xE000

/-- Whether a code unit stands for a character that is white space. -/
def isBlankUnit (codeUnit : UInt16) : Bool :=
  !isSurrogate codeUnit && Text.isBlank (Char.ofNat codeUnit.toNat)

/-- Whether the text of a value says which one it is, even without the blanks at its ends. -/
def isLegible : Value → Bool
  | char codeUnit => !isSurrogate codeUnit && !isBlankUnit codeUnit
  | _ => true

/-- What is read from the text of a value. -/
def reread (value : Value) : Option Value :=
  value.plainKind?.bind fun kind => read? kind (Text.trimmed (Heap.scalarText value).toList)

theorem reread_eq (plain : value.plainKind? = some kind) :
    value.reread = read? kind (Text.trimmed (Heap.scalarText value).toList) := by
  rw [reread, plain, Option.bind_some]

theorem toNat_ofNat_of_not_isSurrogate {codeUnit : UInt16} (h : isSurrogate codeUnit = false) :
    (Char.ofNat codeUnit.toNat).toNat = codeUnit.toNat := by
  have small := codeUnit.toNat_lt
  have valid : codeUnit.toNat.isValidChar := by
    simp [isSurrogate] at h
    unfold Nat.isValidChar
    omega
  rw [Char.ofNat, dif_pos valid]
  rfl

theorem leadingUnit_ofNat {codeUnit : UInt16} (h : isSurrogate codeUnit = false) :
    leadingUnit (Char.ofNat codeUnit.toNat) = codeUnit := by
  have small := codeUnit.toNat_lt
  unfold leadingUnit
  rw [toNat_ofNat_of_not_isSurrogate h, if_pos (by omega), UInt16.ofNat_toNat]

theorem scalarText_char {codeUnit : UInt16} (h : isSurrogate codeUnit = false) :
    (Heap.scalarText (char codeUnit)).toList = [Char.ofNat codeUnit.toNat] := by
  have single : ¬ (0xD800 ≤ codeUnit.toNat ∧ codeUnit.toNat < 0xE000) := by
    simpa [isSurrogate] using h
  simp [Heap.scalarText, single]

theorem scalarText_surrogate {codeUnit : UInt16} (h : isSurrogate codeUnit = true) :
    (Heap.scalarText (char codeUnit)).toList =
      '\\' :: 'u' :: (Text.hex 4 codeUnit.toNat).toList := by
  have half : 0xD800 ≤ codeUnit.toNat ∧ codeUnit.toNat < 0xE000 := by
    simpa [isSurrogate] using h
  simp [Heap.scalarText, half]

/-- A code unit that stands for a character is read back unless that is a blank. -/
theorem reread_char (codeUnit : UInt16) : (char codeUnit).reread =
    if isSurrogate codeUnit then some (char 0x5C)
    else if isBlankUnit codeUnit then none else some (char codeUnit) := by
  have plain : (char codeUnit).plainKind? = some .char := rfl
  rw [reread_eq plain, read?]
  cases half : isSurrogate codeUnit with
  | true =>
      rw [scalarText_surrogate half, Text.head?_trimmed rfl]
      rfl
  | false =>
      rw [scalarText_char half]
      by_cases blank : Text.isBlank (Char.ofNat codeUnit.toNat) = true
      · simp [isBlankUnit, half, blank, Text.trimmed_of_blank]
      · have kept : Text.trimmed [Char.ofNat codeUnit.toNat] = [Char.ofNat codeUnit.toNat] := by
          exact Text.trimmed_of_forall (by simpa using blank)
        simp [isBlankUnit, half, blank, kept, leadingUnit_ofNat half]

/-- A number with a sign is read back by whatever makes the value of it. -/
theorem reread_of_signed {width : Nat} {of : Int → Value} (number : Int)
    (plain : value.plainKind? = some kind)
    (reads : ∀ text, read? kind text = (Decimal.signedWithin? width text).map of)
    (text : Heap.scalarText value = toString number)
    (low : -((1 <<< (width - 1) : Nat) : Int) ≤ number)
    (high : number < ((1 <<< (width - 1) : Nat) : Int)) (same : of number = value) :
    value.reread = some value := by
  rw [reread_eq plain, reads, text, Decimal.trimmed_toString,
    Decimal.signedWithin?_toString low high, Option.map_some, same]

theorem reread_of_isLegible (plain : value.plainKind? = some kind)
    (legible : value.isLegible = true) : value.reread = some value := by
  cases value with
  | bool value => cases value <;> decide
  | byte value =>
      have read : Decimal.unsignedBelow? 8 (Nat.toDigits 10 value.toNat) = some value.toNat :=
        Decimal.unsignedBelow?_toDigits value.toNat_lt
      have text : (Heap.scalarText (byte value)).toList = Nat.toDigits 10 value.toNat :=
        Nat.toList_repr
      have plain : (byte value).plainKind? = some .byte := rfl
      rw [reread_eq plain, text, Decimal.trimmed_toDigits, read?, read,
        Option.map_some, UInt8.ofNat_toNat]
  | char codeUnit =>
      simp [isLegible] at legible
      rw [reread_char]
      simp [legible]
  | short value =>
      exact reread_of_signed value.toInt rfl (fun _ => rfl) rfl value.le_toInt value.toInt_lt
        (congrArg short (Int16.ofInt_toInt value))
  | int value =>
      exact reread_of_signed value.toInt rfl (fun _ => rfl) rfl value.le_toInt value.toInt_lt
        (congrArg int (Int32.ofInt_toInt value))
  | long value =>
      exact reread_of_signed value.toInt rfl (fun _ => rfl) rfl value.le_toInt value.toInt_lt
        (congrArg long (Int64.ofInt_toInt value))
  | null | double _ | text _ | array _ | object _ _ | classRef _ => cases plain

end Value

end ObjectMachine
