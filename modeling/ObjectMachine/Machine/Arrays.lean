import ObjectMachine.Machine.Step

/-!
# Arrays
-/

namespace ObjectMachine

namespace Step

/-- A whole number that serves as something. -/
def integer (purpose : String) (value : Value) : Step Int64 :=
  match value.asInteger? with
  | some number => pure number
  | none => throw (.typeError s!"{purpose} must be an integer, got {value.typeName}")

/-- The array that an operation works on. -/
def arrayFor (operation : String) (value : Value) : Step ArrayId :=
  match value with
  | .array id => pure id
  | .null => throw (.nullReceiver operation)
  | other => throw (.typeError s!"{operation} needs an array, got {other.typeName}")

/-- The place of an item in an array of a given length. -/
def itemPlace (index : Int64) (length : Nat) : Step Nat :=
  if 0 ≤ index.toInt ∧ index.toInt < length then pure index.toInt.toNat
  else throw (.indexOutOfBounds index length)

def newArray : Step Unit := do
  let length ← integer "array length" (← pop)
  if length < 0 then throw (.negativeLength length)
  let count := length.toInt.toNat
  if (← read).limits.arrayLength < count then throw (.arrayTooLarge length)
  pushArray (Array.replicate count Value.null)

/-- An array of the topmost values. -/
def makeArray (count : Nat) : Step Unit := do
  pushArray (← onStack (Stack.popMany count))

def arrayLoad : Step Unit := do
  let index ← pop
  let id ← arrayFor "arrayload" (← pop)
  let index ← integer "array index" index
  let items := (← heap).items id
  let place ← itemPlace index items.size
  push (items.getD place .null)

def arrayStore : Step Unit := do
  let value ← pop
  let index ← pop
  let id ← arrayFor "arraystore" (← pop)
  let index ← integer "array index" index
  let place ← itemPlace index ((← heap).items id).size
  onStore fun store => { store with heap := store.heap.setItem id place value }

def arrayLength : Step Unit := do
  let id ← arrayFor "arraylength" (← pop)
  let length := ((← heap).items id).size
  push (.int (Int32.ofNat length))

end Step

end ObjectMachine
