import ObjectMachine.Machine.Step
import ObjectMachine.Value.Conversion
import ObjectMachine.Value.Number

/-!
# Constants, locals and arithmetic
-/

namespace ObjectMachine

namespace Instruction

/-- The table number or slot that an instruction carries. -/
def index (instruction : Instruction) : UInt32 :=
  match instruction.operand with
  | .index number => number
  | _ => 0

/-- The constant that an instruction carries. -/
def constant (instruction : Instruction) : Value :=
  match instruction.operand with
  | .byte value => .byte value
  | .char codeUnit => .char codeUnit
  | .short value => .short value
  | .int value => .int value
  | .long value => .long value
  | .double bits => .double bits
  | _ => .null

/-- The address at a distance from an instruction; there is none before the first byte. -/
def target (instruction : Instruction) (distance : Int32) : Nat :=
  (instruction.offset + distance.toInt).toNat

end Instruction

namespace Step

def dup : Step Unit := do
  push (← onStack (Stack.peek 0))

def swap : Step Unit := do
  let upper ← pop
  let lower ← pop
  push upper
  push lower

def pushString (index : UInt32) : Step Unit := do
  push (.text (← require ((← moduleRecord).string index)))

def loadLocal (slot : UInt32) : Step Unit := do
  let found ← ofThread fun thread => thread.stack.get? (thread.dp + slot.toNat)
  match found with
  | some value => push value
  | none => throw (.invalidLocal slot)

def storeLocal (slot : UInt32) : Step Unit := do
  let value ← pop
  let place := (← ofThread (·.dp)) + slot.toNat
  unless ← onStack (Stack.put place value) do
    throw (.invalidLocal slot)

/-- Replaces the two topmost values by a result. -/
def binary (operation : Value → Value → Step Value) : Step Unit := do
  let b ← pop
  let a ← pop
  push (← operation a b)

/-- A sum; next to a text everything is a text. -/
def sum (a b : Value) : Step Value := do
  match a, b with
  | .text _, _ | _, .text _ => pure (.text ((← describe a) ++ (← describe b)))
  | a, b => require (Value.arithmetic .add a b)

def arithmetic (op : ArithmeticOp) : Step Unit :=
  binary fun a b =>
    match op with
    | .add => sum a b
    | op => require (Value.arithmetic op a b)

def compare (op : ComparisonOp) : Step Unit :=
  binary fun a b => .bool <$> require (Value.comparison op a b)

def negate : Step Unit := do
  push (← require (Value.negate (← pop)))

def complement : Step Unit := do
  push (← require (Value.complement (← pop)))

/-- Converts a value to the kind of a code. A text shows classes by name. -/
def convert (code : UInt8) : Step Unit := do
  match Kind.ofCode? code.toNat with
  | none => throw (.typeError s!"unknown conversion kind {code.toNat}")
  | some .string =>
    let value ← pop
    push (.text (← describe value))
  | some kind =>
    let value ← pop
    push (← require (Value.convert (← heap) kind value))

end Step

end ObjectMachine
