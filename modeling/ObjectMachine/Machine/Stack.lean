import ObjectMachine.Fault
import ObjectMachine.Value.Value

/-!
# The value stack

Each thread has one stack of limited height. An operation that fails leaves it as it is.
-/

namespace ObjectMachine

structure Stack where
  slots : Array Value
  limit : Nat
deriving DecidableEq, Repr

namespace Stack

/-- Height that a stack may have unless told otherwise. -/
def defaultLimit : Nat := 65536

def empty (limit : Nat) : Stack := ⟨#[], limit⟩

def depth (stack : Stack) : Nat :=
  stack.slots.size

/-- An operation that may fail. -/
abbrev Operation := EStateM Fault Stack

def push (value : Value) : Operation Unit := fun stack =>
  if stack.limit ≤ stack.slots.size then .error .stackOverflow stack
  else .ok () { stack with slots := stack.slots.push value }

def pop : Operation Value := fun stack =>
  match stack.slots.back? with
  | some value => .ok value { stack with slots := stack.slots.pop }
  | none => .error .stackUnderflow stack

/-- Takes the top `count` values off, the deepest one first. -/
def popMany (count : Nat) : Operation (Array Value) := fun stack =>
  let height := stack.slots.size
  if height < count then .error .stackUnderflow stack
  else
    .ok (stack.slots.extract (height - count) height)
      { stack with slots := stack.slots.shrink (height - count) }

/-- The value `below` places under the top. -/
def peek (below : Nat) : Operation Value := fun stack =>
  match stack.slots[stack.slots.size - 1 - below]? with
  | some value => if below < stack.slots.size then .ok value stack else .error .stackUnderflow stack
  | none => .error .stackUnderflow stack

def get? (stack : Stack) (place : Nat) : Option Value :=
  stack.slots[place]?

/-- Replaces the value at a place. The answer is whether there is one. -/
def put (place : Nat) (value : Value) : Operation Bool := fun stack =>
  if place < stack.slots.size then
    .ok true { stack with slots := stack.slots.setIfInBounds place value }
  else .ok false stack

/-- Puts `count` null values on top. Heights are 64-bit words: a count that leads beyond them
leads to a low height, down to which values are dropped. -/
def reserve (count : Nat) : Operation Unit := fun stack =>
  let size := stack.slots.size
  let height := (UInt64.ofNat (size + count)).toNat
  if stack.limit < height then .error .stackOverflow stack
  else
    .ok () { stack with
      slots := stack.slots.shrink height ++ Array.replicate (height - size) Value.null }

/-- Drops all values from a height on. -/
def truncate (stack : Stack) (depth : Nat) : Stack :=
  { stack with slots := stack.slots.shrink depth }

end Stack

end ObjectMachine
