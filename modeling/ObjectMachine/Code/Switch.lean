/-!
# Choice of a switch lowering

A switch over integers becomes a jump table when its values lie close together, and a chain of
comparisons otherwise.
-/

namespace ObjectMachine

inductive SwitchPlan
  /-- A table indexed by the distance from the least value. -/
  | table (least : Int32) (span : Nat)
  | chain
deriving DecidableEq, Repr

namespace SwitchPlan

/-- Fewest case values a table is built for. -/
def leastCases : Nat := 3

/-- Most table slots per case value. -/
def mostSlotsPerCase : Nat := 3

/-- Most slots a table can have. -/
def mostSlots : Nat := 65535

def least : List Int32 → Option Int32
  | [] => none
  | value :: rest => some (rest.foldl (fun low value => if value < low then value else low) value)

def greatest : List Int32 → Option Int32
  | [] => none
  | value :: rest =>
    some (rest.foldl (fun high value => if high < value then value else high) value)

/-- A table needs at least three values, and at most three slots for each of them. -/
def choose (values : List Int32) : SwitchPlan :=
  if values.length < leastCases then chain
  else
    match least values, greatest values with
    | some low, some high =>
      let span := (high.toInt - low.toInt + 1).toNat
      if span ≤ mostSlotsPerCase * values.length ∧ span ≤ mostSlots then table low span else chain
    | _, _ => chain

end SwitchPlan

end ObjectMachine
