/-!
# Operand widths

An index or a branch offset is stored in one, two or four bytes. The minimal width of a number
is the narrowest one that holds it.
-/

namespace ObjectMachine

/-- How many bytes a variable-width operand takes. -/
inductive Width
  | narrow
  | medium
  | wide
deriving DecidableEq, Repr, Inhabited

namespace Width

/-- All widths, narrowest first. -/
def all : List Width := [narrow, medium, wide]

def name : Width → String
  | narrow => "narrow"
  | medium => "medium"
  | wide => "wide"

def bytes : Width → Nat
  | narrow => 1
  | medium => 2
  | wide => 4

/-- Distance of a width's opcode byte from the first byte of the opcode's family. -/
def step : Width → UInt8
  | narrow => 0
  | medium => 1
  | wide => 2

def max (a b : Width) : Width :=
  if a.bytes < b.bytes then b else a

/-- The widest of several widths, `narrow` if there is none. -/
def widest (widths : List Width) : Width :=
  widths.foldl max narrow

/-- The narrowest width that holds an unsigned index. -/
def forIndex (index : Nat) : Width :=
  if index < 0x100 then narrow else if index < 0x10000 then medium else wide

/-- The narrowest width that holds a signed offset. -/
def forOffset (offset : Int) : Width :=
  if -0x80 ≤ offset ∧ offset < 0x80 then narrow
  else if -0x8000 ≤ offset ∧ offset < 0x8000 then medium
  else wide

end Width

end ObjectMachine
