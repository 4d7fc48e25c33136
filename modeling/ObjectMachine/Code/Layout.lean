import ObjectMachine.Code.Instruction

/-!
# Minimal branch widths

A layout is the list of a stream's instructions in which every branch names the lines it leads
to, so that positions follow from the sizes. Shrinking gives each branch, case table and try
construct the narrowest width its distances fit. Every byte saved moves the lines after it, which
may let other branches shrink, so passes over the layout repeat until one of them changes
nothing.
-/

namespace ObjectMachine

inductive LayoutError
  | decode (fault : DecodeError)
  /-- A branch leads to a position at which no instruction starts. -/
  | misalignedTarget (offset : Nat) (target : Int)
  /-- No instruction starts at an entry point. -/
  | misalignedEntry (entry : UInt32)
deriving DecidableEq, Repr

def LayoutError.message : LayoutError → String
  | decode fault => s!"decode error: {fault.message}"
  | misalignedTarget offset target =>
    s!"branch at offset {offset} targets {target}, which is not an instruction boundary"
  | misalignedEntry entry => s!"entry point {entry.toNat} is not an instruction boundary"

/-- An instruction whose branches name lines. -/
structure Line where
  instruction : Instruction
  /-- The width its variable operand has now. -/
  width : Width
  /-- One line number for each encoded distance, none for a catch body that is not there. -/
  targets : List (Option Nat)
deriving Repr

namespace Line

def isBranch (line : Line) : Bool :=
  line.instruction.opcode.shape.isBranch

def size (line : Line) : Nat :=
  line.instruction.sizeAt line.width

end Line

/-- The lines of a stream in order. -/
structure Layout where
  lines : Array Line
deriving Repr

namespace Operand

/-- Every encoded distance of an operand; a catch body that is not there has none. -/
def encodedDistances : Operand → List (Option Int32)
  | offset distance => [some distance]
  | table distances => distances.map some
  | tryPair onCatch onFinally => [if onCatch = 0 then none else some onCatch, some onFinally]
  | _ => []

/-- An operand with all its encoded distances replaced. -/
def withDistances (operand : Operand) (distances : List Int32) : Operand :=
  match operand, distances with
  | offset _, [distance] => offset distance
  | table _, distances => table distances
  | tryPair _ _, [onCatch, onFinally] => tryPair onCatch onFinally
  | operand, _ => operand

end Operand

namespace Layout

/-- For each position of a stream, and for its end, the line that starts there. The end counts
as a line after the last one. -/
def lineIndex (instructions : List Instruction) : Array (Option Nat) :=
  let starts := instructions.zipIdx.flatMap fun (instruction, line) =>
    some line :: List.replicate (instruction.size - 1) none
  (starts ++ [some instructions.length]).toArray

/-- The line that starts at a position. -/
def lineAt (index : Array (Option Nat)) (position : Int) : Option Nat :=
  if position < 0 then none else index[position.toNat]?.join

/-- The line a distance of an instruction leads to. -/
def targetLine (index : Array (Option Nat)) (instruction : Instruction)
    (distance : Option Int32) : Except LayoutError (Option Nat) :=
  match distance with
  | none => .ok none
  | some distance =>
    let target := instruction.offset + distance.toInt
    match lineAt index target with
    | some line => .ok (some line)
    | none => .error (.misalignedTarget instruction.offset target)

def entryLine (index : Array (Option Nat)) (entry : UInt32) : Except LayoutError Nat :=
  match lineAt index entry.toNat with
  | some line => .ok line
  | none => .error (.misalignedEntry entry)

def toLine (index : Array (Option Nat)) (instruction : Instruction) : Except LayoutError Line := do
  let targets ← instruction.operand.encodedDistances.mapM (targetLine index instruction)
  pure { instruction, width := instruction.width, targets }

/-- The positions of the lines and of the end. -/
def starts (layout : Layout) : Array Nat :=
  layout.lines.foldl (fun starts line => starts.push (starts.back?.getD 0 + line.size)) #[0]

/-- The distance from one line to another. -/
def distance (starts : Array Nat) (line target : Nat) : Int :=
  (starts.getD target 0 : Int) - starts.getD line 0

/-- The narrowest width that holds all distances of a line. -/
def neededWidth (starts : Array Nat) (line : Nat) (targets : List (Option Nat)) : Width :=
  Width.widest <| targets.reduceOption.map fun target =>
    Width.forOffset (distance starts line target)

/-- Shrinks one line if it can be; `starts` are the positions in the layout. -/
def shrinkLine (state : Layout × Array Nat) (number : Nat) : Layout × Array Nat :=
  let (layout, starts) := state
  match layout.lines[number]? with
  | none => state
  | some line =>
    let needed := neededWidth starts number line.targets
    if line.isBranch ∧ needed.bytes < line.width.bytes then
      let shrunk : Layout := ⟨layout.lines.modify number fun line => { line with width := needed }⟩
      (shrunk, shrunk.starts)
    else state

def pass (layout : Layout) : Layout :=
  ((List.range layout.lines.size).foldl shrinkLine (layout, layout.starts)).1

/-- The sum of all widths. It falls with every line that shrinks. -/
def weight (layout : Layout) : Nat :=
  layout.lines.foldl (fun total line => total + line.width.bytes) 0

/-- Repeats passes until one changes nothing; the number of passes counts that one. -/
def settle (layout : Layout) : Layout × Nat :=
  let next := layout.pass
  if next.weight < layout.weight then
    let (settled, passes) := settle next
    (settled, passes + 1)
  else (layout, 1)
termination_by layout.weight

/-- The instructions of a layout, with the distances that its positions give. -/
def instructions (layout : Layout) : List Instruction :=
  let starts := layout.starts
  layout.lines.toList.zipIdx.map fun (line, number) =>
    let distances := line.targets.map fun target =>
      match target with
      | none => 0
      | some target => Int32.ofInt (distance starts number target)
    { line.instruction with
      offset := starts.getD number 0
      width := line.width
      operand := line.instruction.operand.withDistances distances }

end Layout

structure Shrunk where
  code : Bytes
  /-- The entry points moved to their new positions, in the order given. -/
  entryPoints : List UInt32
  /-- Number of passes, the last one without a change included. -/
  passes : Nat
  bytesSaved : Nat
deriving DecidableEq, Repr

namespace Code

/-- Gives every branch of a stream its minimal width and moves the entry points along. Each
branch has to lead, and each entry point to lie, where an instruction starts or at the end. -/
def shrink (code : Bytes) (entryPoints : List UInt32) : Except LayoutError Shrunk := do
  let instructions ← (decode code).mapError .decode
  let index := Layout.lineIndex instructions
  let entryLines ← entryPoints.mapM (Layout.entryLine index)
  let lines ← instructions.mapM (Layout.toLine index)
  let (settled, passes) := Layout.settle ⟨lines.toArray⟩
  let starts := settled.starts
  let shrunk := encode settled.instructions
  pure {
    code := shrunk
    entryPoints := entryLines.map fun line => UInt32.ofNat (starts.getD line 0)
    passes
    bytesSaved := code.length - shrunk.length }

end Code

end ObjectMachine
