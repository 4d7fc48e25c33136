import ObjectMachine.Code.Instruction
import ObjectMachine.Code.Switch

/-!
# Emitting code with labels

An assembly is a stream of instructions under construction. A branch to a label takes a wide
distance that is zero until the label is anchored; anchoring a label, also once more, sets the
distance of every branch to it. Finishing fails if a distance did not fit 32 bits or a label with
a branch was never anchored.
-/

namespace ObjectMachine

/-- A branch target, named by its number in order of creation. -/
structure Label where
  id : Nat
deriving DecidableEq, Repr

/-- A distance that depends on a label. -/
structure LabelSite where
  /-- Number of the instruction in the stream. -/
  instruction : Nat
  /-- Position of that instruction. -/
  offset : Nat
  /-- Which of the instruction's distances is meant. -/
  slot : Nat
deriving DecidableEq, Repr

structure LabelState where
  /-- The branches to the label, the first one first. -/
  sites : Array LabelSite
  target : Option Nat
deriving Repr, Inhabited

inductive AssemblyError
  /-- A label with a branch was never anchored; its first branch is named. -/
  | unresolvedLabel (label : Nat) (site : Nat)
  /-- A branch is too far from its target. -/
  | offsetOverflow (site : Nat)
deriving DecidableEq, Repr

def AssemblyError.message : AssemblyError → String
  | unresolvedLabel label site => s!"label {label} referenced at offset {site} was never anchored"
  | offsetOverflow site => s!"branch at offset {site} does not fit in a 32-bit offset"

structure Assembly where
  instructions : Array Instruction
  /-- Where the next instruction will start. -/
  position : Nat
  labels : Array LabelState
  /-- The first branch whose distance did not fit. -/
  overflow : Option Nat
deriving Repr

namespace Operand

/-- An operand with one of its distances replaced. -/
def setDistance (operand : Operand) (slot : Nat) (distance : Int32) : Operand :=
  match operand with
  | offset _ => offset distance
  | table distances => table (distances.set slot distance)
  | tryPair onCatch onFinally =>
    if slot = 0 then tryPair distance onFinally else tryPair onCatch distance
  | other => other

end Operand

namespace Assembly

def empty : Assembly := ⟨#[], 0, #[], none⟩

/-- The stream emitted so far, with zero distances to labels not yet anchored. -/
def bytes (assembly : Assembly) : Bytes :=
  Code.encode assembly.instructions.toList

/-- Whether a distance fits 32 bits. -/
def fits (distance : Int) : Bool :=
  -0x80000000 ≤ distance ∧ distance < 0x80000000

def noteOverflow (assembly : Assembly) (site : Nat) : Assembly :=
  { assembly with overflow := assembly.overflow.or (some site) }

/-- Points one branch at a position. A distance that does not fit leaves the branch alone and is
noted. -/
def patch (assembly : Assembly) (target : Nat) (site : LabelSite) : Assembly :=
  let distance := Code.wrapped (target - site.offset)
  if fits distance then
    { assembly with
      instructions := assembly.instructions.modify site.instruction fun instruction =>
        { instruction with
          operand := instruction.operand.setDistance site.slot (Int32.ofInt distance) } }
  else assembly.noteOverflow site.offset

/-- Points every branch to a label at a position, and the branches still to come as well. -/
def anchorTo (assembly : Assembly) (label : Label) (target : Nat) : Assembly :=
  let sites := (assembly.labels[label.id]?.map (·.sites)).getD #[]
  let anchored :=
    { assembly with
      labels := assembly.labels.modify label.id fun state => { state with target := some target } }
  sites.foldl (fun assembly site => assembly.patch target site) anchored

/-- Records that a distance of the last instruction depends on a label. -/
def addSite (assembly : Assembly) (label : Label) (site : LabelSite) : Assembly :=
  let patched := match assembly.labels[label.id]?.bind (·.target) with
    | some target => assembly.patch target site
    | none => assembly
  { patched with
    labels := patched.labels.modify label.id fun state =>
      { state with sites := state.sites.push site } }

def finish (assembly : Assembly) : Except AssemblyError Bytes :=
  match assembly.overflow with
  | some site => .error (.offsetOverflow site)
  | none =>
    let unresolved := assembly.labels.toList.zipIdx.findSome? fun (state, label) =>
      match state.target, state.sites[0]? with
      | none, some site => some (AssemblyError.unresolvedLabel label site.offset)
      | _, _ => none
    match unresolved with
    | some fault => .error fault
    | none => .ok assembly.bytes

end Assembly

/-- An emission: it extends an assembly. -/
abbrev Assemble := StateM Assembly

namespace Assemble

/-- Adds an instruction at the end of the stream. -/
def emit (opcode : Opcode) (width : Width) (operand : Operand) : Assemble Unit :=
  modify fun assembly =>
    let instruction : Instruction := { offset := assembly.position, opcode, width, operand }
    { assembly with
      instructions := assembly.instructions.push instruction
      position := assembly.position + instruction.encode.length }

/-- An opcode that stands alone. -/
def op (opcode : Opcode) : Assemble Unit :=
  emit opcode .narrow .absent

/-- An opcode with a table number, at the number's minimal width. -/
def index (opcode : Opcode) (number : UInt32) : Assemble Unit :=
  emit opcode (Width.forIndex number.toNat) (.index number)

def pushBool (value : Bool) : Assemble Unit := op (if value then .pushTrue else .pushFalse)
def pushByte (value : UInt8) : Assemble Unit := emit .pushByte .narrow (.byte value)
def pushChar (codeUnit : UInt16) : Assemble Unit := emit .pushChar .narrow (.char codeUnit)
def pushShort (value : Int16) : Assemble Unit := emit .pushShort .narrow (.short value)
def pushInt (value : Int32) : Assemble Unit := emit .pushInt .narrow (.int value)
def pushLong (value : Int64) : Assemble Unit := emit .pushLong .narrow (.long value)
def pushDouble (bits : UInt64) : Assemble Unit := emit .pushDouble .narrow (.double bits)
def convert (kind : Kind) : Assemble Unit := emit .convert .narrow (.byte kind.code)
def makeArray (elements : UInt16) : Assemble Unit := emit .makeArray .narrow (.count elements)

/-- A label that is not anchored yet. -/
def newLabel : Assemble Label :=
  modifyGet fun assembly =>
    (⟨assembly.labels.size⟩, { assembly with labels := assembly.labels.push ⟨#[], none⟩ })

/-- Lets distances of the last instruction depend on labels, the distances being numbered from
`slot` on. -/
def addSites (slot : Nat) (labels : List Label) : Assemble Unit :=
  modify fun assembly =>
    let last := assembly.instructions.size - 1
    let offset := (assembly.instructions[last]?.map (·.offset)).getD 0
    (labels.zipIdx slot).foldl
      (fun assembly (label, slot) => assembly.addSite label ⟨last, offset, slot⟩) assembly

/-- A branch to a label. -/
def branch (opcode : Opcode) (label : Label) : Assemble Unit := do
  emit opcode .wide (.offset 0)
  addSites 0 [label]

/-- A branch to a label of its own. -/
def jump (opcode : Opcode) : Assemble Label := do
  let label ← newLabel
  branch opcode label
  pure label

/-- A branch to a known position, at the distance's minimal width. -/
def jumpTo (opcode : Opcode) (target : Nat) : Assemble Unit := do
  let start := (← get).position
  let distance := Code.wrapped (target - start)
  if Assembly.fits distance then
    emit opcode (Width.forOffset distance) (.offset (Int32.ofInt distance))
  else
    modify (·.noteOverflow start)
    emit opcode (Width.forOffset distance) (.offset 0)

/-- A case table whose entries lead to labels. -/
def caseTable (labels : List Label) : Assemble Unit := do
  emit .caseOf .wide (.table (labels.map fun _ => 0))
  addSites 0 labels

/-- The labels of a try construct's bodies. -/
structure TryLabels where
  onCatch : Option Label
  onFinally : Label
deriving Repr

/-- The start of a try construct. Its labels are to be anchored at its bodies. -/
def enterTry (hasCatch : Bool) : Assemble TryLabels := do
  emit .enterTry .wide (.tryPair 0 0)
  if hasCatch then
    let onCatch ← newLabel
    addSites 0 [onCatch]
    let onFinally ← newLabel
    addSites 1 [onFinally]
    pure ⟨some onCatch, onFinally⟩
  else
    let onFinally ← newLabel
    addSites 1 [onFinally]
    pure ⟨none, onFinally⟩

def anchorTo (label : Label) (target : Nat) : Assemble Unit :=
  modify (·.anchorTo label target)

/-- Anchors a label where the next instruction will start. -/
def anchor (label : Label) : Assemble Unit := do
  anchorTo label (← get).position

/-- The labels of a switch: one per case value in the order given, and the one for all others. -/
structure SwitchLabels where
  cases : List Label
  otherwise : Label
deriving Repr

/-- The table slots of a switch: each case's label at its value's distance from the least one. -/
def tableSlots (least : Int32) (span : Nat) (values : List Int32) (labels : SwitchLabels) :
    List Label :=
  (values.zip labels.cases).foldl
    (fun slots (value, label) => slots.set (value.toInt - least.toInt).toNat label)
    (List.replicate span labels.otherwise)

/-- A switch over the integer on top of the stack. The subject goes to a scratch slot first, so
that every target sees the stack without it. -/
def switch (values : List Int32) (scratch : UInt32) : Assemble SwitchLabels := do
  index .storeLocal scratch
  let cases ← values.mapM fun _ => newLabel
  let otherwise ← newLabel
  let labels : SwitchLabels := { cases, otherwise }
  match SwitchPlan.choose values with
  | .table least span =>
    index .loadLocal scratch
    if least ≠ 0 then
      pushInt least
      op .sub
    caseTable (tableSlots least span values labels)
  | .chain =>
    (values.zip cases).forM fun (value, label) => do
      index .loadLocal scratch
      pushInt value
      branch .jce label
  branch .jmp otherwise
  pure labels

end Assemble

end ObjectMachine
