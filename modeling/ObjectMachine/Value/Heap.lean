import ObjectMachine.Decimal.Shortest
import ObjectMachine.Text.Quoted
import ObjectMachine.Value.Value

/-!
# The heap

Arrays and objects live in two tables that only grow. Reading a place that a thing does not have
gives null.
-/

namespace ObjectMachine

/-- What is behind an object. -/
inductive Instance
  /-- The field slots, the first one being slot 1. -/
  | fields (slots : Array Value)
  /-- State of a native class of a given type. -/
  | native (typeName : String) (slots : Array Value)
deriving DecidableEq, Repr

structure Heap where
  arrays : Array (Array Value)
  objects : Array Instance
deriving DecidableEq, Repr

namespace Heap

def empty : Heap := ⟨#[], #[]⟩

def newArray (heap : Heap) (items : Array Value) : ArrayId × Heap :=
  (⟨heap.arrays.size⟩, { heap with arrays := heap.arrays.push items })

def newObject (heap : Heap) (content : Instance) : ObjectId × Heap :=
  (⟨heap.objects.size⟩, { heap with objects := heap.objects.push content })

/-- An object with a number of null fields. -/
def newFields (heap : Heap) (count : Nat) : ObjectId × Heap :=
  heap.newObject (.fields (Array.replicate count Value.null))

def items (heap : Heap) (id : ArrayId) : Array Value :=
  heap.arrays.getD id.index #[]

def setItem (heap : Heap) (id : ArrayId) (place : Nat) (value : Value) : Heap :=
  { heap with arrays := heap.arrays.modify id.index (·.setIfInBounds place value) }

def content? (heap : Heap) (id : ObjectId) : Option Instance :=
  heap.objects[id.index]?

def isNative (heap : Heap) (id : ObjectId) : Bool :=
  match heap.content? id with
  | some (.native _ _) => true
  | _ => false

/-- The place of a slot, if there is one; slots count from 1. -/
def placeOf (slot : UInt32) : Option Nat :=
  if slot = 0 then none else some (slot.toNat - 1)

def readSlot (slots : Array Value) (slot : UInt32) : Value :=
  match placeOf slot with
  | some place => slots.getD place .null
  | none => .null

/-- Writes a slot; missing ones before it come into being as null. There is no slot 0. -/
def writeSlot (slots : Array Value) (slot : UInt32) (value : Value) : Array Value :=
  match placeOf slot with
  | some place =>
    if place < slots.size then slots.setIfInBounds place value
    else (slots ++ Array.replicate (place - slots.size) Value.null).push value
  | none => slots

/-- A field of an object. Native state has no fields. -/
def field (heap : Heap) (id : ObjectId) (slot : UInt32) : Value :=
  match heap.content? id with
  | some (.fields slots) => readSlot slots slot
  | _ => .null

/-- Writes a field of an object. Native state is left as it is. -/
def setField (heap : Heap) (id : ObjectId) (slot : UInt32) (value : Value) : Heap :=
  { heap with
    objects := heap.objects.modify id.index fun
      | .fields slots => .fields (writeSlot slots slot value)
      | native => native }

/-- Replaces what is behind an object. -/
def setContent (heap : Heap) (id : ObjectId) (content : Instance) : Heap :=
  { heap with objects := heap.objects.setIfInBounds id.index content }

/-- The text of a value that is no array. Half of a surrogate pair shows as its code. -/
def scalarText (value : Value) : String :=
  match value with
  | .null => "null"
  | .bool value => toString value
  | .byte value => toString value.toNat
  | .char codeUnit =>
    let code := codeUnit.toNat
    if 0xD800 ≤ code ∧ code < 0xE000 then "\\u" ++ Text.hex 4 code
    else (Char.ofNat code).toString
  | .short value => toString value.toInt
  | .int value => toString value.toInt
  | .long value => toString value.toInt
  | .double bits => Decimal.text bits
  | .text value => value
  | .array _ => "array"
  | .object _ _ => "<object>"
  | .classRef _ => "<class>"

/-- The text of a value whose items and parts are shown by `scalar`; an array in an array shows
its length only. -/
def textWith (heap : Heap) (scalar : Value → String) (value : Value) : String :=
  let item : Value → String
    | .array inner => s!"array[{(heap.items inner).size}]"
    | other => scalar other
  match value with
  | .array id => Text.bracketed ((heap.items id).toList.map item)
  | other => scalar other

/-- The text of a value. -/
def text (heap : Heap) (value : Value) : String :=
  heap.textWith scalarText value

/-- The text of a value for a developer, with arrays shown `depth` levels deep. -/
def debugText (heap : Heap) : Nat → Value → String
  | 0, _ => ""
  | depth + 1, value =>
    match value with
    | .text value => Text.quoted value
    | .array id => Text.bracketed ((heap.items id).toList.map (debugText heap depth))
    | .object view id => s!"Object({view.index}@{Text.hex 1 id.index})"
    | .classRef id => s!"Class({id.index})"
    | other => s!"{other.typeName}({scalarText other})"

end Heap

end ObjectMachine
