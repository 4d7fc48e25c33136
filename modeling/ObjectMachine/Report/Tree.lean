import ObjectMachine.Text.Hex

/-!
# Reports

A report is a tree of named and listed values. It is printed over several lines, two blanks
deeper on each level.
-/

namespace ObjectMachine

inductive Report
  | null
  | bool (value : Bool)
  | number (value : Int)
  | text (value : String)
  | list (items : List Report)
  | object (fields : List (String × Report))
deriving Repr, Inhabited

/-- Things that can be shown in a report. -/
class Reportable (α : Type) where
  report : α → Report

export Reportable (report)

namespace Report

/-- A character of a printed text. -/
def escaped (char : Char) : String :=
  match char with
  | '"' => "\\\""
  | '\\' => "\\\\"
  | '\n' => "\\n"
  | '\r' => "\\r"
  | '\t' => "\\t"
  | '\x08' => "\\b"
  | '\x0c' => "\\f"
  | char => if char.toNat < 0x20 then "\\u" ++ Text.hex 4 char.toNat else char.toString

def quoted (text : String) : String :=
  "\"" ++ String.join (text.toList.map escaped) ++ "\""

/-- Items on lines of their own between brackets. -/
def block (depth : Nat) (opening closing : String) (items : List String) : String :=
  if items.isEmpty then opening ++ closing
  else
    let indent := "".pushn ' ' (2 * depth)
    let lines := items.map fun item => indent ++ "  " ++ item
    opening ++ "\n" ++ ",\n".intercalate lines ++ "\n" ++ indent ++ closing

mutual

/-- A report whose first line is already indented to a depth. -/
def pretty (depth : Nat) : Report → String
  | null => "null"
  | bool value => if value then "true" else "false"
  | number value => toString value
  | text value => quoted value
  | list items => block depth "[" "]" (prettyItems (depth + 1) items)
  | object fields => block depth "\x7b" "\x7d" (prettyFields (depth + 1) fields)

def prettyItems (depth : Nat) : List Report → List String
  | [] => []
  | item :: items => pretty depth item :: prettyItems depth items

def prettyFields (depth : Nat) : List (String × Report) → List String
  | [] => []
  | (name, value) :: fields =>
    (quoted name ++ ": " ++ pretty depth value) :: prettyFields depth fields

end

/-- A number that may be too large for a reader of reports, as a text. -/
def large (number : Int) : Report :=
  text (toString number)

end Report

instance : Reportable Report := ⟨id⟩
instance : Reportable Bool := ⟨.bool⟩
instance : Reportable Nat := ⟨fun number => .number number⟩
instance : Reportable Int := ⟨.number⟩
instance : Reportable UInt8 := ⟨fun number => .number number.toNat⟩
instance : Reportable UInt16 := ⟨fun number => .number number.toNat⟩
instance : Reportable UInt32 := ⟨fun number => .number number.toNat⟩
instance : Reportable UInt64 := ⟨fun number => .large number.toNat⟩
instance : Reportable Int16 := ⟨fun number => .number number.toInt⟩
instance : Reportable Int32 := ⟨fun number => .number number.toInt⟩
instance : Reportable Int64 := ⟨fun number => .large number.toInt⟩
instance : Reportable String := ⟨.text⟩
instance [Reportable α] : Reportable (List α) := ⟨fun items => .list (items.map report)⟩
instance [Reportable α] : Reportable (Array α) := ⟨fun items => report items.toList⟩
instance [Reportable α] : Reportable (Option α) := ⟨fun value => (value.map report).getD .null⟩
instance [Reportable α] [Reportable β] : Reportable (α × β) :=
  ⟨fun (first, second) => .list [report first, report second]⟩

end ObjectMachine
