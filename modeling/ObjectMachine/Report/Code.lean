import ObjectMachine.Code.Instruction
import ObjectMachine.Report.Tree

/-!
# Reports on code
-/

namespace ObjectMachine

namespace Report

def ofWidth (width : Width) : Report :=
  text width.name

/-- Bytes, two digits each. -/
def ofBytes (bytes : Bytes) : Report :=
  text (String.join (bytes.map fun byte => Text.hex 2 byte.toNat))

/-- The bits of a double, unless it is no number. -/
def ofDouble (bits : UInt64) : Report :=
  if Binary64.ofBits bits = .nan then text "nan" else text (Text.hex 16 bits.toNat)

def ofOperand : Operand → Report
  | .absent => null
  | .byte value => object [("byte", report value)]
  | .char codeUnit => object [("char", report codeUnit)]
  | .short value => object [("short", report value)]
  | .int value => object [("int", report value)]
  | .long value => object [("long", report value)]
  | .double bits => object [("double", ofDouble bits)]
  | .count elements => object [("count", report elements)]
  | .index entry => object [("index", report entry)]
  | .offset distance => object [("offset", report distance)]
  | .table distances => object [("table", report distances)]
  | .tryPair onCatch onFinally => object [("try", report (onCatch, onFinally))]

def ofInstruction (instruction : Instruction) : Report :=
  object [("minimal_width", ofWidth instruction.minimalWidth),
    ("offset", report instruction.offset), ("offsets", report instruction.distances),
    ("opcode", text instruction.opcode.name), ("operand", ofOperand instruction.operand),
    ("size", report instruction.size), ("sizes", report (Width.all.map instruction.sizeAt)),
    ("targets", report instruction.targets), ("text", text instruction.text),
    ("width", ofWidth instruction.width)]

def ofShape : OperandShape → Report
  | .absent => text "None"
  | .uint8 => text "U8"
  | .uint16 => text "U16"
  | .int16 => text "I16"
  | .int32 => text "I32"
  | .int64 => text "I64"
  | .float64 => text "F64"
  | .index => text "Index"
  | .offset => text "Offset"
  | .caseTable => text "CaseTable"
  | .tryPair => text "TryPair"

/-- What a byte means where an opcode is expected. -/
def ofOpcodeByte (byte : UInt8) : Report :=
  match Opcode.decode? byte with
  | none => object [("byte", report byte), ("opcode", null)]
  | some (opcode, width) =>
    object [("base", report opcode.base), ("branch", report opcode.shape.isBranch),
      ("byte", report byte), ("compare_branch", report opcode.isCompareBranch),
      ("encoded", report (Width.all.map opcode.encode)), ("jump", report opcode.isJump),
      ("opcode", text opcode.name), ("operand", ofShape opcode.shape),
      ("reflection", report opcode.isReflection), ("return", report opcode.isReturn),
      ("table", report (opcode.references.map (·.name.capitalize))),
      ("terminator", report opcode.isTerminator), ("variable", report opcode.shape.isVariable),
      ("width", ofWidth width)]

end Report

instance : Reportable Width := ⟨.ofWidth⟩
instance : Reportable Opcode := ⟨fun opcode => .text opcode.name⟩
instance : Reportable Instruction := ⟨.ofInstruction⟩

end ObjectMachine
