import ObjectMachine.Proofs.Code.Emission

/-!
# The calls that emit code

Code is emitted by calls: one for each kind of instruction, those that create and anchor labels,
and those that put several instructions at once. Every call comes down to parts that are known
from the number of labels and the position alone.
-/

namespace ObjectMachine

namespace Emission

/-- A call of the interface for emitting code. -/
inductive Call
  | op (opcode : Opcode)
  | index (opcode : Opcode) (number : UInt32)
  | pushBool (value : Bool)
  | pushByte (value : UInt8)
  | pushChar (codeUnit : UInt16)
  | pushShort (value : Int16)
  | pushInt (value : Int32)
  | pushLong (value : Int64)
  | pushDouble (bits : UInt64)
  | convert (kind : Kind)
  | makeArray (elements : UInt16)
  | newLabel
  | branch (opcode : Opcode) (label : Label)
  | jump (opcode : Opcode)
  | jumpTo (opcode : Opcode) (target : Nat)
  | caseTable (labels : List Label)
  | enterTry (hasCatch : Bool)
  | switch (values : List Int32) (scratch : UInt32)
  | anchor (label : Label)
  | anchorTo (label : Label) (target : Nat)
deriving Repr

namespace Call

def perform : Call → Assemble (List Label)
  | op opcode => do Assemble.op opcode; pure []
  | index opcode number => do Assemble.index opcode number; pure []
  | pushBool value => do Assemble.pushBool value; pure []
  | pushByte value => do Assemble.pushByte value; pure []
  | pushChar codeUnit => do Assemble.pushChar codeUnit; pure []
  | pushShort value => do Assemble.pushShort value; pure []
  | pushInt value => do Assemble.pushInt value; pure []
  | pushLong value => do Assemble.pushLong value; pure []
  | pushDouble bits => do Assemble.pushDouble bits; pure []
  | convert kind => do Assemble.convert kind; pure []
  | makeArray elements => do Assemble.makeArray elements; pure []
  | newLabel => do pure [← Assemble.newLabel]
  | branch opcode label => do Assemble.branch opcode label; pure []
  | jump opcode => do pure [← Assemble.jump opcode]
  | jumpTo opcode target => do Assemble.jumpTo opcode target; pure []
  | caseTable labels => do Assemble.caseTable labels; pure []
  | enterTry hasCatch => do
    let labels ← Assemble.enterTry hasCatch
    pure (labels.onCatch.toList ++ [labels.onFinally])
  | switch values scratch => do
    let labels ← Assemble.switch values scratch
    pure (labels.cases ++ [labels.otherwise])
  | anchor label => do Assemble.anchor label; pure []
  | anchorTo label target => do Assemble.anchorTo label target; pure []

def created : Call → Nat
  | newLabel | jump _ => 1
  | enterTry hasCatch => if hasCatch then 2 else 1
  | switch values _ => values.length + 1
  | _ => 0

def fresh (labels count : Nat) : List Label :=
  (List.range' labels count).map Label.mk

/-- An instruction without distances, at the width of a fixed operand. -/
def plain (opcode : Opcode) (operand : Operand) : Part :=
  .put opcode .narrow (.plain operand)

def indexed (opcode : Opcode) (number : UInt32) : Part :=
  .put opcode (Width.forIndex number.toNat) (.plain (.index number))

def branching (opcode : Opcode) (label : Label) : Part :=
  .put opcode .wide (.branch (.label label))

/-- The instructions of a switch that find the label for the value in a scratch slot. -/
def selection (values : List Int32) (scratch : UInt32) (labels : Assemble.SwitchLabels) :
    List Part :=
  match SwitchPlan.choose values with
  | .table least span =>
    [indexed .loadLocal scratch] ++
      (if least ≠ 0 then [plain .pushInt (.int least), plain .sub .absent] else []) ++
      [.put .caseOf .wide (.cases (Assemble.tableSlots least span values labels))]
  | .chain =>
    (values.zip labels.cases).flatMap fun (value, label) =>
      [indexed .loadLocal scratch, plain .pushInt (.int value), branching .jce label]

/-- The parts of a call, made after a number of labels and at a position. -/
def parts (labels position : Nat) : Call → List Part
  | op opcode => [plain opcode .absent]
  | index opcode number => [indexed opcode number]
  | pushBool value => [plain (if value then .pushTrue else .pushFalse) .absent]
  | pushByte value => [plain .pushByte (.byte value)]
  | pushChar codeUnit => [plain .pushChar (.char codeUnit)]
  | pushShort value => [plain .pushShort (.short value)]
  | pushInt value => [plain .pushInt (.int value)]
  | pushLong value => [plain .pushLong (.long value)]
  | pushDouble bits => [plain .pushDouble (.double bits)]
  | convert kind => [plain .convert (.byte kind.code)]
  | makeArray elements => [plain .makeArray (.count elements)]
  | newLabel => [.newLabel]
  | branch opcode label => [branching opcode label]
  | jump opcode => [.newLabel, branching opcode ⟨labels⟩]
  | jumpTo opcode target =>
    [.put opcode (Width.forOffset (reach position target)) (.branch (.position target))]
  | caseTable entries => [.put .caseOf .wide (.cases entries)]
  | enterTry true =>
    [.newLabel, .newLabel, .put .enterTry .wide (.bodies (some ⟨labels⟩) ⟨labels + 1⟩)]
  | enterTry false => [.newLabel, .put .enterTry .wide (.bodies none ⟨labels⟩)]
  | switch values scratch =>
    let otherwise : Label := ⟨labels + values.length⟩
    [indexed .storeLocal scratch] ++ List.replicate (values.length + 1) .newLabel ++
      selection values scratch ⟨fresh labels values.length, otherwise⟩ ++
      [branching .jmp otherwise]
  | anchor label => [.anchor label position]
  | anchorTo label target => [.anchor label target]

end Call

def runAll (assembly : Assembly) (parts : List Part) : Assembly :=
  parts.foldl Part.run assembly

/-! ## Calls and their parts -/

theorem Array.modify_push_last {items : Array α} {place : Nat} (last : place = items.size)
    (item : α) (change : α → α) :
    (items.push item).modify place change = items.push (change item) := by
  subst last
  apply Array.ext'
  rw [Array.toList_modify, Array.toList_push,
    List.modify_eq_take_cons_drop (by simp)]
  simp

theorem Array.modify_push_of_lt {items : Array α} {place : Nat} (inside : place < items.size)
    (item : α) (change : α → α) :
    (items.push item).modify place change = (items.modify place change).push item := by
  apply Array.ext_getElem?
  intro line
  simp only [Array.getElem?_modify, Array.getElem?_push, Array.size_modify]
  by_cases last : line = items.size
  · have other : place ≠ line := by omega
    simp [last, show place ≠ items.size by omega]
  · simp [last]

/-- A branch to a label that is not anchored yet is only noted. -/
theorem addSite_of_unanchored {assembly : Assembly} {label : Label}
    (unanchored : assembly.labels[label.id]?.bind (·.target) = none) (site : LabelSite) :
    assembly.addSite label site =
      { assembly with
        labels := assembly.labels.modify label.id fun state =>
          { state with sites := state.sites.push site } } := by
  simp only [Assembly.addSite, unanchored]

/-- Whether an emission answers with a value and does what several parts do. -/
def Emits (emission : Assemble α) (assembly : Assembly) (answer : α) (parts : List Part) : Prop :=
  emission.run assembly = (answer, runAll assembly parts)

namespace Emits

variable {assembly : Assembly}

theorem pure (answer : α) : Emits (Pure.pure answer) assembly answer [] :=
  rfl

theorem bind {emission : Assemble α} {next : α → Assemble β} {answer : α} {result : β}
    {parts more : List Part} (first : Emits emission assembly answer parts)
    (second : Emits (next answer) (runAll assembly parts) result more) :
    Emits (emission >>= next) assembly result (parts ++ more) := by
  have both : (emission >>= next).run assembly =
      (next (emission.run assembly).1).run (emission.run assembly).2 := rfl
  rw [Emits, both, first, second, runAll, runAll, runAll, List.foldl_append]

theorem emit (opcode : Opcode) (width : Width) (operand : Operand) :
    Emits (Assemble.emit opcode width operand) assembly ()
      [.put opcode width (.plain operand)] :=
  rfl

theorem index (opcode : Opcode) (number : UInt32) :
    Emits (Assemble.index opcode number) assembly () [Call.indexed opcode number] :=
  rfl

theorem newLabel :
    Emits Assemble.newLabel assembly ⟨assembly.labels.size⟩ [.newLabel] :=
  rfl

theorem anchorTo (label : Label) (target : Nat) :
    Emits (Assemble.anchorTo label target) assembly () [.anchor label target] :=
  rfl

theorem anchor (label : Label) :
    Emits (Assemble.anchor label) assembly () [.anchor label assembly.position] :=
  rfl

/-- Putting an instruction whose distances lead to labels. -/
theorem emit_addSites (opcode : Opcode) (width : Width) (form : Form) (labels : List Label)
    (slots : form.slots = (labels.map Destination.label).zipIdx) :
    Emits (do Assemble.emit opcode width (form.resolve fun _ => 0); Assemble.addSites 0 labels)
      assembly () [.put opcode width form] := by
  have zipped : (labels.map Destination.label).zipIdx =
      labels.zipIdx.map fun entry => (Destination.label entry.1, entry.2) := by
    rw [List.zipIdx_map]
    rfl
  simp only [Emits, runAll, List.foldl_cons, List.foldl_nil, Part.run, slots, zipped,
    List.foldl_map]
  simp [Assemble.emit, Assemble.addSites]
  rfl

theorem branch (opcode : Opcode) (label : Label) :
    Emits (Assemble.branch opcode label) assembly () [Call.branching opcode label] :=
  emit_addSites opcode .wide (.branch (.label label)) [label] rfl

theorem caseTable (labels : List Label) :
    Emits (Assemble.caseTable labels) assembly () [.put .caseOf .wide (.cases labels)] :=
  emit_addSites .caseOf .wide (.cases labels) labels rfl

theorem jump (opcode : Opcode) :
    Emits (Assemble.jump opcode) assembly ⟨assembly.labels.size⟩
      [.newLabel, Call.branching opcode ⟨assembly.labels.size⟩] :=
  newLabel.bind ((branch opcode _).bind (pure _))

/-- A branch to a known position holds its distance at once, where another one is patched. -/
theorem jumpTo (opcode : Opcode) (target : Nat) :
    Emits (Assemble.jumpTo opcode target) assembly ()
      [.put opcode (Width.forOffset (reach assembly.position target))
        (.branch (.position target))] := by
  let item : Item := ⟨assembly.position, opcode, Width.forOffset (reach assembly.position target),
    .branch (.position target)⟩
  let pushed : Assembly :=
    { assembly with
      instructions := assembly.instructions.push item.start
      position := assembly.position + item.start.encode.length }
  have put : (Part.put opcode (Width.forOffset (reach assembly.position target))
      (.branch (.position target))).run assembly =
        pushed.patch target ⟨assembly.instructions.size, assembly.position, 0⟩ := rfl
  by_cases near : Assembly.fits (reach assembly.position target) = true
  · have emitted : Assemble.jumpTo opcode target assembly =
        Assemble.emit opcode item.width
          (.offset (Int32.ofInt (reach assembly.position target))) assembly :=
      congrFun (if_pos near) assembly
    have patched : pushed.patch target ⟨assembly.instructions.size, assembly.position, 0⟩ =
        { pushed with
          instructions := pushed.instructions.modify assembly.instructions.size
            (repoint ⟨assembly.instructions.size, assembly.position, 0⟩ target) } := if_pos near
    have length := item.length_encode fun _ => Int32.ofInt (reach assembly.position target)
    refine emitted.trans ?_
    rw [runAll, List.foldl_cons, List.foldl_nil, put, patched, Array.modify_push_last rfl]
    simp only [pushed, ← length]
    rfl
  · have emitted : Assemble.jumpTo opcode target assembly =
        Assemble.emit opcode item.width (.offset 0) (assembly.noteOverflow assembly.position) :=
      congrFun (if_neg near) assembly
    have patched : pushed.patch target ⟨assembly.instructions.size, assembly.position, 0⟩ =
        pushed.noteOverflow assembly.position := if_neg near
    refine emitted.trans ?_
    rw [runAll, List.foldl_cons, List.foldl_nil, put, patched]
    rfl

theorem newLabels (values : List α) :
    Emits (values.mapM fun _ => Assemble.newLabel) assembly
      (Call.fresh assembly.labels.size values.length)
      (List.replicate values.length .newLabel) := by
  induction values generalizing assembly with
  | nil => rfl
  | cons value values ih =>
      rw [List.mapM_cons]
      have size : (runAll assembly [.newLabel]).labels.size = assembly.labels.size + 1 := by
        simp [runAll, Part.run]
      have rest : Emits (values.mapM fun _ => Assemble.newLabel) (runAll assembly [.newLabel])
          (Call.fresh (assembly.labels.size + 1) values.length)
          (List.replicate values.length .newLabel) := by
        rw [← size]
        exact ih
      have all : Emits
          (do
            let labels ← values.mapM fun _ => Assemble.newLabel
            Pure.pure ((⟨assembly.labels.size⟩ : Label) :: labels))
          (runAll assembly [.newLabel]) (Call.fresh assembly.labels.size (values.length + 1))
          (List.replicate values.length .newLabel ++ []) := rest.bind (pure _)
      rw [List.append_nil] at all
      exact newLabel.bind all

theorem enterTry_false :
    Emits (Assemble.enterTry false) assembly ⟨none, ⟨assembly.labels.size⟩⟩
      [.newLabel, .put .enterTry .wide (.bodies none ⟨assembly.labels.size⟩)] := by
  simp [Emits, Assemble.enterTry, Assemble.emit, Assemble.newLabel, Assemble.addSites, runAll,
    Part.run, Form.slots, settle, addSite_of_unanchored]
  rfl

/-- The labels of a try construct are created while its instruction is put, which makes no
difference. -/
theorem enterTry_true :
    Emits (Assemble.enterTry true) assembly
      ⟨some ⟨assembly.labels.size⟩, ⟨assembly.labels.size + 1⟩⟩
      [.newLabel, .newLabel, .put .enterTry .wide
        (.bodies (some ⟨assembly.labels.size⟩) ⟨assembly.labels.size + 1⟩)] := by
  let start := Item.start ⟨assembly.position, .enterTry, .wide,
    .bodies (some ⟨assembly.labels.size⟩) ⟨assembly.labels.size + 1⟩⟩
  let pushed (labels : Array LabelState) : Assembly :=
    { assembly with
      instructions := assembly.instructions.push start
      position := assembly.position + start.encode.length
      labels := labels }
  let site (slot : Nat) : LabelSite := ⟨assembly.instructions.size, assembly.position, slot⟩
  have entered : (Assemble.enterTry true).run assembly =
      (⟨some ⟨assembly.labels.size⟩, ⟨assembly.labels.size + 1⟩⟩,
        pushed ((assembly.labels.push ⟨#[site 0], none⟩).push ⟨#[site 1], none⟩)) := by
    simp [Assemble.enterTry, Assemble.emit, Assemble.newLabel, Assemble.addSites,
      addSite_of_unanchored, Array.modify_push_last]
    rfl
  have onCatch : (pushed ((assembly.labels.push ⟨#[], none⟩).push ⟨#[], none⟩)).addSite
      ⟨assembly.labels.size⟩ (site 0) =
      pushed ((assembly.labels.push ⟨#[site 0], none⟩).push ⟨#[], none⟩) := by
    have first : ((assembly.labels.push ⟨#[], none⟩).push ⟨#[], none⟩)[
        assembly.labels.size]? = some (⟨#[], none⟩ : LabelState) := by
      rw [Array.getElem?_push, if_neg (by simp), Array.getElem?_push, if_pos rfl]
    rw [addSite_of_unanchored (by simp only [pushed, first]; rfl)]
    simp only [pushed]
    rw [Array.modify_push_of_lt (by simp), Array.modify_push_last rfl]
    rfl
  have onFinally : (pushed ((assembly.labels.push ⟨#[site 0], none⟩).push ⟨#[], none⟩)).addSite
      ⟨assembly.labels.size + 1⟩ (site 1) =
      pushed ((assembly.labels.push ⟨#[site 0], none⟩).push ⟨#[site 1], none⟩) := by
    have latest : ((assembly.labels.push ⟨#[site 0], none⟩).push ⟨#[], none⟩)[
        assembly.labels.size + 1]? = some (⟨#[], none⟩ : LabelState) := by
      rw [Array.getElem?_push, if_pos (by simp)]
    rw [addSite_of_unanchored (by simp only [pushed, latest]; rfl)]
    simp only [pushed]
    rw [Array.modify_push_last (by simp)]
    rfl
  rw [Emits, entered, ← onFinally, ← onCatch]
  rfl

/-- The chain of comparisons of a switch. -/
theorem comparisons (scratch : UInt32) (entries : List (Int32 × Label)) :
    Emits
      (entries.forM fun (value, label) => do
        Assemble.index .loadLocal scratch
        Assemble.pushInt value
        Assemble.branch .jce label)
      assembly ()
      (entries.flatMap fun (value, label) =>
        [Call.indexed .loadLocal scratch, Call.plain .pushInt (.int value),
          Call.branching .jce label]) := by
  induction entries generalizing assembly with
  | nil => rfl
  | cons entry entries ih =>
      have first : Emits
          (do
            Assemble.index .loadLocal scratch
            Assemble.pushInt entry.1
            Assemble.branch .jce entry.2)
          assembly ()
          [Call.indexed .loadLocal scratch, Call.plain .pushInt (.int entry.1),
            Call.branching .jce entry.2] :=
        (emit _ _ _).bind ((emit _ _ _).bind (branch _ _))
      exact first.bind ih

theorem size_newLabels (count : Nat) :
    (runAll assembly (List.replicate count .newLabel)).labels.size =
      assembly.labels.size + count := by
  induction count generalizing assembly with
  | zero => rfl
  | succ count ih =>
      have size : (runAll assembly [.newLabel]).labels.size = assembly.labels.size + 1 := by
        simp [runAll, Part.run]
      calc (runAll (runAll assembly [.newLabel]) (List.replicate count .newLabel)).labels.size
          = (runAll assembly [.newLabel]).labels.size + count := ih
        _ = assembly.labels.size + (count + 1) := by rw [size]; omega

theorem switch (values : List Int32) (scratch : UInt32) :
    Emits (Assemble.switch values scratch) assembly
      ⟨Call.fresh assembly.labels.size values.length, ⟨assembly.labels.size + values.length⟩⟩
      ((Call.switch values scratch).parts assembly.labels.size assembly.position) := by
  have split : (Call.switch values scratch).parts assembly.labels.size assembly.position =
      [Call.indexed .storeLocal scratch] ++ (List.replicate values.length .newLabel ++
        ([.newLabel] ++ (Call.selection values scratch
          ⟨Call.fresh assembly.labels.size values.length,
            ⟨assembly.labels.size + values.length⟩⟩ ++
          [Call.branching .jmp ⟨assembly.labels.size + values.length⟩]))) := by
    simp [Call.parts, List.replicate_succ']
  have size : (runAll (runAll assembly [Call.indexed .storeLocal scratch])
      (List.replicate values.length .newLabel)).labels.size =
        assembly.labels.size + values.length := size_newLabels _
  have otherwise : Emits Assemble.newLabel
      (runAll (runAll assembly [Call.indexed .storeLocal scratch])
        (List.replicate values.length .newLabel))
      ⟨assembly.labels.size + values.length⟩ [.newLabel] := by
    rw [← size]
    exact newLabel
  rw [split]
  refine (index .storeLocal scratch).bind ((newLabels values).bind (otherwise.bind ?_))
  have last (before : Assembly) : Emits
      (do
        Assemble.branch .jmp ⟨assembly.labels.size + values.length⟩
        Pure.pure (⟨Call.fresh assembly.labels.size values.length,
          ⟨assembly.labels.size + values.length⟩⟩ : Assemble.SwitchLabels))
      before ⟨Call.fresh assembly.labels.size values.length,
        ⟨assembly.labels.size + values.length⟩⟩
      [Call.branching .jmp ⟨assembly.labels.size + values.length⟩] :=
    (branch _ _).bind (pure _)
  unfold Call.selection
  cases SwitchPlan.choose values with
  | chain => exact (comparisons scratch _).bind (last _)
  | table least span =>
      by_cases zero : least = 0
      · simp only [zero, ne_eq, not_true_eq_false, if_false]
        exact (index .loadLocal scratch).bind ((caseTable _).bind (last _))
      · simp only [zero, ne_eq, not_false_eq_true, if_true]
        exact (index .loadLocal scratch).bind ((emit .pushInt _ _).bind
          ((emit .sub _ _).bind ((caseTable _).bind (last _))))

end Emits

theorem Call.fresh_succ (labels count : Nat) :
    fresh labels (count + 1) = fresh labels count ++ [⟨labels + count⟩] := by
  simp [fresh, List.range'_1_concat]

/-- A call answers with the labels that it has created, and does what its parts do. -/
theorem Call.emits (call : Call) (assembly : Assembly) :
    Emits call.perform assembly (fresh assembly.labels.size call.created)
      (call.parts assembly.labels.size assembly.position) := by
  cases call with
  | jump opcode => exact (Emits.jump opcode).bind (Emits.pure _)
  | jumpTo opcode target => exact (Emits.jumpTo opcode target).bind (Emits.pure _)
  | caseTable labels => exact (Emits.caseTable labels).bind (Emits.pure _)
  | branch opcode label => exact (Emits.branch opcode label).bind (Emits.pure _)
  | enterTry hasCatch =>
      cases hasCatch with
      | false => exact Emits.enterTry_false.bind (Emits.pure _)
      | true => exact Emits.enterTry_true.bind (Emits.pure _)
  | switch values scratch =>
      have answered : Emits (perform (switch values scratch)) assembly
          (fresh assembly.labels.size values.length ++ [⟨assembly.labels.size + values.length⟩])
          ((switch values scratch).parts assembly.labels.size assembly.position ++ []) :=
        (Emits.switch values scratch).bind (Emits.pure _)
      rwa [List.append_nil, ← fresh_succ] at answered
  | _ => rfl

namespace Account

def addAll (account : Account) (parts : List Part) : Account :=
  parts.foldl add account

def call (account : Account) (call : Call) : Account :=
  account.addAll (call.parts account.labels account.position)

/-- What several calls ask of an assembly that has nothing in it. -/
def ofCalls (calls : List Call) : Account :=
  calls.foldl Account.call .empty

end Account

end Emission

end ObjectMachine
