import ObjectMachine.Proofs.Machine.Comparisons
import ObjectMachine.Proofs.Value.Texts

/-!
# Conversion to a text and back

A value that is converted to a text and back to its own kind is what it was, unless it is a code
unit whose text does not say which one it is: a blank leaves nothing to read, and half of a
surrogate pair is read as the backslash its text begins with.
-/

namespace ObjectMachine

namespace Value

variable {kind : Kind} {value : Value} {heap : Heap}

theorem describe_of_plain (plain : value.plainKind? = some kind) (program : Program) (heap : Heap) :
    program.describe heap value = Heap.scalarText value := by
  cases value <;> first | rfl | cases plain

/-- The text of a value is read as what it says, or fails with that text in the message. -/
theorem convert_scalarText (plain : value.plainKind? = some kind) :
    convert heap kind (text (Heap.scalarText value)) =
      match value.reread with
      | some again => .ok again
      | none => .error (.conversionFailed (Heap.scalarText value) kind) := by
  have notText : kind ≠ .string := by
    rintro rfl
    cases value <;> cases plain
  rw [reread_eq plain]
  unfold convert
  dsimp only
  rw [if_neg notText]
  rfl

end Value

def Instruction.Converts (kind : Kind) (instruction : Instruction) : Prop :=
  instruction.opcode = .convert ∧ instruction.operand = .byte kind.code

namespace Step

variable {setup : Setup} {scene : Scene} {value : Value} {kind : Kind} {instruction : Instruction}

theorem push_bind_pop {following : Value → Step α}
    (room : scene.thread.stack.depth < scene.thread.stack.limit) :
    (push value >>= fun _ => pop >>= following) setup scene = following value setup scene := by
  have top : (scene.thread.stack.slots.push value).back? = some value := Array.back?_push
  rw [bind_of_ok (push_of_room value room), bind_of_ok (pop_of_back? top)]
  simp only [Array.pop_push]

/-- Steps that begin with a push are alike if they are where there is room for it. -/
theorem push_bind_congr {value' : Value} {following following' : Unit → Step α}
    (same : ∀ setup scene, scene.thread.stack.depth < scene.thread.stack.limit →
      (push value >>= following) setup scene = (push value' >>= following') setup scene) :
    (push value >>= following) = (push value' >>= following') := by
  funext setup scene
  by_cases full : scene.thread.stack.limit ≤ scene.thread.stack.depth
  · have fails (other : Value) : push other setup scene = .error .stackOverflow scene := by
      unfold push onStack Stack.push
      change scene.thread.stack.limit ≤ scene.thread.stack.slots.size at full
      simp only [if_pos full]
    rw [bind_of_error (fails value), bind_of_error (fails value')]
  · exact same setup scene (Nat.lt_of_not_le full)

theorem convert_string :
    convert Kind.string.code = (do let value ← pop; push (.text (← describe value))) :=
  rfl

theorem convert_of_ne_string (notText : kind ≠ .string) :
    convert kind.code =
      (do let value ← pop; push (← require (Value.convert (← heap) kind value))) := by
  cases kind with
  | string => exact absurd rfl notText
  | byte | char | short | int | long | double | bool => rfl

theorem execute_of_converts (converts : instruction.Converts kind) :
    execute instruction = (do convert kind.code; pure Signal.proceed) := by
  unfold execute
  rw [converts.1, converts.2]

theorem push_execute_string {following : Signal → Step α}
    (room : scene.thread.stack.depth < scene.thread.stack.limit)
    (converts : instruction.Converts .string) :
    (do push value; following (← execute instruction)) setup scene =
      (do push (.text (← describe value)); following .proceed) setup scene := by
  rw [execute_of_converts converts, convert_string]
  simp only [bind_assoc, pure_bind]
  exact push_bind_pop room

theorem push_execute_of_ne_string (room : scene.thread.stack.depth < scene.thread.stack.limit)
    (notText : kind ≠ .string) (converts : instruction.Converts kind) :
    (do push value; execute instruction) setup scene =
      (do push (← require (Value.convert (← heap) kind value)); pure Signal.proceed)
        setup scene := by
  rw [execute_of_converts converts, convert_of_ne_string notText]
  simp only [bind_assoc]
  exact push_bind_pop room

/-- A value that is converted to a text and back is replaced by what is read from its text. -/
theorem push_execute_reread {there back : Instruction} (plain : value.plainKind? = some kind)
    (writes : there.Converts .string) (reads : back.Converts kind)
    (room : scene.thread.stack.depth < scene.thread.stack.limit) :
    (do push value; let _ ← execute there; execute back) setup scene =
      match value.reread with
      | some again => (do push again; pure Signal.proceed) setup scene
      | none =>
        (throw (.conversionFailed (Heap.scalarText value) kind) : Step Signal) setup scene := by
  have notText : kind ≠ .string := by
    rintro rfl
    cases value <;> cases plain
  have written : describe value setup scene = .ok (Heap.scalarText value) scene := by
    rw [← Value.describe_of_plain plain setup.program scene.world.store.heap]
    rfl
  rw [push_execute_string room writes, bind_of_ok written,
    push_execute_of_ne_string room notText reads]
  change (require (Value.convert scene.world.store.heap kind _) >>= _) setup scene = _
  rw [Value.convert_scalarText plain]
  cases value.reread with
  | some again => rfl
  | none => rfl

end Step

/-! ## There and back -/

open Step

/-- What becomes of a value that is put on the stack, converted to a text by one instruction and
back by another one. -/
structure ConvertsBack (value : Value) (kind : Kind) (there back : Instruction) : Prop where
  legible : value.isLegible = true →
    (do push value; let _ ← execute there; execute back) = (do push value; pure .proceed)
  /-- A blank is trimmed from its own text. -/
  blank (codeUnit : UInt16) : value = .char codeUnit → Value.isBlankUnit codeUnit = true →
    (do push value; let _ ← execute there; execute back) =
      (do push value; let _ ← pop; throw (.conversionFailed (Heap.scalarText value) kind))
  /-- The text of half of a surrogate pair begins with a backslash. -/
  surrogate (codeUnit : UInt16) : value = .char codeUnit → Value.isSurrogate codeUnit = true →
    (do push value; let _ ← execute there; execute back) =
      (do push (.char 0x5C); pure .proceed)

variable {value : Value} {kind : Kind} {there back : Instruction}

/-- **Values are read back from their texts.** A whole number, a truth value or a code unit that is
converted to a text and back to its kind is what it was, except for blanks and surrogates. -/
theorem convertsBack_of_plain (plain : value.plainKind? = some kind)
    (writes : there.Converts .string) (reads : back.Converts kind) :
    ConvertsBack value kind there back where
  legible legible := push_bind_congr fun setup scene room => by
    rw [push_execute_reread plain writes reads room, Value.reread_of_isLegible plain legible]
  blank codeUnit same blank := push_bind_congr fun setup scene room => by
    have single : Value.isSurrogate codeUnit = false := by
      simpa using (Bool.and_eq_true_iff.mp blank).1
    have unread : value.reread = none := by
      simp [same, Value.reread_char, single, blank]
    rw [push_execute_reread plain writes reads room, unread, push_bind_pop room]
  surrogate codeUnit same half := push_bind_congr fun setup scene room => by
    have misread : value.reread = some (.char 0x5C) := by
      simp [same, Value.reread_char, half]
    rw [push_execute_reread plain writes reads room, misread]

/-- The least number there is comes back, sign and all. -/
theorem convertsBack_minValue :
    (do push (.long Int64.minValue)
        let _ ← execute ⟨0, .convert, .narrow, .byte 8⟩
        execute ⟨2, .convert, .narrow, .byte 5⟩) =
      (do push (.long Int64.minValue); pure Signal.proceed) := by
  have back : ConvertsBack (.long Int64.minValue) .long ⟨0, .convert, .narrow, .byte 8⟩
      ⟨2, .convert, .narrow, .byte 5⟩ := convertsBack_of_plain rfl ⟨rfl, rfl⟩ ⟨rfl, rfl⟩
  exact back.legible rfl

/-- A program with no code to speak of, and a thread of it that has room for one value. -/
def idleSetup : Setup where
  program := {
    code := .ofBytes []
    modules := #[]
    catalog := ⟨#[]⟩
    symbols := .empty
    entry := 0
    entryModule := ⟨0⟩
    mainClass := ⟨0⟩
    mainTakesArgs := false }
  limits := { stack := 1 }

def idleScene : Scene where
  thread := .start .main 0 ⟨0⟩ 1
  world := ⟨.ofCatalog ⟨#[]⟩, [], .start (.steps 100)⟩

/-- A space does not come back. -/
theorem space_lost :
    ¬ ∀ (value : Value) (kind : Kind) (there back : Instruction),
      value.plainKind? = some kind → there.Converts .string → back.Converts kind →
      (do push value; let _ ← execute there; execute back) =
        (do push value; pure Signal.proceed) := by
  intro comesBack
  have same := congrFun (congrFun (comesBack (.char 0x20) .char ⟨0, .convert, .narrow, .byte 8⟩
    ⟨2, .convert, .narrow, .byte 2⟩ rfl ⟨rfl, rfl⟩ ⟨rfl, rfl⟩) idleSetup) idleScene
  have unread : (Value.char 0x20).reread = none := by
    rw [Value.reread_char]
    decide
  have room : idleScene.thread.stack.depth < idleScene.thread.stack.limit := Nat.zero_lt_one
  rw [push_execute_reread rfl ⟨rfl, rfl⟩ ⟨rfl, rfl⟩ room, unread] at same
  cases same

end ObjectMachine
