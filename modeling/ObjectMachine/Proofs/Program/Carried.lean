import ObjectMachine.Proofs.Code.Labels
import ObjectMachine.Proofs.Program.Entry

/-!
# Emitted code in a program

Emitted code stands somewhere in the code of a program, behind that of other units and before the
entry sequence. What a call has asked for is fetched there one instruction after the other, each
distance leading to where its label has been anchored last.
-/

namespace ObjectMachine

open Code

namespace Emission

/-! ## Items of a call -/

/-- The items that parts add, the first one at a position. -/
def itemsAt : Nat → List Part → List Item
  | _, [] => []
  | position, .put opcode width form :: parts =>
    let item : Item := ⟨position, opcode, width, form⟩
    item :: itemsAt (position + item.start.encode.length) parts
  | position, .newLabel :: parts | position, .anchor _ _ :: parts => itemsAt position parts

theorem items_addAll (account : Account) (parts : List Part) :
    (account.addAll parts).items = account.items ++ itemsAt account.position parts := by
  induction parts generalizing account with
  | nil => exact (List.append_nil _).symm
  | cons part parts ih =>
      refine (ih (account.add part)).trans ?_
      cases part with
      | put opcode width form => exact List.append_assoc ..
      | newLabel => rfl
      | anchor label target => rfl

theorem items_prefix_calls (account : Account) (calls : List Call) :
    account.items <+: (calls.foldl Account.call account).items := by
  induction calls generalizing account with
  | nil => exact List.prefix_rfl
  | cons call calls ih =>
      have first : account.items <+: (account.call call).items := by
        rw [Account.call, items_addAll]
        exact List.prefix_append _ _
      exact first.trans (ih _)

/-- The items of a call stand behind those of the calls before it. -/
theorem exists_items_amid (earlier later : List Call) (call : Call) :
    ∃ more, (Account.ofCalls (earlier ++ call :: later)).items =
      (Account.ofCalls earlier).items ++
        (itemsAt (Account.ofCalls earlier).position
          (call.parts (Account.ofCalls earlier).labels (Account.ofCalls earlier).position) ++
          more) := by
  obtain ⟨more, same⟩ := items_prefix_calls ((Account.ofCalls earlier).call call) later
  refine ⟨more, ?_⟩
  have whole : Account.ofCalls (earlier ++ call :: later) =
      later.foldl Account.call ((Account.ofCalls earlier).call call) := by
    rw [Account.ofCalls, List.foldl_append, List.foldl_cons]
    rfl
  rw [whole, ← same, Account.call, items_addAll, List.append_assoc]

/-! ## Assemblies of calls -/

theorem Call.AllValid.of_append {labels : Nat} {calls more : List Call}
    (h : AllValid labels (calls ++ more)) : AllValid labels calls := by
  induction calls generalizing labels with
  | nil => trivial
  | cons call calls ih => exact ⟨h.1, ih h.2⟩

/-- An assembly follows the account of the calls that have made it. -/
theorem follows_emit {calls : List Call} (valid : Call.AllValid 0 calls) :
    Follows (emit calls).2 (Account.ofCalls calls) ∧ (Account.ofCalls calls).Sound := by
  obtain ⟨answers, last, run, -, follows, sound⟩ :=
    follows_empty.mapM Account.sound_empty valid
  have emitted : emit calls = (answers, last) := run
  rw [emitted]
  exact ⟨follows, sound⟩

end Emission

namespace Segment

open Emission

/-- Whether the instructions that parts put stand one behind the other at an address, each distance
to a label leading to where the label lies. -/
def Carries (segment : Segment) (lies : Label → Nat → Prop) : Nat → List Part → Prop
  | _, [] => True
  | address, .put opcode _ form :: parts =>
    ∃ (instruction : Instruction) (distances : Destination → Int32),
      segment.fetch address = .ok instruction ∧ instruction.opcode = opcode ∧
        instruction.operand = form.resolve distances ∧
        (∀ entry ∈ form.slots, ∀ label, entry.1 = .label label →
          lies label (instruction.target (distances entry.1))) ∧
        Carries segment lies (instruction.offset + instruction.size) parts
  | address, .newLabel :: parts | address, .anchor _ _ :: parts =>
    Carries segment lies address parts

/-- Whether the finished code of calls stands in a segment, behind other code. It is no longer than
code can be, and no label is anchored beyond that. -/
structure Contains (segment : Segment) (front code : Bytes) (calls : List Call) : Prop where
  valid : Call.AllValid 0 calls
  finished : (emit calls).2.finish = .ok code
  placed : front ++ code <+: segment.bytes
  small : code.length < 0x8000000000000000
  near : ∀ state ∈ (emit calls).2.labels, ∀ position ∈ state.target, position < 0x8000000000000000

variable {segment : Segment} {lies : Label → Nat → Prop} {address : Nat}

theorem Carries.of_newLabels {count : Nat} {parts : List Part}
    (h : segment.Carries lies address (List.replicate count .newLabel ++ parts)) :
    segment.Carries lies address parts := by
  induction count with
  | zero => exact h
  | succ count ih => exact ih h

variable {front code back : Bytes} {own : List Instruction} {account : Account}

/-- A distance that has been computed leads to its target, wherever the code is. -/
theorem target_of_reach {instruction : Instruction} {distance : Int32} {target : Nat}
    (reaches : distance.toInt = reach instruction.offset target)
    (near : instruction.offset < 0x8000000000000000) (near' : target < 0x8000000000000000)
    (base : Nat) : (instruction.shift base).target distance = base + target := by
  rw [reach_eq_apart near near', apart] at reaches
  rw [Instruction.target, Instruction.offset_shift, reaches]
  omega

theorem exists_emitted (decoded : decode code = .ok own)
    (emitted : List.Forall₂ (Item.Emitted account reach) account.items own) {line : Nat}
    {item : Item} (here : account.items[line]? = some item) :
    ∃ instruction, own[line]? = some instruction ∧ Item.Emitted account reach item instruction ∧
      instruction.offset = boundary own line := by
  have rel := forall₂_getElem? emitted line
  rw [here] at rel
  obtain ⟨instruction, found, same⟩ := exists_of_rel_some rel
  have offset := (decode_eq_ok_iff.mp decoded).1.offset found
  rw [Nat.zero_add] at offset
  exact ⟨instruction, found, same, offset⟩

/-- Emitted code amid other code is carried where it stands. -/
theorem carries_of_items (whole : segment.bytes = front ++ code ++ back)
    (decoded : decode code = .ok own)
    (emitted : List.Forall₂ (Item.Emitted account reach) account.items own)
    (small : code.length < 0x8000000000000000)
    (near : ∀ label target, account.target (.label label) = some target →
      target < 0x8000000000000000)
    {parts : List Part} {line position : Nat} {more : List Item}
    (ahead : account.items.drop line = itemsAt position parts ++ more) :
    segment.Carries
      (fun label address => ∃ target, account.target (.label label) = some target ∧
        address = front.length + target)
      (front.length + boundary own line) parts := by
  induction parts generalizing line position with
  | nil => trivial
  | cons part parts ih =>
      cases part with
      | newLabel => exact ih ahead
      | anchor label target => exact ih ahead
      | put opcode width form =>
          have here : account.items[line]? = some ⟨position, opcode, width, form⟩ := by
            rw [← List.head?_drop, ahead]
            rfl
          obtain ⟨instruction, found, same, offset⟩ := exists_emitted decoded emitted here
          obtain ⟨distances, operand, leads⟩ := same.operand
          have inside := (List.getElem?_eq_some_iff.mp found).1
          have low : instruction.offset < 0x8000000000000000 := by
            have within := boundary_le_boundary (Nat.le_of_lt inside) (Nat.le_refl own.length)
            rw [← length_eq_boundary decoded] at within
            omega
          refine ⟨instruction.shift front.length, distances, fetch_amid whole decoded found,
            same.opcode, operand, fun entry slot label leading => ?_, ?_⟩
          · obtain ⟨target, known, reaches⟩ := leads entry slot
            rw [← same.offset] at reaches
            rw [leading] at known
            exact ⟨target, known, target_of_reach reaches low (near label target known) _⟩
          · have behind : (instruction.shift front.length).offset +
                (instruction.shift front.length).size =
                  front.length + boundary own (line + 1) := by
              rw [Instruction.offset_shift, Instruction.size_shift, boundary_succ found, offset]
              omega
            have rest : account.items.drop (line + 1) =
                itemsAt (position + (Item.start ⟨position, opcode, width, form⟩).encode.length)
                  parts ++ more := by
              rw [← List.tail_drop, ahead]
              rfl
            rw [behind]
            exact ih rest

namespace Contains

theorem lt_of_target {calls : List Call} (h : segment.Contains front code calls) {label : Label}
    {position : Nat} (known : targets (emit calls).2 (.label label) = some position) :
    position < 0x8000000000000000 := by
  obtain ⟨state, there, target⟩ := Option.bind_eq_some_iff.mp known
  exact h.near state (Array.mem_of_getElem? there) position target

/-- The code of a call that puts an instruction first is carried where it stands among that of other
calls. -/
theorem carries {earlier later : List Call} {call : Call}
    (h : segment.Contains front code (earlier ++ call :: later))
    {opcode : Opcode} {width : Width} {form : Form} {parts : List Part}
    (puts : call.parts (emit earlier).2.labels.size (emit earlier).2.position =
      .put opcode width form :: parts) :
    segment.Carries
      (fun label address => ∃ target,
        targets (emit (earlier ++ call :: later)).2 (.label label) = some target ∧
          address = front.length + target)
      (front.length + (emit earlier).2.position)
      (call.parts (emit earlier).2.labels.size (emit earlier).2.position) := by
  obtain ⟨back, whole⟩ := h.placed
  obtain ⟨follows, sound⟩ := follows_emit h.valid
  obtain ⟨before, -⟩ := follows_emit h.valid.of_append
  obtain ⟨own, decoded, emitted⟩ := (describes h.valid fun _ _ => rfl).decodes code h.finished
  obtain ⟨more, items⟩ := exists_items_amid earlier later call
  rw [← before.size, ← before.position] at items
  have ahead : (Account.ofCalls (earlier ++ call :: later)).items.drop
      (Account.ofCalls earlier).items.length =
        itemsAt (emit earlier).2.position
          (call.parts (emit earlier).2.labels.size (emit earlier).2.position) ++ more := by
    rw [items, List.drop_left]
  -- The first instruction tells which boundary the position of the call is.
  have start : (emit earlier).2.position = boundary own (Account.ofCalls earlier).items.length := by
    have here : (Account.ofCalls (earlier ++ call :: later)).items[
        (Account.ofCalls earlier).items.length]? =
          some ⟨(emit earlier).2.position, opcode, width, form⟩ := by
      rw [← List.head?_drop, ahead, puts]
      rfl
    obtain ⟨instruction, -, same, offset⟩ := exists_emitted decoded emitted here
    rw [← offset, same.offset]
  have near (label : Label) (target : Nat)
      (known : targets (emit (earlier ++ call :: later)).2 (.label label) = some target) :=
    h.lt_of_target known
  rw [follows.targets_eq sound.toScoped] at near ⊢
  have carried := carries_of_items whole.symm decoded emitted h.small near ahead
  rwa [← start] at carried

end Contains

end Segment

end ObjectMachine
