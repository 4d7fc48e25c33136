import ObjectMachine.Proofs.Code.Closed
import ObjectMachine.Proofs.Code.Labels

/-!
# Finished code

If every position that something leads to is the start of an instruction, and every label that is
used has been anchored, then emission succeeds. The finished code is a closed stream.
-/

namespace ObjectMachine

namespace Emission

namespace Account

def Starts (account : Account) (position : Nat) : Prop :=
  ∃ item ∈ account.items, item.offset = position

instance (account : Account) (position : Nat) : Decidable (account.Starts position) :=
  inferInstanceAs (Decidable (∃ item ∈ account.items, item.offset = position))

/-- However items are made instructions, these start where the items do. -/
theorem Starts.of_laid {account : Account} {position : Nat} (starts : account.Starts position)
    {shape : Item → Instruction} (same : ∀ item, (shape item).offset = item.offset)
    (laid : Code.Laid 0 (account.items.map shape)) :
    Code.Starts (account.items.map shape) position := by
  obtain ⟨item, member, rfl⟩ := starts
  obtain ⟨line, here⟩ := List.getElem?_of_mem (List.mem_map_of_mem (f := shape) member)
  have offset := laid.offset here
  rw [Nat.zero_add, same] at offset
  exact ⟨line, (List.getElem?_eq_some_iff.mp here).1, offset⟩

/-- Whether everything that something leads to is known and is the start of an instruction. -/
structure Resolved (account : Account) : Prop where
  anchored : ∀ label site, ¬account.Dangling label site
  anchors : ∀ anchor ∈ account.anchors, account.Starts anchor.2
  branches : ∀ item ∈ account.items, ∀ target,
    item.form = .branch (.position target) → account.Starts target

theorem Resolved.starts_of_reached {account : Account} (h : account.Resolved) {position : Nat}
    (reached : account.Reached position) : account.Starts position := by
  rcases reached with ⟨anchor, anchored, rfl⟩ | ⟨item, member, form⟩
  · exact h.anchors anchor anchored
  · exact h.branches item member position form

/-- A destination leads to the start of an instruction. -/
theorem Resolved.exists_target {account : Account} (h : account.Resolved) {item : Item}
    (member : item ∈ account.items) {entry : Destination × Nat} (slot : entry ∈ item.form.slots) :
    ∃ target, account.target entry.1 = some target ∧ account.Starts target := by
  obtain ⟨target, known⟩ := Account.exists_target h.anchored member slot
  refine ⟨target, known, h.starts_of_reached ?_⟩
  cases destination : entry.1 with
  | position position =>
      rw [destination] at known
      injection known with same
      rw [← same]
      exact .inr ⟨item, member, form_of_slot slot destination⟩
  | label label =>
      rw [destination] at known
      obtain ⟨front, back, anchored, -⟩ := List.lookup_eq_some_iff.mp known
      exact .inl ⟨(label, target), by rw [anchored]; simp, rfl⟩

end Account

/-- Every encoded distance of an operand is that to a destination of its form. -/
theorem Form.exists_slot {form : Form} {opcode : Opcode} {width : Width} {position : Nat}
    (suits : form.Suits opcode width position) {distance : Destination → Int32} {encoded : Int32}
    (h : some encoded ∈ (form.resolve distance).encodedDistances) :
    ∃ entry ∈ form.slots, encoded = distance entry.1 := by
  cases form with
  | plain operand =>
      rw [resolve, Operand.encodedDistances_eq_nil suits.2.2 suits.1] at h
      exact absurd h List.not_mem_nil
  | branch destination =>
      exact ⟨_, List.mem_singleton_self _, by simpa [resolve, Operand.encodedDistances] using h⟩
  | cases labels =>
      simp only [resolve, Operand.encodedDistances, List.map_map, List.mem_map] at h
      obtain ⟨label, among, same⟩ := h
      injection same with same
      have listed : Destination.label label ∈ labels.map Destination.label :=
        List.mem_map_of_mem among
      obtain ⟨place, there⟩ := List.getElem?_of_mem listed
      exact ⟨(.label label, place), List.mk_mem_zipIdx_iff_getElem?.mpr there, same.symm⟩
  | bodies onCatch onFinally =>
      simp only [resolve, Operand.encodedDistances, List.mem_cons, List.not_mem_nil, or_false] at h
      rcases h with caught | last
      · -- A catch body with an encoded distance is one that is there.
        cases onCatch with
        | none => cases caught
        | some label =>
            refine ⟨(.label label, 0), List.mem_cons_self, ?_⟩
            split at caught
            · cases caught
            · exact Option.some.inj caught
      · refine ⟨(.label onFinally, 1), ?_, Option.some.inj last⟩
        exact List.mem_append_right _ (List.mem_singleton_self _)

namespace Account.Sound

variable {account : Account} (h : account.Sound)

include h

theorem lt_position {position : Nat} (starts : account.Starts position) :
    position < account.position := by
  obtain ⟨line, inside, rfl⟩ := starts.of_laid (fun _ => rfl) h.laid
  rw [← h.position, h.laid.length_encode]
  exact Code.boundary_lt_boundary inside (Nat.le_refl _)

theorem length_encode_instructions :
    (Code.encode account.instructions).length = account.position := by
  rw [← h.position]
  simp [Code.encode, Account.instructions, List.length_flatMap, Function.comp_def,
    Item.length_encode]

variable (resolved : account.Resolved) (small : account.position < 0x80000000)

include resolved small

/-- Distances within code of this size fit. -/
theorem near : firstFar account.computed = none := by
  refine firstFar_eq_none_iff.mpr fun pair member => fits_iff.mpr ?_
  obtain ⟨site, reached⟩ := h.traced pair member
  have before := h.lt_position site
  have after := h.lt_position (resolved.starts_of_reached reached)
  rw [reach_eq_apart (by omega) (by omega), apart, Width.Holds, Width.reach]
  omega

theorem starts_instructions {position : Nat} (starts : account.Starts position) :
    Code.Starts account.instructions position :=
  starts.of_laid (fun _ => rfl) (h.laid_instructions (h.near resolved small))

theorem closed_instructions : Code.Closed account.instructions := by
  intro instruction listed encoded present
  obtain ⟨item, member, rfl⟩ := List.mem_map.mp listed
  obtain ⟨entry, slot, rfl⟩ := Form.exists_slot (h.suits item member) present
  obtain ⟨target, known, starts⟩ := resolved.exists_target member slot
  obtain ⟨line, inside, there⟩ := h.starts_instructions resolved small starts
  have before := h.lt_position ⟨item, member, rfl⟩
  have after := h.lt_position starts
  refine ⟨line, inside, Nat.le_of_lt inside, ?_⟩
  rw [(h.distance_eq (h.near resolved small) member slot known).1,
    reach_eq_apart (by omega) (by omega), apart, ← there]
  change (item.offset : Int) + _ = _
  omega

theorem encodes_instructions :
    Code.Encodes (Code.encode account.instructions) account.instructions where
  decoded := Code.decode_encode (h.laid_instructions (h.near resolved small))
  closed := h.closed_instructions resolved small

end Account.Sound

/-- Emission succeeds if everything is resolved. -/
theorem Follows.finish_eq_ok {assembly : Assembly} {account : Account}
    (h : Follows assembly account) (sound : account.Sound) (resolved : account.Resolved)
    (small : account.position < 0x80000000) :
    assembly.finish = .ok (Code.encode account.instructions) := by
  have ends := h.ends sound
  generalize assembly.finish = result at ends
  cases ends with
  | overflow far =>
      rw [sound.near resolved small] at far
      cases far
  | unresolved _ dangling _ => exact absurd dangling (resolved.anchored _ _)
  | finished => rfl

end Emission

end ObjectMachine
