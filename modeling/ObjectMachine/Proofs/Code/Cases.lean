import ObjectMachine.Proofs.Code.Accounts

/-!
# Cases of a switch

A switch has a label for each of its values and one for all other numbers. A table is only chosen if
its slots cover all values, and each slot holds the label for the number that it stands for.
-/

namespace ObjectMachine

namespace SwitchPlan

/-- Going through values and keeping the better one each time ends with the best one. -/
theorem foldl_best {precedes : Int32 → Int32 → Prop} [DecidableRel precedes]
    {measure : Int32 → Int} (agrees : ∀ a b, precedes a b ↔ measure a < measure b)
    (start : Int32) (rest : List Int32) :
    ∀ value ∈ start :: rest,
      measure (rest.foldl (fun best value => if precedes value best then value else best) start) ≤
        measure value := by
  induction rest generalizing start with
  | nil =>
      intro value member
      rw [List.mem_singleton.mp member]
      exact Int.le_refl _
  | cons next rest ih =>
      obtain ⟨best, others⟩ := List.forall_mem_cons.mp
        (ih (if precedes next start then next else start))
      have both : measure (if precedes next start then next else start) ≤ measure start ∧
          measure (if precedes next start then next else start) ≤ measure next := by
        have agree := agrees next start
        split
        · next better => exact ⟨Int.le_of_lt (agree.mp better), Int.le_refl _⟩
        · next worse => exact ⟨Int.le_refl _, Int.not_lt.mp fun better => worse (agree.mpr better)⟩
      exact List.forall_mem_cons.mpr ⟨Int.le_trans best both.1,
        List.forall_mem_cons.mpr ⟨Int.le_trans best both.2, others⟩⟩

theorem least_le {values : List Int32} {low : Int32} (h : least values = some low) :
    ∀ value ∈ values, low.toInt ≤ value.toInt := by
  cases values with
  | nil => cases h
  | cons first rest =>
      obtain rfl := Option.some.inj h
      have agrees (a b : Int32) : a < b ↔ a.toInt < b.toInt := Int32.lt_iff_toInt_lt
      exact foldl_best agrees first rest

theorem le_greatest {values : List Int32} {high : Int32} (h : greatest values = some high) :
    ∀ value ∈ values, value.toInt ≤ high.toInt := by
  cases values with
  | nil => cases h
  | cons first rest =>
      obtain rfl := Option.some.inj h
      have agrees (a b : Int32) : b < a ↔ -a.toInt < -b.toInt :=
        Int32.lt_iff_toInt_lt.trans Int.neg_lt_neg_iff.symm
      exact fun value member => Int.neg_le_neg_iff.mp (foldl_best agrees first rest value member)

/-- A table begins at the least value and ends with the greatest one. -/
theorem choose_eq_table {values : List Int32} {low : Int32} {span : Nat}
    (h : choose values = .table low span) :
    low.toInt + span ≤ 0x80000000 ∧
      ∀ value ∈ values, low.toInt ≤ value.toInt ∧ value.toInt < low.toInt + span := by
  unfold choose at h
  split at h
  · cases h
  · split at h
    · next least high lowest highest =>
        dsimp only at h
        split at h
        · obtain ⟨rfl, rfl⟩ := SwitchPlan.table.inj h
          have top := high.toInt_lt
          have bottom := least.toInt_lt
          refine ⟨by omega, fun value member => ?_⟩
          have below := least_le lowest value member
          have above := le_greatest highest value member
          omega
        · cases h
    · cases h

end SwitchPlan

namespace Assemble

/-- Whether a label is that of the case with a number, or the one for all others if there is no
such case. -/
inductive SwitchLabels.Selects (labels : SwitchLabels) (values : List Int32) (number : Int) :
    Label → Prop
  | case {value : Int32} {label : Label} : (value, label) ∈ values.zip labels.cases →
      value.toInt = number → Selects labels values number label
  | otherwise : (∀ value ∈ values, value.toInt ≠ number) →
      Selects labels values number labels.otherwise

variable {values : List Int32} {labels : SwitchLabels} {number : Int} {label other : Label}

/-- No two cases of a switch have the same number. -/
theorem SwitchLabels.Selects.unique (distinct : values.Nodup)
    (h : labels.Selects values number label) (h' : labels.Selects values number other) :
    label = other := by
  cases h with
  | @case value _ among same =>
      cases h' with
      | @case value' _ among' same' =>
          obtain rfl : value = value' := Int32.toInt_inj.mp (same.trans same'.symm)
          obtain ⟨place, there⟩ := List.getElem?_of_mem among
          obtain ⟨place', there'⟩ := List.getElem?_of_mem among'
          obtain ⟨listed, found⟩ := List.getElem?_zip_eq_some.mp there
          obtain ⟨listed', found'⟩ := List.getElem?_zip_eq_some.mp there'
          have inside := (List.getElem?_eq_some_iff.mp listed).1
          obtain rfl := (List.getElem?_inj inside distinct).mp (listed.trans listed'.symm)
          exact Option.some.inj (found.symm.trans found')
      | otherwise none => exact absurd same (none value (List.of_mem_zip among).1)
  | otherwise none =>
      cases h' with
      | @case value _ among same => exact absurd same (none value (List.of_mem_zip among).1)
      | otherwise => rfl

/-- A label is selected if it is found among the values with their labels, or if nothing is. -/
theorem SwitchLabels.Selects.of_entries (all : values.length = labels.cases.length)
    (h : (∃ value, (value, label) ∈ values.zip labels.cases ∧ value.toInt = number) ∨
      label = labels.otherwise ∧ ∀ entry ∈ values.zip labels.cases, entry.1.toInt ≠ number) :
    labels.Selects values number label := by
  rcases h with ⟨value, among, same⟩ | ⟨rfl, none⟩
  · exact .case among same
  · refine .otherwise fun value member => ?_
    rw [← List.map_fst_zip (Nat.le_of_eq all)] at member
    obtain ⟨entry, among, rfl⟩ := List.mem_map.mp member
    exact none entry among

/-- A slot of a table holds the label of a value that lies as far from the least one, or the label
for all others if no value does. -/
theorem entries_of_tableSlots {least : Int32} {span place : Nat}
    (h : (tableSlots least span values labels)[place]? = some label) :
    (∃ value, (value, label) ∈ values.zip labels.cases ∧
        (value.toInt - least.toInt).toNat = place) ∨
      label = labels.otherwise ∧ ∀ entry ∈ values.zip labels.cases,
        (entry.1.toInt - least.toInt).toNat ≠ place := by
  have settled (entries : List (Int32 × Label)) (slots : List Label)
      (h : (entries.foldl (fun slots entry =>
        slots.set (entry.1.toInt - least.toInt).toNat entry.2) slots)[place]? = some label) :
      (∃ value, (value, label) ∈ entries ∧ (value.toInt - least.toInt).toNat = place) ∨
        slots[place]? = some label ∧ ∀ entry ∈ entries,
          (entry.1.toInt - least.toInt).toNat ≠ place := by
    induction entries generalizing slots with
    | nil => exact .inr ⟨h, fun _ member => absurd member List.not_mem_nil⟩
    | cons entry entries ih =>
        rcases ih _ h with ⟨value, among, here⟩ | ⟨kept, others⟩
        · exact .inl ⟨value, List.mem_cons_of_mem _ among, here⟩
        · by_cases here : (entry.1.toInt - least.toInt).toNat = place
          · obtain ⟨inside, set⟩ := List.getElem?_eq_some_iff.mp kept
            subst here
            rw [List.getElem_set_self] at set
            exact .inl ⟨entry.1, set ▸ List.mem_cons_self, rfl⟩
          · rw [List.getElem?_set_ne here] at kept
            exact .inr ⟨kept, List.forall_mem_cons.mpr ⟨here, others⟩⟩
  refine (settled _ _ h).imp_right fun ⟨filled, others⟩ => ⟨?_, others⟩
  exact List.eq_of_mem_replicate (List.mem_of_getElem? filled)

/-- The label in the slot for a number is the one that the switch has for it. -/
theorem selects_of_tableSlots {least : Int32} {span place : Nat}
    (all : values.length = labels.cases.length)
    (chosen : SwitchPlan.choose values = .table least span)
    (h : (tableSlots least span values labels)[place]? = some label) :
    labels.Selects values (least.toInt + place) label := by
  obtain ⟨-, covered⟩ := SwitchPlan.choose_eq_table chosen
  refine .of_entries all ((entries_of_tableSlots h).imp ?_ ?_)
  · rintro ⟨value, among, here⟩
    have := covered value (List.of_mem_zip among).1
    exact ⟨value, among, by omega⟩
  · rintro ⟨other, none⟩
    refine ⟨other, fun entry among same => none entry among ?_⟩
    omega

end Assemble

end ObjectMachine
