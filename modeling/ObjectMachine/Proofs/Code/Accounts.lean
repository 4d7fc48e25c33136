import Mathlib.Algebra.GroupWithZero.Nat
import ObjectMachine.Proofs.Code.Calls

/-!
# Sound accounts

The account of valid calls lists instructions that stand in a row and can be read again, and it
leaves out no distance that has to be computed. Calls are valid if they use labels that exist and
opcodes of the right kind.
-/

namespace ObjectMachine

namespace Emission

/-! ## Forms and opcodes -/

namespace Form

/-- Whether a form, at a position, is one that an opcode has at a width. Distances to labels are
always wide, since they are not known when their place is taken. -/
def Suits (opcode : Opcode) (width : Width) (position : Nat) : Form → Prop
  | plain operand =>
    opcode.shape.isBranch = false ∧ width ∈ opcode.widths ∧ operand.Fits opcode width
  | branch (.label _) => opcode.shape = .offset ∧ width = .wide
  | branch (.position target) =>
    opcode.shape = .offset ∧ width = Width.forOffset (reach position target)
  | cases labels => opcode.shape = .caseTable ∧ width = .wide ∧ labels.length < 0x10000
  | bodies _ _ => opcode.shape = .tryPair ∧ width = .wide

end Form

theorem wide_holds (distance : Int32) : Width.wide.Holds distance.toInt :=
  ⟨Int32.le_toInt distance, Int32.toInt_lt distance⟩

/-- An instruction can be read again if its distance to a known position fits its width. -/
theorem Item.wellFormed {item : Item} (suits : item.form.Suits item.opcode item.width item.offset)
    (distance : Destination → Int32)
    (near : ∀ target, item.form = .branch (.position target) →
      item.width.Holds (distance (.position target)).toInt) :
    (item.instruction distance).WellFormed := by
  obtain ⟨offset, opcode, width, form⟩ := item
  cases form with
  | plain operand => exact ⟨suits.2.1, suits.2.2⟩
  | branch destination =>
      cases destination with
      | label label =>
          obtain ⟨shape, rfl⟩ := suits
          constructor
          · simp [instruction, Opcode.widths, shape, OperandShape.isVariable,
              OperandShape.isBranch, Width.mem_all]
          · simpa [instruction, Form.resolve, Operand.Fits, shape] using wide_holds _
      | position target =>
          obtain ⟨shape, -⟩ := suits
          constructor
          · simp [instruction, Opcode.widths, shape, OperandShape.isVariable,
              OperandShape.isBranch, Width.mem_all]
          · simpa [instruction, Form.resolve, Operand.Fits, shape] using near target rfl
  | cases labels =>
      obtain ⟨shape, rfl, short⟩ := suits
      constructor
      · simp [instruction, Opcode.widths, shape, OperandShape.isVariable, OperandShape.isBranch,
          Width.mem_all]
      · simpa [instruction, Form.resolve, Operand.Fits, shape, short] using
          fun label _ => wide_holds (distance (.label label))
  | bodies onCatch onFinally =>
      obtain ⟨shape, rfl⟩ := suits
      constructor
      · simp [instruction, Opcode.widths, shape, OperandShape.isVariable, OperandShape.isBranch,
          Width.mem_all]
      · simp [instruction, Form.resolve, Operand.Fits, shape, wide_holds]

theorem Item.start_wellFormed {item : Item}
    (suits : item.form.Suits item.opcode item.width item.offset) : item.start.WellFormed :=
  item.wellFormed suits _ fun _ _ => Width.holds_zero _

/-- Instructions stay in a row, whatever their distances become. -/
theorem laid_instructions {items : List Item} {position : Nat}
    {distance : Item → Destination → Int32} (laid : Code.Laid position (items.map Item.start))
    (sound : ∀ item ∈ items, (item.instruction (distance item)).WellFormed) :
    Code.Laid position (items.map fun item => item.instruction (distance item)) := by
  induction items generalizing position with
  | nil => trivial
  | cons item items ih =>
      obtain ⟨here, start, rest⟩ := laid
      have wellFormed := sound item List.mem_cons_self
      have size : (item.instruction (distance item)).size = item.start.size := by
        rw [← wellFormed.length_encode, ← start.length_encode, item.length_encode]
      refine ⟨here, wellFormed, ?_⟩
      rw [size]
      exact ih rest fun other member => sound other (List.mem_cons_of_mem _ member)

/-! ## Sound accounts -/

namespace Account

/-- Whether something leads to a position: a label anchored there, or a branch. -/
def Reached (account : Account) (position : Nat) : Prop :=
  (∃ anchor ∈ account.anchors, anchor.2 = position) ∨
    ∃ item ∈ account.items, item.form = .branch (.position position)

theorem mem_sites {account : Account} {item : Item} (member : item ∈ account.items)
    {entry : Destination × Nat} (slot : entry ∈ item.form.slots) {label : Label}
    (leads : entry.1 = .label label) : ∃ site ∈ account.sites label, site.offset = item.offset := by
  obtain ⟨place, there⟩ := List.getElem?_of_mem member
  refine ⟨⟨place, item.offset, entry.2⟩, ?_, rfl⟩
  refine List.mem_flatMap.mpr ⟨(item, place), ?_, ?_⟩
  · exact List.mk_mem_zipIdx_iff_getElem?.mpr there
  · exact List.mem_filterMap.mpr ⟨entry, slot, if_pos leads⟩

/-- What calls make sure of in an account. -/
structure Sound (account : Account) : Prop extends account.Scoped where
  suits : ∀ item ∈ account.items, item.form.Suits item.opcode item.width item.offset
  laid : Code.Laid 0 (account.items.map Item.start)
  position : (Code.encode (account.items.map Item.start)).length = account.position
  /-- No distance to a known target has been left out. -/
  computed : ∀ item ∈ account.items, ∀ entry ∈ item.form.slots, ∀ target,
    account.target entry.1 = some target → (item.offset, target) ∈ account.computed
  /-- No other distance has been computed. -/
  traced : ∀ pair ∈ account.computed,
    (∃ item ∈ account.items, item.offset = pair.1) ∧ account.Reached pair.2

theorem exists_of_mem_sites {account : Account} {label : Label} {site : LabelSite}
    (h : site ∈ account.sites label) : ∃ item ∈ account.items, item.offset = site.offset := by
  obtain ⟨⟨item, place⟩, listed, own⟩ := List.mem_flatMap.mp h
  obtain ⟨entry, -, here⟩ := List.mem_filterMap.mp own
  refine ⟨item, List.fst_mem_of_mem_zipIdx listed, ?_⟩
  split at here
  · injection here with same
    rw [← same]
  · cases here

/-- Only a branch leads to a known position. -/
theorem form_of_slot {form : Form} {entry : Destination × Nat} (slot : entry ∈ form.slots)
    {position : Nat} (known : entry.1 = .position position) :
    form = .branch (.position position) := by
  cases form with
  | plain operand => exact absurd slot List.not_mem_nil
  | branch destination =>
      rw [List.mem_singleton.mp slot] at known
      rw [← known]
  | cases labels =>
      obtain ⟨label, -, same⟩ := List.mem_map.mp (List.fst_mem_of_mem_zipIdx slot)
      rw [known] at same
      cases same
  | bodies onCatch onFinally =>
      rcases List.mem_append.mp slot with first | last
      · obtain ⟨label, -, same⟩ := List.mem_map.mp first
        rw [← same] at known
        cases known
      · rw [List.mem_singleton.mp last] at known
        cases known

theorem sound_empty : Sound .empty where
  anchors := by simp [empty]
  items := by simp [empty]
  suits := by simp [empty]
  laid := trivial
  position := rfl
  computed := by simp [empty]
  traced := by simp [empty]

end Account

def Part.Fits (labels position : Nat) (part : Part) : Prop :=
  part.Scoped labels ∧
    match part with
    | .put opcode width form => form.Suits opcode width position
    | _ => True

namespace Account.Sound

variable {account : Account}

theorem put (h : account.Sound) {opcode : Opcode} {width : Width} {form : Form}
    (fits : (Part.put opcode width form).Fits account.labels account.position) :
    (account.add (.put opcode width form)).Sound where
  toScoped := h.toScoped.add fits.1
  suits item member := by
    rcases List.mem_append.mp member with old | new
    · exact h.suits item old
    · rw [List.mem_singleton.mp new]
      exact fits.2
  laid := by
    have start : Instruction.WellFormed (Item.start ⟨account.position, opcode, width, form⟩) :=
      Item.start_wellFormed fits.2
    have boundary := h.laid.length_encode.symm.trans h.position
    rw [Account.add, List.map_append, Code.Laid.append_iff, boundary, Nat.zero_add]
    exact ⟨h.laid, rfl, start, trivial⟩
  position := by
    simp only [Account.add, List.map_append, Code.encode, List.flatMap_append, List.length_append]
    rw [← h.position]
    simp [Code.encode]
  computed item member entry slot target known := by
    have same : account.target entry.1 = some target := by
      rw [← known]
      cases entry.1 <;> rfl
    rcases List.mem_append.mp member with old | new
    · exact List.mem_append_left _ (h.computed item old entry slot target same)
    · rw [List.mem_singleton.mp new] at slot ⊢
      refine List.mem_append_right _ (List.mem_map.mpr ⟨target, ?_, rfl⟩)
      exact List.mem_filterMap.mpr ⟨entry, slot, same⟩
  traced pair member := by
    rcases List.mem_append.mp member with old | new
    · obtain ⟨⟨item, here, offset⟩, reached⟩ := h.traced pair old
      refine ⟨⟨item, List.mem_append_left _ here, offset⟩, ?_⟩
      rcases reached with anchored | ⟨other, there, form⟩
      · exact .inl anchored
      · exact .inr ⟨other, List.mem_append_left _ there, form⟩
    · obtain ⟨target, known, rfl⟩ := List.mem_map.mp new
      obtain ⟨entry, slot, known⟩ := List.mem_filterMap.mp known
      refine ⟨⟨_, List.mem_append_right _ (List.mem_singleton_self _), rfl⟩, ?_⟩
      cases destination : entry.1 with
      | position position =>
          rw [destination] at known
          injection known with same
          subst same
          exact .inr ⟨_, List.mem_append_right _ (List.mem_singleton_self _),
            form_of_slot slot destination⟩
      | label label =>
          rw [destination] at known
          obtain ⟨front, back, anchored, -⟩ := List.lookup_eq_some_iff.mp known
          refine .inl ⟨(label, target), ?_, rfl⟩
          change _ ∈ account.anchors
          rw [anchored]
          simp

theorem newLabel (h : account.Sound) : (account.add .newLabel).Sound where
  toScoped := h.toScoped.add trivial
  suits := h.suits
  laid := h.laid
  position := h.position
  computed item member entry slot target known := by
    refine h.computed item member entry slot target ?_
    rw [← known]
    cases entry.1 <;> rfl
  traced := h.traced

theorem anchor (h : account.Sound) {label : Label} (created : label.id < account.labels)
    (target : Nat) : (account.add (.anchor label target)).Sound where
  toScoped := h.toScoped.add created
  suits := h.suits
  laid := h.laid
  position := h.position
  computed item member entry slot other known := by
    by_cases leads : entry.1 = .label label
    · obtain ⟨site, here, offset⟩ := Account.mem_sites member slot leads
      have latest : target = other := by
        rw [leads] at known
        simpa [Account.target, Account.add] using known
      subst latest
      exact List.mem_append_right _ (List.mem_map.mpr ⟨site, here, by rw [offset]⟩)
    · refine List.mem_append_left _ (h.computed item member entry slot other ?_)
      rw [← known]
      cases destination : entry.1 with
      | position there => rfl
      | label another =>
          have apart : another ≠ label := fun same => leads (by rw [destination, same])
          simp [Account.target, Account.add, List.lookup_cons, beq_false_of_ne apart]
  traced pair member := by
    rcases List.mem_append.mp member with old | new
    · obtain ⟨here, reached⟩ := h.traced pair old
      refine ⟨here, reached.imp_left ?_⟩
      rintro ⟨anchor, among, same⟩
      exact ⟨anchor, List.mem_cons_of_mem _ among, same⟩
    · obtain ⟨site, listed, rfl⟩ := List.mem_map.mp new
      exact ⟨exists_of_mem_sites listed, .inl ⟨_, List.mem_cons_self, rfl⟩⟩

theorem add (h : account.Sound) {part : Part} (fits : part.Fits account.labels account.position) :
    (account.add part).Sound := by
  cases part with
  | put opcode width form => exact h.put fits
  | newLabel => exact h.newLabel
  | anchor label target => exact h.anchor fits.1 target

end Account.Sound

/-! ## Valid calls -/

def Part.created : Part → Nat
  | .newLabel => 1
  | _ => 0

/-- Whether parts can be asked for one after the other. All parts of a call but the first one
have to do so at any position. -/
def Fitting : Nat → Nat → List Part → Prop
  | _, _, [] => True
  | labels, position, part :: parts =>
    part.Fits labels position ∧ ∀ later, Fitting (labels + part.created) later parts

theorem Fitting.append {labels position : Nat} {parts more : List Part}
    (h : Fitting labels position parts)
    (h' : ∀ later, Fitting (labels + (parts.map Part.created).sum) later more) :
    Fitting labels position (parts ++ more) := by
  induction parts generalizing labels position with
  | nil => exact h' position
  | cons part parts ih =>
      refine ⟨h.1, fun later => ih (h.2 later) fun place => ?_⟩
      have rest := h' place
      rwa [List.map_cons, List.sum_cons, ← Nat.add_assoc] at rest

theorem fitting_newLabels (labels position count : Nat) :
    Fitting labels position (List.replicate count .newLabel) := by
  induction count generalizing labels position with
  | zero => trivial
  | succ count ih => exact ⟨⟨trivial, trivial⟩, fun later => ih _ _⟩

theorem created_newLabels (count : Nat) :
    ((List.replicate count Part.newLabel).map Part.created).sum = count := by
  simp [Part.created]

theorem labels_add (account : Account) (part : Part) :
    (account.add part).labels = account.labels + part.created := by
  cases part <;> rfl

/-- The step lemma of emission: an assembly follows its account through a part. -/
theorem Follows.step {assembly : Assembly} {account : Account} (h : Follows assembly account)
    (sound : account.Sound) {part : Part} (fits : part.Fits account.labels account.position) :
    Follows (part.run assembly) (account.add part) := by
  cases part with
  | put opcode width form => exact h.put sound.toScoped opcode width form
  | newLabel => exact h.newLabel sound.toScoped
  | anchor label target => exact h.anchor fits.1 target

theorem Follows.runAll {assembly : Assembly} {account : Account} (h : Follows assembly account)
    (sound : account.Sound) {parts : List Part}
    (fitting : Fitting account.labels account.position parts) :
    Follows (runAll assembly parts) (account.addAll parts) ∧ (account.addAll parts).Sound := by
  induction parts generalizing assembly account with
  | nil => exact ⟨h, sound⟩
  | cons part parts ih =>
      have rest := fitting.2 (account.add part).position
      rw [← labels_add] at rest
      exact ih (h.step sound fitting.1) (sound.add fitting.1) rest

namespace Call

/-- Whether a call can be made: its opcode is of the right kind, its labels have been created,
and a case table has no more entries than can be counted. -/
def Valid (labels : Nat) : Call → Prop
  | op opcode => opcode.shape = .absent
  | index opcode _ => opcode.shape = .index
  | branch opcode label => opcode.shape = .offset ∧ label.id < labels
  | jump opcode | jumpTo opcode _ => opcode.shape = .offset
  | caseTable entries => entries.length < 0x10000 ∧ ∀ label ∈ entries, label.id < labels
  | anchor label | anchorTo label _ => label.id < labels
  | _ => True

instance (labels : Nat) : (call : Call) → Decidable (call.Valid labels)
  | op opcode => inferInstanceAs (Decidable (opcode.shape = .absent))
  | index opcode _ => inferInstanceAs (Decidable (opcode.shape = .index))
  | branch opcode label => inferInstanceAs (Decidable (opcode.shape = .offset ∧ label.id < labels))
  | jump opcode | jumpTo opcode _ => inferInstanceAs (Decidable (opcode.shape = .offset))
  | caseTable entries =>
    inferInstanceAs (Decidable (entries.length < 0x10000 ∧ ∀ label ∈ entries, label.id < labels))
  | anchor label | anchorTo label _ => inferInstanceAs (Decidable (label.id < labels))
  | pushBool _ | pushByte _ | pushChar _ | pushShort _ | pushInt _ | pushLong _ | pushDouble _
  | convert _ | makeArray _ | newLabel | enterTry _ | switch _ _ => isTrue trivial

def AllValid : Nat → List Call → Prop
  | _, [] => True
  | labels, call :: calls => call.Valid labels ∧ AllValid (labels + call.created) calls

instance : (labels : Nat) → (calls : List Call) → Decidable (AllValid labels calls)
  | _, [] => isTrue trivial
  | labels, call :: calls =>
    let _ := instDecidableAllValid (labels + call.created) calls
    inferInstanceAs (Decidable (call.Valid labels ∧ AllValid (labels + call.created) calls))

theorem plain_fits {opcode : Opcode} {operand : Operand} (fits : operand.Fits opcode .narrow)
    (still : opcode.shape.isBranch = false) (labels position : Nat) :
    (plain opcode operand).Fits labels position := by
  refine ⟨fun _ member => absurd member List.not_mem_nil, still, ?_, fits⟩
  unfold Opcode.widths
  split
  · exact Width.mem_all _
  · exact List.mem_singleton_self _

theorem indexed_fits {opcode : Opcode} (shape : opcode.shape = .index) (number : UInt32)
    (labels position : Nat) : (indexed opcode number).Fits labels position := by
  refine ⟨fun _ member => absurd member List.not_mem_nil, by rw [shape]; rfl, ?_, ?_⟩
  · simp [Opcode.widths, shape, OperandShape.isVariable, Width.mem_all]
  · have small : number.toNat < 0x100000000 := number.toNat_lt
    simp only [Operand.Fits, shape, Width.forIndex]
    split
    · next narrow => exact narrow
    · split
      · next medium => exact medium
      · exact small

theorem branching_fits {opcode : Opcode} (shape : opcode.shape = .offset) {label : Label}
    {labels : Nat} (created : label.id < labels) (position : Nat) :
    (branching opcode label).Fits labels position := by
  refine ⟨fun entry member other leads => ?_, shape, rfl⟩
  rw [List.mem_singleton.mp member] at leads
  injection leads with same
  exact same ▸ created

theorem cases_fits {entries : List Label} {labels : Nat} (short : entries.length < 0x10000)
    (created : ∀ label ∈ entries, label.id < labels) (position : Nat) :
    (Part.put .caseOf .wide (.cases entries)).Fits labels position := by
  refine ⟨fun entry member label leads => ?_, rfl, rfl, short⟩
  have among : entry.1 ∈ entries.map Destination.label := List.fst_mem_of_mem_zipIdx member
  obtain ⟨other, here, same⟩ := List.mem_map.mp among
  rw [leads] at same
  injection same with same
  exact same ▸ created other here

/-! ### Switches -/

theorem length_tableSlots (least : Int32) (span : Nat) (values : List Int32)
    (labels : Assemble.SwitchLabels) :
    (Assemble.tableSlots least span values labels).length = span := by
  have kept (entries : List (Int32 × Label)) (slots : List Label) :
      (entries.foldl (fun slots entry =>
        slots.set (entry.1.toInt - least.toInt).toNat entry.2) slots).length = slots.length := by
    induction entries generalizing slots with
    | nil => rfl
    | cons entry entries ih => rw [List.foldl_cons, ih, List.length_set]
  rw [Assemble.tableSlots, kept, List.length_replicate]

theorem mem_tableSlots {least : Int32} {span : Nat} {values : List Int32}
    {labels : Assemble.SwitchLabels} {label : Label}
    (h : label ∈ Assemble.tableSlots least span values labels) :
    label ∈ labels.cases ∨ label = labels.otherwise := by
  have among (entries : List (Int32 × Label)) (slots : List Label)
      (member : label ∈ entries.foldl (fun slots entry =>
        slots.set (entry.1.toInt - least.toInt).toNat entry.2) slots) :
      label ∈ slots ∨ label ∈ entries.map (·.2) := by
    induction entries generalizing slots with
    | nil => exact .inl member
    | cons entry entries ih =>
        rcases ih _ member with here | later
        · rcases List.mem_or_eq_of_mem_set here with before | new
          · exact .inl before
          · exact .inr (List.mem_cons.mpr (.inl new))
        · exact .inr (List.mem_cons_of_mem _ later)
  rcases among _ _ h with filled | listed
  · exact .inr (List.eq_of_mem_replicate filled)
  · obtain ⟨entry, member, rfl⟩ := List.mem_map.mp listed
    exact .inl (List.of_mem_zip member).2

theorem choose_table {values : List Int32} {least : Int32} {span : Nat}
    (h : SwitchPlan.choose values = .table least span) : span < 0x10000 := by
  unfold SwitchPlan.choose at h
  split at h
  · cases h
  · split at h
    · next low high _ _ =>
        by_cases close : (high.toInt - low.toInt + 1).toNat ≤
            SwitchPlan.mostSlotsPerCase * values.length ∧
          (high.toInt - low.toInt + 1).toNat ≤ SwitchPlan.mostSlots
        · have chosen := (if_pos close).symm.trans h
          injection chosen with _ same
          have few : (high.toInt - low.toInt + 1).toNat ≤ 65535 := close.2
          omega
        · have chosen := (if_neg close).symm.trans h
          cases chosen
    · cases h

/-- The parts of a selection put instructions and create no labels. -/
theorem created_of_mem_selection {values : List Int32} {scratch : UInt32}
    {answer : Assemble.SwitchLabels} {part : Part} (h : part ∈ selection values scratch answer) :
    part.created = 0 := by
  unfold selection at h
  cases plan : SwitchPlan.choose values with
  | chain =>
      simp only [plan, List.mem_flatMap, List.mem_cons, List.not_mem_nil, or_false] at h
      obtain ⟨entry, -, rfl | rfl | rfl⟩ := h <;> rfl
  | table least span =>
      simp only [plan, List.mem_append, List.mem_cons, List.not_mem_nil, or_false] at h
      rcases h with (rfl | subtraction) | rfl
      · rfl
      · split at subtraction
        · rcases List.mem_pair.mp subtraction with rfl | rfl <;> rfl
        · exact absurd subtraction List.not_mem_nil
      · rfl

theorem fits_of_mem_selection {values : List Int32} {scratch : UInt32}
    {answer : Assemble.SwitchLabels} {labels : Nat}
    (cases : ∀ label ∈ answer.cases, label.id < labels)
    (otherwise : answer.otherwise.id < labels) {part : Part}
    (h : part ∈ selection values scratch answer) (position : Nat) : part.Fits labels position := by
  unfold selection at h
  cases plan : SwitchPlan.choose values with
  | chain =>
      simp only [plan, List.mem_flatMap, List.mem_cons, List.not_mem_nil, or_false] at h
      obtain ⟨entry, among, rfl | rfl | rfl⟩ := h
      · exact indexed_fits rfl scratch labels position
      · exact plain_fits (by trivial) (by rfl) labels position
      · exact branching_fits rfl (cases _ (List.of_mem_zip among).2) position
  | table least span =>
      simp only [plan, List.mem_append, List.mem_cons, List.not_mem_nil, or_false] at h
      rcases h with (rfl | subtraction) | rfl
      · exact indexed_fits rfl scratch labels position
      · split at subtraction
        · rcases List.mem_pair.mp subtraction with rfl | rfl
          · exact plain_fits (by trivial) (by rfl) labels position
          · exact plain_fits (by trivial) (by rfl) labels position
        · exact absurd subtraction List.not_mem_nil
      · refine cases_fits ?_ (fun label member => ?_) position
        · rw [length_tableSlots]
          exact choose_table plan
        · rcases mem_tableSlots member with listed | other
          · exact cases label listed
          · rw [other]
            exact otherwise

theorem Fitting.of_forall {labels position : Nat} {parts : List Part}
    (h : ∀ part ∈ parts, part.created = 0 ∧ ∀ position, part.Fits labels position) :
    Fitting labels position parts := by
  induction parts generalizing position with
  | nil => trivial
  | cons part parts ih =>
      obtain ⟨none, fits⟩ := h part List.mem_cons_self
      refine ⟨fits position, fun later => ?_⟩
      rw [none]
      exact ih fun other member => h other (List.mem_cons_of_mem _ member)

theorem switch_fitting (values : List Int32) (scratch : UInt32) (labels position : Nat) :
    Fitting labels position ((switch values scratch).parts labels position) := by
  have cases (label : Label) (member : label ∈ fresh labels values.length) :
      label.id < labels + (values.length + 1) := by
    obtain ⟨number, among, rfl⟩ := List.mem_map.mp member
    have := (List.mem_range'_1.mp among).2
    change number < _
    omega
  have otherwise : labels + values.length < labels + (values.length + 1) := by omega
  have chosen (part : Part) (member : part ∈ selection values scratch
      ⟨fresh labels values.length, ⟨labels + values.length⟩⟩ ++
        [branching .jmp ⟨labels + values.length⟩]) :
      part.created = 0 ∧ ∀ position, part.Fits (labels + (values.length + 1)) position := by
    rcases List.mem_append.mp member with selected | last
    · exact ⟨created_of_mem_selection selected, fits_of_mem_selection cases otherwise selected⟩
    · rw [List.mem_singleton.mp last]
      exact ⟨rfl, branching_fits rfl otherwise⟩
  have store : Fitting labels position [indexed .storeLocal scratch] :=
    ⟨indexed_fits rfl scratch labels position, fun _ => trivial⟩
  rw [parts, List.append_assoc, List.append_assoc]
  refine store.append fun later => (fitting_newLabels _ _ _).append fun place => ?_
  rw [created_newLabels]
  exact Fitting.of_forall chosen

theorem parts_fitting {call : Call} {labels : Nat} (valid : call.Valid labels) (position : Nat) :
    Fitting labels position (call.parts labels position) := by
  have one {part : Part} (fits : part.Fits labels position) : Fitting labels position [part] :=
    ⟨fits, fun _ => trivial⟩
  cases call with
  | op opcode =>
      have absent : opcode.shape = .absent := valid
      exact one (plain_fits (by simp [Operand.Fits, absent]) (by rw [absent]; rfl) labels position)
  | index opcode number => exact one (indexed_fits valid number labels position)
  | branch opcode label => exact one (branching_fits valid.1 valid.2 position)
  | jump opcode =>
      exact ⟨⟨trivial, trivial⟩, fun later =>
        ⟨branching_fits valid (Nat.lt_succ_self _) later, fun _ => trivial⟩⟩
  | jumpTo opcode target =>
      refine one ⟨fun entry member label leads => ?_, valid, rfl⟩
      rw [List.mem_singleton.mp member] at leads
      cases leads
  | caseTable entries => exact one (cases_fits valid.1 valid.2 position)
  | enterTry hasCatch =>
      cases hasCatch with
      | false =>
          refine ⟨⟨trivial, trivial⟩, fun _ => ⟨⟨fun entry member label leads => ?_, rfl, rfl⟩,
            fun _ => trivial⟩⟩
          rw [List.mem_singleton.mp member] at leads
          injection leads with same
          exact same ▸ Nat.lt_succ_self _
      | true =>
          refine ⟨⟨trivial, trivial⟩, fun _ => ⟨⟨trivial, trivial⟩, fun _ =>
            ⟨⟨fun entry member label leads => ?_, rfl, rfl⟩, fun _ => trivial⟩⟩⟩
          rcases List.mem_pair.mp member with rfl | rfl
          · injection leads with same
            exact same ▸ Nat.lt_succ_of_lt (Nat.lt_succ_self _)
          · injection leads with same
            exact same ▸ Nat.lt_succ_self _
  | switch values scratch => exact switch_fitting values scratch labels position
  | newLabel => exact one ⟨trivial, trivial⟩
  | anchor label => exact one ⟨valid, trivial⟩
  | anchorTo label target => exact one ⟨valid, trivial⟩
  | pushBool value => cases value <;> exact one (plain_fits (by trivial) (by rfl) labels position)
  | pushChar codeUnit =>
      exact one (plain_fits (by exact Opcode.noConfusion) (by rfl) labels position)
  | makeArray elements => exact one (plain_fits (by exact rfl) (by rfl) labels position)
  | _ => exact one (plain_fits (by trivial) (by rfl) labels position)

theorem created_parts (call : Call) (labels position : Nat) :
    ((call.parts labels position).map Part.created).sum = call.created := by
  cases call with
  | switch values scratch =>
      have none : ((selection values scratch
          ⟨fresh labels values.length, ⟨labels + values.length⟩⟩).map Part.created).sum = 0 := by
        rw [List.sum_eq_zero_iff_forall_eq_nat]
        intro count member
        obtain ⟨part, among, rfl⟩ := List.mem_map.mp member
        exact created_of_mem_selection among
      rw [parts, List.map_append, List.map_append, List.map_append, List.sum_append,
        List.sum_append, List.sum_append, created_newLabels, none]
      simp [created, indexed, branching, Part.created]
  | enterTry hasCatch => cases hasCatch <;> rfl
  | _ => rfl

end Call

/-! ## Whole emissions -/

theorem labels_addAll (account : Account) (parts : List Part) :
    (account.addAll parts).labels = account.labels + (parts.map Part.created).sum := by
  induction parts generalizing account with
  | nil => rfl
  | cons part parts ih =>
      rw [List.map_cons, List.sum_cons, ← Nat.add_assoc, ← labels_add]
      exact ih _

theorem labels_call (account : Account) (call : Call) :
    (account.call call).labels = account.labels + call.created := by
  rw [Account.call, labels_addAll, Call.created_parts]

theorem Call.fresh_append (labels count more : Nat) :
    fresh labels count ++ fresh (labels + count) more = fresh labels (count + more) := by
  rw [fresh, fresh, ← List.map_append, List.range'_append_1]
  rfl

/-- A call answers with the labels it creates, and the assembly follows its account. -/
theorem Follows.call {assembly : Assembly} {account : Account} (h : Follows assembly account)
    (sound : account.Sound) {call : Call} (valid : call.Valid account.labels) :
    ∃ last, call.perform.run assembly = (Call.fresh account.labels call.created, last) ∧
      Follows last (account.call call) ∧ (account.call call).Sound := by
  have made := call.emits assembly
  rw [h.size, h.position] at made
  exact ⟨_, made, h.runAll sound (Call.parts_fitting valid account.position)⟩

/-- The run lemma of emission: calls answer with labels numbered in order of creation, and the
assembly follows its account. -/
theorem Follows.mapM {assembly : Assembly} {account : Account} (h : Follows assembly account)
    (sound : account.Sound) {calls : List Call} (valid : Call.AllValid account.labels calls) :
    ∃ answers last, (calls.mapM Call.perform).run assembly = (answers, last) ∧
      answers.flatten = Call.fresh account.labels (calls.map Call.created).sum ∧
      Follows last (calls.foldl Account.call account) ∧
      (calls.foldl Account.call account).Sound := by
  induction calls generalizing assembly account with
  | nil => exact ⟨[], assembly, rfl, rfl, h, sound⟩
  | cons call calls ih =>
      obtain ⟨middle, first, follows, kept⟩ := h.call sound valid.1
      have rest : Call.AllValid (account.call call).labels calls := by
        rw [labels_call]
        exact valid.2
      obtain ⟨answers, last, run, fresh, result⟩ := ih follows kept rest
      refine ⟨Call.fresh account.labels call.created :: answers, last, ?_, ?_, result⟩
      · have both : ((call :: calls).mapM Call.perform).run assembly =
            ((call.perform.run assembly).1 ::
                ((calls.mapM Call.perform).run (call.perform.run assembly).2).1,
              ((calls.mapM Call.perform).run (call.perform.run assembly).2).2) := by
          rw [List.mapM_cons]
          rfl
        rw [both, first, run]
      · rw [List.flatten_cons, fresh, labels_call, Call.fresh_append, List.map_cons,
          List.sum_cons]

/-! ## Where instructions come from -/

/-- Whether a call can have an instruction with an opcode and a form. Table numbers are those that
are asked for, but for the slot of a switch; only conversions to kinds and only branches to
positions asked for are emitted. -/
def Call.Asks (call : Call) (opcode : Opcode) : Form → Prop
  | .plain (.index number) => call = .index opcode number ∨ opcode.references = some .locals
  | .plain (.byte value) => opcode = .convert → ∃ kind, value = Kind.code kind
  | .branch (.position target) => call = .jumpTo opcode target
  | _ => True

theorem Call.asks_of_mem_selection {values : List Int32} {scratch : UInt32}
    {answer : Assemble.SwitchLabels} {opcode : Opcode} {width : Width} {form : Form}
    (h : .put opcode width form ∈ selection values scratch answer) (call : Call) :
    call.Asks opcode form := by
  unfold selection at h
  cases plan : SwitchPlan.choose values with
  | chain =>
      simp only [plan, List.mem_flatMap, List.mem_cons, List.not_mem_nil, or_false] at h
      obtain ⟨entry, -, here | here | here⟩ := h <;> cases here
      · exact .inr rfl
      · trivial
      · trivial
  | table least span =>
      simp only [plan, List.mem_append, List.mem_cons, List.not_mem_nil, or_false] at h
      rcases h with (here | subtraction) | here
      · cases here
        exact .inr rfl
      · split at subtraction
        · rcases List.mem_pair.mp subtraction with here | here <;> cases here <;> trivial
        · exact absurd subtraction List.not_mem_nil
      · cases here
        trivial

theorem Call.asks_of_mem_parts {call : Call} {labels position : Nat} {opcode : Opcode}
    {width : Width} {form : Form} (h : .put opcode width form ∈ call.parts labels position) :
    call.Asks opcode form := by
  cases call with
  | switch values scratch =>
      simp only [parts, List.mem_append, List.mem_singleton, List.mem_replicate] at h
      rcases h with ((here | ⟨-, here⟩) | selected) | here
      · cases here
        exact .inr rfl
      · cases here
      · exact asks_of_mem_selection selected _
      · cases here
        trivial
  | enterTry hasCatch =>
      cases hasCatch with
      | false =>
          rcases List.mem_pair.mp h with here | here <;> cases here
          trivial
      | true =>
          simp only [parts, List.mem_cons, List.not_mem_nil, or_false] at h
          rcases h with here | here | here <;> cases here
          trivial
  | index opcode' number =>
      cases List.mem_singleton.mp h
      exact .inl rfl
  | jumpTo opcode' target =>
      cases List.mem_singleton.mp h
      rfl
  | convert kind =>
      cases List.mem_singleton.mp h
      exact fun _ => ⟨kind, rfl⟩
  | pushByte value =>
      cases List.mem_singleton.mp h
      intro same
      cases same
  | jump opcode' =>
      rcases List.mem_pair.mp h with here | here <;> cases here
      trivial
  | newLabel | anchor label | anchorTo label target => cases List.mem_singleton.mp h
  | _ =>
      cases List.mem_singleton.mp h
      trivial

theorem mem_items_addAll {account : Account} {parts : List Part} {item : Item}
    (h : item ∈ (account.addAll parts).items) :
    item ∈ account.items ∨ .put item.opcode item.width item.form ∈ parts := by
  induction parts generalizing account with
  | nil => exact .inl h
  | cons part parts ih =>
      rcases ih h with before | later
      · cases part with
        | put opcode width form =>
            rcases List.mem_append.mp before with old | new
            · exact .inl old
            · rw [List.mem_singleton.mp new]
              exact .inr List.mem_cons_self
        | newLabel => exact .inl before
        | anchor label target => exact .inl before
      · exact .inr (List.mem_cons_of_mem _ later)

/-- Every instruction has been asked for by a call. -/
theorem exists_call_of_mem_items {calls : List Call} {item : Item}
    (h : item ∈ (Account.ofCalls calls).items) :
    ∃ call ∈ calls, call.Asks item.opcode item.form := by
  have traced (account : Account) (made : item ∈ (calls.foldl Account.call account).items) :
      item ∈ account.items ∨ ∃ call ∈ calls, call.Asks item.opcode item.form := by
    clear h
    induction calls generalizing account with
    | nil => exact .inl made
    | cons call calls ih =>
        rcases ih _ made with before | ⟨other, among, asks⟩
        · exact (mem_items_addAll before).imp_right fun own =>
            ⟨call, List.mem_cons_self, Call.asks_of_mem_parts own⟩
        · exact .inr ⟨other, List.mem_cons_of_mem _ among, asks⟩
  rcases traced .empty h with none | source
  · exact absurd none List.not_mem_nil
  · exact source

end Emission

end ObjectMachine
