import ObjectMachine.Code.Assembly
import ObjectMachine.Proofs.Code.Stream

/-!
# Accounts of an emission

An assembly keeps instructions whose distances change whenever a label is anchored. The account
of an emission keeps what was asked for instead: the instructions with the places that they lead
to, the anchorings, and every distance that had to be computed. Every call is taken apart into
three kinds of parts, and an assembly follows its account through each of them.
-/

namespace ObjectMachine

namespace Emission

inductive Destination
  | label (label : Label)
  | position (position : Nat)
deriving DecidableEq, Repr

/-- An operand whose distances are named by where they lead. -/
inductive Form
  | plain (operand : Operand)
  | branch (destination : Destination)
  | cases (labels : List Label)
  | bodies (onCatch : Option Label) (onFinally : Label)
deriving Repr

namespace Form

/-- The operand, once the distance to every destination is known. A missing catch body has a zero
distance. -/
def resolve (distance : Destination → Int32) : Form → Operand
  | plain operand => operand
  | branch destination => .offset (distance destination)
  | cases labels => .table (labels.map fun label => distance (.label label))
  | bodies onCatch onFinally =>
    .tryPair ((onCatch.map fun label => distance (.label label)).getD 0)
      (distance (.label onFinally))

def slots : Form → List (Destination × Nat)
  | plain _ => []
  | branch destination => [(destination, 0)]
  | cases labels => (labels.map Destination.label).zipIdx
  | bodies onCatch onFinally =>
    (onCatch.toList.map fun label => (.label label, 0)) ++ [(.label onFinally, 1)]

end Form

structure Item where
  /-- The position that it starts at. -/
  offset : Nat
  opcode : Opcode
  width : Width
  form : Form
deriving Repr

namespace Item

def instruction (distance : Destination → Int32) (item : Item) : Instruction :=
  { offset := item.offset, opcode := item.opcode, width := item.width,
    operand := item.form.resolve distance }

/-- The instruction as it is first written, with zero distances. -/
def start (item : Item) : Instruction :=
  item.instruction fun _ => 0

/-- The distances of an instruction do not matter for its length. -/
theorem length_encode (distance : Destination → Int32) (item : Item) :
    (item.instruction distance).encode.length = item.start.encode.length := by
  obtain ⟨offset, opcode, width, form⟩ := item
  cases form <;>
    simp only [start, instruction, Instruction.encode, Form.resolve, Operand.encode,
      Operand.encodeDistance, List.length_cons, List.length_append, List.length_map,
      LittleEndian.length_bytes, Instruction.length_encodeDistances]

/-- The distances of an item that lead to a label. -/
def sites (label : Label) (item : Item) (place : Nat) : List LabelSite :=
  item.form.slots.filterMap fun entry =>
    if entry.1 = .label label then some ⟨place, item.offset, entry.2⟩ else none

/-- The distances of an item whose targets are known, with the targets. -/
def patches (known : Destination → Option Nat) (item : Item) (place : Nat) :
    List (LabelSite × Nat) :=
  item.form.slots.filterMap fun entry =>
    (known entry.1).map fun target => (⟨place, item.offset, entry.2⟩, target)

end Item

inductive Part
  | put (opcode : Opcode) (width : Width) (form : Form)
  | newLabel
  | anchor (label : Label) (target : Nat)
deriving Repr

/-- What has been asked of an assembly. -/
structure Account where
  items : List Item
  /-- Where the next instruction will start. -/
  position : Nat
  /-- Number of labels created. -/
  labels : Nat
  /-- Labels with the positions they were anchored at, the latest anchoring first. -/
  anchors : List (Label × Nat)
  /-- Every distance that was computed: the start of its instruction and its target. -/
  computed : List (Nat × Nat)
deriving Repr

namespace Account

def empty : Account := ⟨[], 0, 0, [], []⟩

/-- The position that a destination stands for: for a label, the one it was last anchored at. -/
def target (account : Account) : Destination → Option Nat
  | .label label => account.anchors.lookup label
  | .position position => some position

/-- All distances that lead to a label, the first one first. -/
def sites (account : Account) (label : Label) : List LabelSite :=
  account.items.zipIdx.flatMap fun (item, place) => item.sites label place

/-- The account after one more part. A distance is computed as soon as an instruction is put
whose destination is known, and for all instructions so far when their label is anchored. -/
def add (account : Account) : Part → Account
  | .put opcode width form =>
    let item : Item := ⟨account.position, opcode, width, form⟩
    { account with
      items := account.items ++ [item]
      position := account.position + item.start.encode.length
      computed := account.computed ++
        (form.slots.filterMap fun entry => account.target entry.1).map
          fun target => (account.position, target) }
  | .newLabel => { account with labels := account.labels + 1 }
  | .anchor label target =>
    { account with
      anchors := (label, target) :: account.anchors
      computed := account.computed ++
        (account.sites label).map fun site => (site.offset, target) }

end Account

def reach (site target : Nat) : Int :=
  Code.wrapped (target - site)

/-- The site of the first of several distances that does not fit. -/
def firstFar (computed : List (Nat × Nat)) : Option Nat :=
  (computed.find? fun (site, target) => !Assembly.fits (reach site target)).map (·.1)

theorem firstFar_append (computed more : List (Nat × Nat)) :
    firstFar (computed ++ more) = (firstFar computed).or (firstFar more) := by
  simp only [firstFar, List.find?_append]
  cases computed.find? fun (site, target) => !Assembly.fits (reach site target) <;> rfl

theorem firstFar_eq_none_iff {computed : List (Nat × Nat)} :
    firstFar computed = none ↔
      ∀ pair ∈ computed, Assembly.fits (reach pair.1 pair.2) = true := by
  simp [firstFar]

namespace Account

/-- The distance that an instruction at a position holds to a destination. It is zero as long as
the destination is unknown. -/
def distance (account : Account) (position : Nat) (destination : Destination) : Int32 :=
  ((account.target destination).map fun target => Int32.ofInt (reach position target)).getD 0

def instructions (account : Account) : List Instruction :=
  account.items.map fun item => item.instruction (account.distance item.offset)

end Account

/-! ## Patching -/

def setDistances (operand : Operand) (changes : List (Nat × Int32)) : Operand :=
  changes.foldl (fun operand change => operand.setDistance change.1 change.2) operand

/-- What patching one distance does to an instruction. -/
def repoint (site : LabelSite) (target : Nat) (instruction : Instruction) : Instruction :=
  { instruction with
    operand := instruction.operand.setDistance site.slot
      (Int32.ofInt (reach site.offset target)) }

def repointAll (instructions : List Instruction) (patches : List (LabelSite × Nat)) :
    List Instruction :=
  patches.foldl
    (fun instructions patch => instructions.modify patch.1.instruction (repoint patch.1 patch.2))
    instructions

theorem repointAll_append (instructions : List Instruction)
    (patches more : List (LabelSite × Nat)) :
    repointAll instructions (patches ++ more) =
      repointAll (repointAll instructions patches) more :=
  List.foldl_append

/-- What patching several distances, one after the other, does to an assembly. The labels are
left open. -/
structure Patched (before after : Assembly) (patches : List (LabelSite × Nat)) : Prop where
  position : after.position = before.position
  overflow : after.overflow =
    before.overflow.or (firstFar (patches.map fun (site, target) => (site.offset, target)))
  offsets : after.instructions.toList.map (·.offset) = before.instructions.toList.map (·.offset)
  instructions : firstFar (patches.map fun (site, target) => (site.offset, target)) = none →
    after.instructions.toList = repointAll before.instructions.toList patches

theorem Patched.nil {before after : Assembly} (position : after.position = before.position)
    (overflow : after.overflow = before.overflow)
    (instructions : after.instructions = before.instructions) : Patched before after [] where
  position := position
  overflow := by simp [overflow, firstFar]
  offsets := by rw [instructions]
  instructions _ := by rw [instructions]; rfl

theorem Patched.append {before middle after : Assembly} {patches more : List (LabelSite × Nat)}
    (first : Patched before middle patches) (second : Patched middle after more) :
    Patched before after (patches ++ more) where
  position := second.position.trans first.position
  overflow := by
    rw [second.overflow, first.overflow, List.map_append, firstFar_append, Option.or_assoc]
  offsets := second.offsets.trans first.offsets
  instructions near := by
    rw [List.map_append, firstFar_append, Option.or_eq_none_iff] at near
    rw [second.instructions near.2, first.instructions near.1, repointAll_append]

theorem map_offset_repoint (site : LabelSite) (target : Nat) (instructions : List Instruction) :
    (instructions.modify site.instruction (repoint site target)).map (·.offset) =
      instructions.map (·.offset) := by
  apply List.ext_getElem?
  intro line
  simp only [List.getElem?_map, List.getElem?_modify]
  cases instructions[line]? with
  | none => rfl
  | some instruction =>
      by_cases here : site.instruction = line
      · simp [here, repoint]
      · simp [here]

theorem patched_patch (assembly : Assembly) (site : LabelSite) (target : Nat) :
    Patched assembly (assembly.patch target site) [(site, target)] := by
  by_cases near : Assembly.fits (reach site.offset target) = true
  · have same : assembly.patch target site =
        { assembly with
          instructions :=
            assembly.instructions.modify site.instruction (repoint site target) } := if_pos near
    have fit : firstFar [(site.offset, target)] = none := by simp [firstFar, near]
    rw [same]
    exact {
      position := rfl
      overflow := by simp [fit]
      offsets := by
        rw [Array.toList_modify]
        exact map_offset_repoint site target _
      instructions := fun _ => by simp [repointAll] }
  · have same : assembly.patch target site = assembly.noteOverflow site.offset := if_neg near
    have far : firstFar [(site.offset, target)] = some site.offset := by simp [firstFar, near]
    rw [same]
    exact {
      position := rfl
      overflow := by simp [far, Assembly.noteOverflow]
      offsets := rfl
      instructions := fun none => by simp [far] at none }

/-- Pointing several branches at one position. -/
theorem patched_foldl (sites : List LabelSite) (target : Nat) (assembly : Assembly) :
    Patched assembly (sites.foldl (fun assembly site => assembly.patch target site) assembly)
      (sites.map (·, target)) := by
  induction sites generalizing assembly with
  | nil => exact Patched.nil rfl rfl rfl
  | cons site sites ih => exact (patched_patch assembly site target).append (ih _)

theorem labels_patch (assembly : Assembly) (target : Nat) (site : LabelSite) :
    (assembly.patch target site).labels = assembly.labels := by
  simp only [Assembly.patch, Assembly.noteOverflow]
  split <;> rfl

theorem labels_foldl_patch (sites : List LabelSite) (target : Nat) (assembly : Assembly) :
    (sites.foldl (fun assembly site => assembly.patch target site) assembly).labels =
      assembly.labels := by
  induction sites generalizing assembly with
  | nil => rfl
  | cons site sites ih => rw [List.foldl_cons, ih, labels_patch]

/-! ## The distances of one instruction -/

namespace Form

/-- The entries of a table are set one by one: those in front of the current one are settled,
those behind it are not. -/
theorem setDistances_table (known : Destination → Option Int32) (distance : Destination → Int32)
    (labels : List Label) (done : List Int32) :
    setDistances (.table (done ++ labels.map fun label => distance (.label label)))
        (((labels.map Destination.label).zipIdx done.length).filterMap
          fun entry => (known entry.1).map (entry.2, ·)) =
      .table (done ++ labels.map fun label =>
        (known (.label label)).getD (distance (.label label))) := by
  induction labels generalizing done with
  | nil => rfl
  | cons label labels ih =>
      have next (entry : Int32) := ih (done ++ [entry])
      simp only [List.length_append, List.length_singleton, List.append_assoc,
        List.singleton_append] at next
      cases h : known (.label label) with
      | none => simpa [List.filterMap_cons, h] using next (distance (.label label))
      | some found =>
          simpa [List.filterMap_cons, h, setDistances, Operand.setDistance] using next found

/-- Setting the distances to the known destinations, whatever stood in their place. -/
theorem setDistances_resolve (known : Destination → Option Int32)
    (distance : Destination → Int32) (form : Form) :
    setDistances (form.resolve distance)
        (form.slots.filterMap fun entry => (known entry.1).map (entry.2, ·)) =
      form.resolve fun destination => (known destination).getD (distance destination) := by
  cases form with
  | plain operand => rfl
  | branch destination =>
      cases h : known destination <;>
        simp [slots, resolve, h, setDistances, Operand.setDistance]
  | cases labels => exact setDistances_table known distance labels []
  | bodies onCatch onFinally =>
      cases onCatch with
      | none =>
          cases h : known (.label onFinally) <;>
            simp [slots, resolve, h, setDistances, Operand.setDistance]
      | some label =>
          cases h : known (.label onFinally) <;> cases h' : known (.label label) <;>
            simp [slots, resolve, h, h', setDistances, Operand.setDistance]

end Form

/-- Patches of one instruction among others. -/
theorem repointAll_at {patches : List (LabelSite × Nat)} {front : List Instruction}
    (here : ∀ pair ∈ patches, pair.1.instruction = front.length) (instruction : Instruction)
    (back : List Instruction) :
    repointAll (front ++ instruction :: back) patches =
      front ++ { instruction with
        operand := setDistances instruction.operand (patches.map fun patch =>
          (patch.1.slot, Int32.ofInt (reach patch.1.offset patch.2))) } :: back := by
  induction patches generalizing instruction with
  | nil => rfl
  | cons pair patches ih =>
      have place : pair.1.instruction = front.length := here pair List.mem_cons_self
      have first : (front ++ instruction :: back).modify pair.1.instruction
          (repoint pair.1 pair.2) = front ++ repoint pair.1 pair.2 instruction :: back := by
        rw [place, List.modify_eq_take_cons_drop (by simp)]
        simp
      have rest := ih (fun pair member => here pair (List.mem_cons_of_mem _ member))
        (repoint pair.1 pair.2 instruction)
      unfold repointAll at rest ⊢
      rw [List.foldl_cons, first, rest]
      rfl

namespace Item

theorem place_of_mem_patches {known : Destination → Option Nat} {item : Item} {place : Nat}
    {pair : LabelSite × Nat} (h : pair ∈ item.patches known place) :
    pair.1.instruction = place := by
  obtain ⟨⟨destination, slot⟩, -, found⟩ := List.mem_filterMap.mp h
  obtain ⟨target, -, rfl⟩ := Option.map_eq_some_iff.mp found
  rfl

theorem patches_label (label : Label) (target : Nat) (item : Item) (place : Nat) :
    item.patches (fun destination => if destination = .label label then some target else none)
        place = (item.sites label place).map (·, target) := by
  rw [patches, sites, List.map_filterMap]
  congr 1
  funext entry
  split <;> rfl

/-- Patching an item where destinations are known. -/
theorem repointAll_patches (known : Destination → Option Nat) (distance : Destination → Int32)
    (item : Item) (front back : List Instruction) :
    repointAll (front ++ item.instruction distance :: back) (item.patches known front.length) =
      front ++ item.instruction (fun destination =>
        ((known destination).map fun target => Int32.ofInt (reach item.offset target)).getD
          (distance destination)) :: back := by
  rw [repointAll_at fun pair member => place_of_mem_patches member]
  have changes : (item.patches known front.length).map (fun patch =>
        (patch.1.slot, Int32.ofInt (reach patch.1.offset patch.2))) =
      item.form.slots.filterMap fun entry =>
        ((known entry.1).map fun target => Int32.ofInt (reach item.offset target)).map
          (entry.2, ·) := by
    rw [patches, List.map_filterMap]
    congr 1
    funext entry
    cases known entry.1 <;> rfl
  have settled := item.form.setDistances_resolve
    (fun destination =>
      (known destination).map fun target => Int32.ofInt (reach item.offset target))
    distance
  rw [changes]
  simp only [instruction, settled]

end Item

/-- Patching all items where destinations are known. -/
theorem repointAll_items (known : Destination → Option Nat) (distance : Nat → Destination → Int32)
    (items : List Item) (front : List Instruction) :
    repointAll (front ++ items.map fun item => item.instruction (distance item.offset))
        ((items.zipIdx front.length).flatMap fun (item, place) => item.patches known place) =
      front ++ items.map fun item => item.instruction fun destination =>
        ((known destination).map fun target => Int32.ofInt (reach item.offset target)).getD
          (distance item.offset destination) := by
  induction items generalizing front with
  | nil => rfl
  | cons item items ih =>
      have first := item.repointAll_patches known (distance item.offset) front
        (items.map fun item => item.instruction (distance item.offset))
      have rest := ih (front ++ [item.instruction fun destination =>
        ((known destination).map fun target => Int32.ofInt (reach item.offset target)).getD
          (distance item.offset destination)])
      simp only [List.length_append, List.length_singleton, List.append_assoc,
        List.singleton_append] at rest
      simp only [List.map_cons, List.zipIdx_cons, List.flatMap_cons]
      rw [repointAll_append, first, rest]

/-! ## Parts -/

/-- Lets one distance of an instruction depend on its destination. -/
def settle (assembly : Assembly) (site : LabelSite) : Destination → Assembly
  | .label label => assembly.addSite label site
  | .position target => assembly.patch target site

def Part.run (assembly : Assembly) : Part → Assembly
  | .put opcode width form =>
    let start := Item.start ⟨assembly.position, opcode, width, form⟩
    form.slots.foldl
      (fun result entry =>
        settle result ⟨assembly.instructions.size, assembly.position, entry.2⟩ entry.1)
      { assembly with
        instructions := assembly.instructions.push start
        position := assembly.position + start.encode.length }
  | .newLabel => { assembly with labels := assembly.labels.push ⟨#[], none⟩ }
  | .anchor label target => assembly.anchorTo label target

def targets (assembly : Assembly) (destination : Destination) : Option Nat :=
  match destination with
  | .label label => assembly.labels[label.id]?.bind (·.target)
  | .position position => some position

/-- The labels of an assembly once some of them have got more sites. -/
def Sited (before after : Assembly) (more : Label → List LabelSite) : Prop :=
  ∀ number : Nat, after.labels[number]? = before.labels[number]?.map fun state =>
    { state with sites := state.sites ++ (more ⟨number⟩).toArray }

theorem Sited.targets {before after : Assembly} {more : Label → List LabelSite}
    (h : Sited before after more) : targets after = targets before := by
  funext destination
  cases destination with
  | position position => rfl
  | label label =>
      simp only [Emission.targets, h label.id]
      cases before.labels[label.id]? <;> rfl

theorem Sited.append {before middle after : Assembly} {some more : Label → List LabelSite}
    (first : Sited before middle some) (second : Sited middle after more) :
    Sited before after fun label => some label ++ more label := by
  intro number
  rw [second number, first number]
  cases before.labels[number]? <;> simp

/-- An array that has an item wherever a list has one is as long as the list. -/
theorem size_eq_length {items : Array β} {keys : List α} {value : Nat → α → β}
    (h : ∀ index : Nat, items[index]? = keys[index]?.map (value index)) :
    items.size = keys.length := by
  have none_iff (index : Nat) : items.size ≤ index ↔ keys.length ≤ index := by
    rw [← Array.getElem?_eq_none_iff, ← List.getElem?_eq_none_iff, h index,
      Option.map_eq_none_iff]
  exact Nat.le_antisymm ((none_iff _).mpr (Nat.le_refl _)) ((none_iff _).mp (Nat.le_refl _))

theorem Sited.size_eq {before after : Assembly} {more : Label → List LabelSite}
    (h : Sited before after more) : after.labels.size = before.labels.size := by
  have same (number : Nat) : after.labels[number]? =
      before.labels.toList[number]?.map fun state =>
        { state with sites := state.sites ++ (more ⟨number⟩).toArray } := by
    rw [Array.getElem?_toList]
    exact h number
  exact size_eq_length same

theorem patched_settle (assembly : Assembly) (site : LabelSite) (destination : Destination) :
    Patched assembly (settle assembly site destination)
      ((targets assembly destination).toList.map (site, ·)) := by
  cases destination with
  | position target => exact patched_patch assembly site target
  | label label =>
      have same :
          targets assembly (.label label) = assembly.labels[label.id]?.bind (·.target) := rfl
      simp only [settle, Assembly.addSite, same]
      cases assembly.labels[label.id]?.bind (·.target) with
      | none => exact Patched.nil rfl rfl rfl
      | some target =>
          have patched := patched_patch assembly site target
          exact ⟨patched.position, patched.overflow, patched.offsets, patched.instructions⟩

theorem labels_addSite (assembly : Assembly) (label : Label) (site : LabelSite) :
    (assembly.addSite label site).labels = assembly.labels.modify label.id fun state =>
      { state with sites := state.sites.push site } := by
  unfold Assembly.addSite
  split <;> simp [labels_patch]

theorem sited_settle (assembly : Assembly) (site : LabelSite) (destination : Destination) :
    Sited assembly (settle assembly site destination) fun label =>
      if destination = .label label then [site] else [] := by
  intro number
  cases destination with
  | position target =>
      simp only [settle, labels_patch]
      cases assembly.labels[number]? <;> simp
  | label label =>
      simp only [settle, labels_addSite, Array.getElem?_modify]
      by_cases here : label.id = number
      · subst here
        cases assembly.labels[label.id]? <;> simp
      · have other : label ≠ ⟨number⟩ := fun same => here (congrArg Label.id same)
        cases assembly.labels[number]? <;> simp [here, other]

/-- Settling the distances of an instruction, one after the other. -/
theorem foldl_settle (slots : List (Destination × Nat)) (place offset : Nat)
    (assembly : Assembly) :
    Patched assembly
        (slots.foldl (fun result entry => settle result ⟨place, offset, entry.2⟩ entry.1) assembly)
        (slots.filterMap fun entry =>
          (targets assembly entry.1).map fun target => (⟨place, offset, entry.2⟩, target)) ∧
      Sited assembly
        (slots.foldl (fun result entry => settle result ⟨place, offset, entry.2⟩ entry.1) assembly)
        fun label => slots.filterMap fun entry =>
          if entry.1 = .label label then some ⟨place, offset, entry.2⟩ else none := by
  induction slots generalizing assembly with
  | nil =>
      refine ⟨Patched.nil rfl rfl rfl, fun number => ?_⟩
      cases h : assembly.labels[number]? <;> simp [h]
  | cons slot slots ih =>
      have sited := sited_settle assembly ⟨place, offset, slot.2⟩ slot.1
      have patched := patched_settle assembly ⟨place, offset, slot.2⟩ slot.1
      obtain ⟨patches, sites⟩ := ih (settle assembly ⟨place, offset, slot.2⟩ slot.1)
      rw [sited.targets] at patches
      constructor
      · have both := patched.append patches
        rw [List.foldl_cons, List.filterMap_cons]
        cases h : targets assembly slot.1 with
        | none => simpa [h] using both
        | some target => simpa [h] using both
      · have both := sited.append sites
        rw [List.foldl_cons]
        convert both using 2 with label
        rw [List.filterMap_cons]
        split <;> simp_all

/-! ## Assemblies and their accounts -/

namespace Form

def Within (labels : Nat) (form : Form) : Prop :=
  ∀ entry ∈ form.slots, ∀ label : Label, entry.1 = .label label → label.id < labels

theorem Within.mono {labels more : Nat} {form : Form} (h : form.Within labels)
    (le : labels ≤ more) : form.Within more :=
  fun entry member label same => Nat.lt_of_lt_of_le (h entry member label same) le

end Form

namespace Account

structure Scoped (account : Account) : Prop where
  anchors : ∀ pair ∈ account.anchors, pair.1.id < account.labels
  items : ∀ item ∈ account.items, item.form.Within account.labels

theorem instructions_put (account : Account) (opcode : Opcode) (width : Width) (form : Form) :
    (account.add (.put opcode width form)).instructions =
      account.instructions ++
        [Item.instruction (account.distance account.position)
          ⟨account.position, opcode, width, form⟩] := by
  have same : (account.add (.put opcode width form)).distance = account.distance := by
    funext position destination
    cases destination <;> rfl
  simp only [instructions, same]
  simp [add]

/-- Anchoring a label changes the distances to it and no others. -/
theorem instructions_anchor (account : Account) (label : Label) (target : Nat) :
    (account.add (.anchor label target)).instructions =
      account.items.map fun item => item.instruction fun destination =>
        ((if destination = .label label then some target else none).map fun target =>
          Int32.ofInt (reach item.offset target)).getD
            (account.distance item.offset destination) := by
  have distance (position : Nat) (destination : Destination) :
      (account.add (.anchor label target)).distance position destination =
        ((if destination = .label label then some target else none).map fun target =>
          Int32.ofInt (reach position target)).getD (account.distance position destination) := by
    cases destination with
    | position there => rfl
    | label other =>
        by_cases same : other = label
        · simp [Account.distance, Account.target, add, same]
        · simp [Account.distance, Account.target, add, List.lookup_cons, same,
            beq_false_of_ne same]
  simp only [instructions, funext (distance _)]
  rfl

theorem Scoped.lookup_eq_none {account : Account} (h : account.Scoped) {label : Label}
    (fresh : account.labels ≤ label.id) : account.anchors.lookup label = none := by
  rw [List.lookup_eq_none_iff]
  intro pair member
  have known := h.anchors pair member
  have other : label ≠ pair.1 := fun same => by
    rw [same] at fresh
    omega
  simpa using other

theorem Scoped.sites_eq_nil {account : Account} (h : account.Scoped) {label : Label}
    (fresh : account.labels ≤ label.id) : account.sites label = [] := by
  refine List.flatMap_eq_nil_iff.mpr fun (item, place) member => ?_
  refine List.filterMap_eq_nil_iff.mpr fun entry here => if_neg fun same => ?_
  have known := h.items item (List.fst_mem_of_mem_zipIdx member) entry here label same
  omega

end Account

def Part.Scoped (labels : Nat) : Part → Prop
  | .put _ _ form => form.Within labels
  | .newLabel => True
  | .anchor label _ => label.id < labels

theorem Account.Scoped.add {account : Account} (h : account.Scoped) {part : Part}
    (inside : part.Scoped account.labels) : (account.add part).Scoped := by
  cases part with
  | put opcode width form =>
      refine ⟨h.anchors, fun item member => ?_⟩
      rcases List.mem_append.mp member with old | new
      · exact h.items item old
      · rw [List.mem_singleton.mp new]
        exact inside
  | newLabel =>
      exact ⟨fun pair member => Nat.lt_succ_of_lt (h.anchors pair member),
        fun item member => (h.items item member).mono (Nat.le_succ _)⟩
  | anchor label target =>
      refine ⟨fun pair member => ?_, h.items⟩
      rcases List.mem_cons.mp member with new | old
      · rw [new]
        exact inside
      · exact h.anchors pair old

/-- What an account says of an assembly. -/
structure Follows (assembly : Assembly) (account : Account) : Prop where
  position : assembly.position = account.position
  size : assembly.labels.size = account.labels
  labels : ∀ label : Label, label.id < account.labels → assembly.labels[label.id]? =
    some ⟨(account.sites label).toArray, account.anchors.lookup label⟩
  overflow : assembly.overflow = firstFar account.computed
  offsets : assembly.instructions.toList.map (·.offset) = account.items.map (·.offset)
  instructions : firstFar account.computed = none →
    assembly.instructions.toList = account.instructions

theorem follows_empty : Follows .empty .empty where
  position := rfl
  size := rfl
  labels _ h := absurd h (Nat.not_lt_zero _)
  overflow := rfl
  offsets := rfl
  instructions _ := rfl

namespace Follows

variable {assembly : Assembly} {account : Account}

theorem length_eq (h : Follows assembly account) :
    assembly.instructions.size = account.items.length := by
  simpa using congrArg List.length h.offsets

theorem targets_eq (h : Follows assembly account) (inside : account.Scoped) :
    targets assembly = account.target := by
  funext destination
  cases destination with
  | position position => rfl
  | label label =>
      simp only [targets, Account.target]
      by_cases known : label.id < account.labels
      · rw [h.labels label known]
        rfl
      · have beyond : assembly.labels[label.id]? = none := by
          rw [Array.getElem?_eq_none_iff, h.size]
          omega
        rw [beyond, inside.lookup_eq_none (Nat.le_of_not_lt known)]
        rfl

theorem put (h : Follows assembly account) (inside : account.Scoped) (opcode : Opcode)
    (width : Width) (form : Form) :
    Follows ((Part.put opcode width form).run assembly)
      (account.add (.put opcode width form)) := by
  let item : Item := ⟨account.position, opcode, width, form⟩
  let pushed : Assembly :=
    { assembly with
      instructions := assembly.instructions.push item.start
      position := account.position + item.start.encode.length }
  have run : (Part.put opcode width form).run assembly =
      form.slots.foldl
        (fun result entry =>
          settle result ⟨account.items.length, account.position, entry.2⟩ entry.1) pushed := by
    simp only [Part.run, h.position, h.length_eq]
    rfl
  have known : targets pushed = account.target := h.targets_eq inside
  obtain ⟨patched, sited⟩ := foldl_settle form.slots account.items.length account.position pushed
  rw [known] at patched
  have computed : (form.slots.filterMap fun entry => (account.target entry.1).map fun target =>
        ((⟨account.items.length, account.position, entry.2⟩ : LabelSite), target)).map
        (fun (site, target) => (site.offset, target)) =
      (form.slots.filterMap fun entry => account.target entry.1).map
        fun target => (account.position, target) := by
    rw [List.map_filterMap, List.map_filterMap]
    congr 1
    funext entry
    cases account.target entry.1 <;> rfl
  rw [run]
  exact {
    position := patched.position
    size := sited.size_eq.trans h.size
    labels := fun label created => by
      have before : pushed.labels[label.id]? = _ := h.labels label created
      have sites : (account.add (.put opcode width form)).sites label =
          account.sites label ++ item.sites label account.items.length := by
        simp [Account.sites, Account.add, List.zipIdx_append, item]
      rw [sited label.id, before, sites]
      simp [Item.sites, Account.add, item]
    overflow := by
      rw [patched.overflow, computed, Account.add, firstFar_append]
      rw [← h.overflow]
    offsets := by
      rw [patched.offsets]
      simp [pushed, Account.add, h.offsets, Item.start, Item.instruction, item]
    instructions := fun near => by
      rw [Account.add, firstFar_append, Option.or_eq_none_iff] at near
      rw [patched.instructions (by rw [computed]; exact near.2)]
      have settled := item.repointAll_patches account.target (fun _ => 0) account.instructions []
      have length : account.instructions.length = account.items.length := by
        simp [Account.instructions]
      rw [length] at settled
      have start : pushed.instructions.toList =
          account.instructions ++ [item.instruction fun _ => 0] := by
        simp [pushed, h.instructions near.1, Item.start]
      rw [start]
      rw [Account.instructions_put]
      exact settled }

theorem newLabel (h : Follows assembly account) (inside : account.Scoped) :
    Follows (Part.newLabel.run assembly) (account.add .newLabel) where
  position := h.position
  size := by simp [Part.run, Account.add, h.size]
  labels label created := by
    have sites : (account.add .newLabel).sites label = account.sites label := rfl
    rw [sites]
    simp only [Part.run, Account.add, Array.getElem?_push, h.size] at created ⊢
    by_cases new : label.id = account.labels
    · have fresh : account.labels ≤ label.id := Nat.le_of_eq new.symm
      simp [new, inside.sites_eq_nil fresh, inside.lookup_eq_none fresh]
    · simp [new, h.labels label (by omega)]
  overflow := h.overflow
  offsets := h.offsets
  instructions := h.instructions

theorem anchor (h : Follows assembly account) {label : Label}
    (known : label.id < account.labels) (target : Nat) :
    Follows ((Part.anchor label target).run assembly) (account.add (.anchor label target)) := by
  let anchored : Assembly :=
    { assembly with
      labels := assembly.labels.modify label.id fun state => { state with target := some target } }
  have run : (Part.anchor label target).run assembly =
      (account.sites label).foldl (fun assembly site => assembly.patch target site) anchored := by
    simp only [Part.run, Assembly.anchorTo, h.labels label known]
    simp [anchored]
  have patched := patched_foldl (account.sites label) target anchored
  have computed : ((account.sites label).map (·, target)).map
      (fun (site, target) => (site.offset, target)) =
      (account.sites label).map fun site => (site.offset, target) := by
    rw [List.map_map]
    rfl
  rw [run]
  exact {
    position := patched.position.trans h.position
    size := by
      rw [labels_foldl_patch]
      simp [anchored, h.size, Account.add]
    labels := fun other created => by
      have sites : (account.add (.anchor label target)).sites other = account.sites other := rfl
      rw [labels_foldl_patch, sites]
      simp only [anchored, Array.getElem?_modify, h.labels other created, Account.add,
        List.lookup_cons]
      by_cases same : other = label
      · simp [same]
      · have apart : label.id ≠ other.id := fun equal => same (congrArg Label.mk equal.symm)
        simp [apart, beq_false_of_ne same]
    overflow := by
      rw [patched.overflow, computed, Account.add, firstFar_append]
      rw [← h.overflow]
    offsets := patched.offsets.trans h.offsets
    instructions := fun near => by
      rw [Account.add, firstFar_append, Option.or_eq_none_iff] at near
      rw [patched.instructions (by rw [computed]; exact near.2)]
      have settled := repointAll_items
        (fun destination => if destination = .label label then some target else none)
        account.distance account.items []
      have start : anchored.instructions.toList = account.instructions := h.instructions near.1
      have patches : (account.items.zipIdx.flatMap fun (item, place) => item.patches
          (fun destination => if destination = .label label then some target else none) place) =
          (account.sites label).map (·, target) := by
        rw [Account.sites, List.map_flatMap]
        congr 1
        funext (item, place)
        exact item.patches_label label target place
      rw [start, Account.instructions_anchor, ← patches]
      exact settled }

end Follows

end Emission

end ObjectMachine
