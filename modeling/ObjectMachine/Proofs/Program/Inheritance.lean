import Mathlib.Algebra.GroupWithZero.Nat
import ObjectMachine.Proofs.Program.Fresh

/-!
# What classes inherit

A class with what it inherits is made of the declared classes on its way to the root, the nearest
first. It has the nearest method and the nearest field of every name, its own slots come behind the
room that the classes above it need, and the numbers of the classes do not matter.
-/

namespace ObjectMachine

/-! ## Entries -/

section

variable [BEq κ] [LawfulBEq κ]

omit [LawfulBEq κ] in
theorem lookup_map_value (change : ν → ν') (entries : List (κ × ν)) (key : κ) :
    (entries.map fun entry => (entry.1, change entry.2)).lookup key =
      (entries.lookup key).map change := by
  induction entries with
  | nil => rfl
  | cons entry rest ih =>
      obtain ⟨first, value⟩ := entry
      rw [List.map_cons, List.lookup_cons, List.lookup_cons]
      cases key == first
      · exact ih
      · rfl

theorem lookup_filter_key (p : κ → Bool) (entries : List (κ × ν)) (key : κ) :
    (entries.filter fun entry => p entry.1).lookup key =
      if p key then entries.lookup key else none := by
  induction entries with
  | nil => simp
  | cons entry rest ih =>
      obtain ⟨first, value⟩ := entry
      rw [List.filter_cons, List.lookup_cons]
      by_cases same : key = first
      · subst same
        cases kept : p key <;> simp [kept, ih]
      · have apart : (key == first) = false := beq_eq_false_iff_ne.mpr same
        cases p first <;> simp [List.lookup_cons, apart, ih]

theorem lookup_withInherited (own inherited : List (κ × ν)) (key : κ) :
    (withInherited own inherited).lookup key = (own.lookup key).or (inherited.lookup key) := by
  rw [withInherited, List.lookup_append, lookup_filter_key (fun key => !own.any (·.1 == key))]
  cases found : own.lookup key with
  | some value => rfl
  | none =>
      have new : own.any (·.1 == key) = false := by
        rw [List.lookup_eq_none_iff] at found
        rw [List.any_eq_false]
        intro entry member same
        exact bne_iff_ne.mp (found entry member) (eq_of_beq same).symm
      simp [new]

end

def greatestSlot (isStatic : Bool) : List (Symbol × FieldSlot) → Nat
  | [] => 0
  | (_, field) :: rest =>
    if field.isStatic = isStatic then max field.slot.toNat (greatestSlot isStatic rest)
    else greatestSlot isStatic rest

theorem slot_le_greatestSlot {fields : List (Symbol × FieldSlot)} {name : Symbol}
    {field : FieldSlot} (h : (name, field) ∈ fields) :
    field.slot.toNat ≤ greatestSlot field.isStatic fields := by
  induction fields with
  | nil => cases h
  | cons entry rest ih =>
      unfold greatestSlot
      rcases List.mem_cons.mp h with rfl | later
      · rw [if_pos rfl]
        exact Nat.le_max_left _ _
      · have among := ih later
        split
        · exact Nat.le_trans among (Nat.le_max_right _ _)
        · exact among

theorem greatestSlot_concat (isStatic : Bool) (fields : List (Symbol × FieldSlot)) (name : Symbol)
    (field : FieldSlot) : greatestSlot isStatic (fields ++ [(name, field)]) =
      if field.isStatic = isStatic then max (greatestSlot isStatic fields) field.slot.toNat
      else greatestSlot isStatic fields := by
  induction fields with
  | nil => simp [greatestSlot]
  | cons entry rest ih =>
      rw [List.cons_append, greatestSlot, greatestSlot, ih]
      split
      · split
        · exact (Nat.max_assoc _ _ _).symm
        · rfl
      · rfl

/-! ## Classes as they are declared -/

namespace ClassDef

/-- The greatest number of a declared slot of a kind, which is the room that a class needs beside
that of its ancestors. -/
def ownSize (info : ClassDef) (isStatic : Bool) : Nat :=
  greatestSlot isStatic info.fields

/-- Whether a class has no members but those declared for itself. -/
structure Alone (info : ClassDef) : Prop where
  unexpanded : info.expanded = false
  instances : info.instanceFieldCount.toNat = info.ownSize false
  statics : info.statics.slots.size = info.ownSize true

variable {info : ClassDef} {name : Symbol}

theorem slot_le_ownSize {field : FieldSlot} (h : info.field? name = some field) :
    field.slot.toNat ≤ info.ownSize field.isStatic := by
  obtain ⟨front, back, listed, -⟩ := List.lookup_eq_some_iff.mp h
  have among : (name, field) ∈ info.fields := by simp [listed]
  exact slot_le_greatestSlot among

theorem alone_new (name moduleName : String) (moduleId : ModuleId) :
    (ClassDef.new name moduleName moduleId).Alone :=
  ⟨rfl, rfl, rfl⟩

theorem alone_default : (default : ClassDef).Alone :=
  ⟨rfl, rfl, rfl⟩

theorem ownSize_withField (fresh : info.field? name = none) (field : FieldSlot)
    (isStatic : Bool) : (info.withField name field).ownSize isStatic =
      if field.isStatic = isStatic then max (info.ownSize isStatic) field.slot.toNat
      else info.ownSize isStatic := by
  have fields : (info.withField name field).fields = info.fields ++ [(name, field)] := by
    rw [← putEntry_of_lookup_eq_none fresh]
    exact reserve_kept ClassDef.fields (fun _ _ _ => rfl) _ field
  rw [ownSize, fields]
  exact greatestSlot_concat isStatic info.fields name field

theorem toNat_max (count slot : UInt32) : (max count slot).toNat = max count.toNat slot.toNat := by
  rw [show max count slot = if count ≤ slot then slot else count from rfl]
  split
  · next less => exact (Nat.max_eq_right (UInt32.le_iff_toNat_le.mp less)).symm
  · next more =>
      rw [UInt32.le_iff_toNat_le, Nat.not_le] at more
      exact (Nat.max_eq_left (Nat.le_of_lt more)).symm

/-- A declared field takes exactly the room that it is counted with. -/
theorem Alone.withField (h : info.Alone) (fresh : info.field? name = none) (field : FieldSlot) :
    (info.withField name field).Alone := by
  have size := ownSize_withField fresh field
  obtain ⟨slot, isStatic⟩ := field
  cases isStatic with
  | true =>
      refine ⟨h.unexpanded, ?_, ?_⟩
      · rw [size, if_neg (by simp)]
        exact h.instances
      · rw [size, if_pos rfl, ← h.statics]
        show (info.statics.slots ++
          Array.replicate (slot.toNat - info.statics.slots.size) Value.null).size = _
        rw [Array.size_append, Array.size_replicate]
        dsimp only
        omega
  | false =>
      refine ⟨h.unexpanded, ?_, ?_⟩
      · rw [size, if_pos rfl, ← h.instances]
        exact toNat_max info.instanceFieldCount slot
      · rw [size, if_neg (by simp)]
        exact h.statics

theorem Alone.of_declareField {symbols : SymbolTable} {field : FieldSlot} {next : ClassDef}
    (h : info.Alone) (declares : declareField symbols name field info = .ok () next) :
    next.Alone := by
  have leads : Leads (· = info) (fun _ => True) (fun _ next => next.Alone)
      (declareField symbols name field) := by
    apply Leads.of_get_bind
    rintro _ rfl
    apply Leads.of_set_bind
    split
    · exact Leads.of_throw_bind trivial
    · next fresh =>
        rintro _ rfl
        exact h.withField (Option.not_isSome_iff_eq_none.mp fresh) field
  exact leads.of_ok rfl declares

theorem Alone.of_declareMethod {symbols : SymbolTable} {key : MethodKey} {entry : MethodEntry}
    {next : ClassDef} (h : info.Alone)
    (declares : declareMethod symbols key entry info = .ok () next) : next.Alone := by
  have leads : Leads (· = info) (fun _ => True) (fun _ next => next.Alone)
      (declareMethod symbols key entry) := by
    apply Leads.of_get_bind
    rintro _ rfl
    apply Leads.of_set_bind
    split
    · exact Leads.of_throw trivial
    · apply Leads.of_pure
      rintro _ rfl
      exact ⟨h.unexpanded, h.instances, h.statics⟩
  exact leads.of_ok rfl declares

end ClassDef

/-! ## Classes with what they inherit -/

/-- The room that the declared classes on a way need. -/
def sizes (isStatic : Bool) (chain : List ClassDef) : Nat :=
  (chain.map (·.ownSize isStatic)).sum

theorem sizes_cons (isStatic : Bool) (info : ClassDef) (above : List ClassDef) :
    sizes isStatic (info :: above) = info.ownSize isStatic + sizes isStatic above := by
  rw [sizes, List.map_cons, List.sum_cons, sizes]

/-- The nearest field of a name on a way: whether it is static, and its slot behind the room of the
classes above the one that declares it. -/
def nearestField? (name : Symbol) : List ClassDef → Option (Bool × Nat)
  | [] => none
  | info :: above =>
    match info.field? name with
    | some field => some (field.isStatic, field.slot.toNat + sizes field.isStatic above)
    | none => nearestField? name above

/-- The nearest method of a key on a way, which begins and ends with the first class for names that
no class inherits. -/
def nearestMethod? (notInherited : List Symbol) (key : MethodKey) (chain : List ClassDef) :
    Option MethodEntry :=
  if key.name ∈ notInherited then chain.head?.bind (·.method? key)
  else chain.findSome? (·.method? key)

/-- A class with the members of those behind it on its way. -/
def merged (notInherited : List Symbol) : List ClassDef → ClassDef
  | [] => default
  | [root] => { root with expanded := true }
  | info :: parent :: above =>
    { info.inherit (merged notInherited (parent :: above)) notInherited with expanded := true }

section

variable (notInherited : List Symbol) {chain : List ClassDef}

theorem method?_merged (key : MethodKey) :
    (merged notInherited chain).method? key = nearestMethod? notInherited key chain := by
  unfold nearestMethod?
  fun_induction merged notInherited chain with
  | case1 => split <;> rfl
  | case2 root =>
      rw [List.head?_cons, List.findSome?_singleton]
      split <;> rfl
  | case3 info parent above _ ih =>
      have inherited : (info.inherit (merged notInherited (parent :: above)) notInherited).methods =
          withInherited info.methods ((merged notInherited (parent :: above)).methods.filter
            fun entry => !notInherited.contains entry.1.name) := rfl
      rw [List.head?_cons, List.findSome?_cons]
      show (info.inherit _ notInherited).methods.lookup key = _
      rw [inherited, lookup_withInherited, 
        lookup_filter_key fun key : MethodKey => !notInherited.contains key.name]
      change (info.method? key).or (if _ then (merged notInherited (parent :: above)).method? key
        else none) = _
      rw [ih]
      by_cases own : key.name ∈ notInherited
      · simp [own]
      · simp only [List.contains_eq_mem, own, decide_false, Bool.not_false, if_true, if_false]
        cases info.method? key <;> rfl

theorem size_statics_merged (alone : ∀ info ∈ chain, info.Alone) :
    (merged notInherited chain).statics.slots.size = sizes true chain := by
  fun_induction merged notInherited chain with
  | case1 => rfl
  | case2 root => simpa [sizes] using (alone root List.mem_cons_self).statics
  | case3 info parent above _ ih =>
      obtain ⟨own, higher⟩ := List.forall_mem_cons.mp alone
      show (Array.replicate _ Value.null ++ info.statics.slots).size = _
      rw [Array.size_append, Array.size_replicate, ih higher, own.statics, Nat.add_comm]
      exact (sizes_cons true info _).symm

theorem toNat_instanceFieldCount_merged (alone : ∀ info ∈ chain, info.Alone)
    (fits : sizes false chain < UInt32.size) :
    (merged notInherited chain).instanceFieldCount.toNat = sizes false chain := by
  fun_induction merged notInherited chain with
  | case1 => rfl
  | case2 root => simpa [sizes] using (alone root List.mem_cons_self).instances
  | case3 info parent above _ ih =>
      obtain ⟨own, higher⟩ := List.forall_mem_cons.mp alone
      rw [sizes_cons] at fits ⊢
      have rest := ih higher (Nat.lt_of_le_of_lt (Nat.le_add_left _ _) fits)
      show (_ + (merged notInherited (parent :: above)).instanceFieldCount).toNat = _
      rw [UInt32.toNat_add, rest, own.instances]
      exact Nat.mod_eq_of_lt fits

/-- Own fields are behind the room of the classes above, where it is less than a word counts. -/
theorem field?_merged (alone : ∀ info ∈ chain, info.Alone)
    (fits : ∀ isStatic, sizes isStatic chain < UInt32.size) (name : Symbol) :
    ((merged notInherited chain).field? name).map
      (fun field => (field.isStatic, field.slot.toNat)) = nearestField? name chain := by
  fun_induction merged notInherited chain with
  | case1 => rfl
  | case2 root =>
      show (root.field? name).map _ = _
      cases found : root.field? name <;> simp [nearestField?, found, sizes]
  | case3 info parent above _ ih =>
      obtain ⟨own, higher⟩ := List.forall_mem_cons.mp alone
      have rest (isStatic : Bool) : sizes isStatic (parent :: above) < UInt32.size := by
        have whole := fits isStatic
        rw [sizes_cons] at whole
        exact Nat.lt_of_le_of_lt (Nat.le_add_left _ _) whole
      have statics := size_statics_merged notInherited higher
      have instances := toNat_instanceFieldCount_merged notInherited higher (rest false)
      have inherited := ih higher rest
      show ((info.inherit (merged notInherited (parent :: above)) notInherited).field? name).map _ =
        _
      generalize merged notInherited (parent :: above) = above' at statics instances inherited ⊢
      have fields : (info.inherit above' notInherited).field? name =
          (withInherited (info.fields.map fun entry => (entry.1, ClassDef.shifted above' entry.2))
            above'.fields).lookup name := rfl
      rw [fields, lookup_withInherited, lookup_map_value (ClassDef.shifted above')]
      change (((info.field? name).map _).or (above'.field? name)).map _ = _
      rw [nearestField?]
      cases found : info.field? name with
      | none => exact inherited
      | some field =>
          have within := fits field.isStatic
          rw [sizes_cons] at within
          have slot := ClassDef.slot_le_ownSize found
          have room : (if field.isStatic then UInt32.ofNat above'.statics.slots.size
              else above'.instanceFieldCount).toNat =
                sizes field.isStatic (parent :: above) := by
            cases kind : field.isStatic with
            | true =>
                have less := rest true
                rw [if_pos rfl, statics, UInt32.toNat_ofNat']
                exact Nat.mod_eq_of_lt less
            | false => exact instances
          show some (field.isStatic, (field.slot + _).toNat) = some _
          rw [UInt32.toNat_add, room, Nat.mod_eq_of_lt]
          exact Nat.lt_of_le_of_lt (Nat.add_le_add_right slot _) within

/-- A class takes over members and nothing else. -/
theorem merged_cons (info : ClassDef) (above : List ClassDef) : ∃ fields methods slots count,
    merged notInherited (info :: above) = { info with
      fields := fields
      methods := methods
      statics := { info.statics with slots := slots }
      instanceFieldCount := count
      expanded := true } := by
  cases above with
  | nil => exact ⟨_, _, _, _, rfl⟩
  | cons parent above => exact ⟨_, _, _, _, rfl⟩

theorem expanded_merged (info : ClassDef) (above : List ClassDef) :
    (merged notInherited (info :: above)).expanded = true := by
  obtain ⟨_, _, _, _, same⟩ := merged_cons notInherited info above
  rw [same]

end

/-! ## Numbers of classes -/

/-- A method of a class among classes that have other numbers. -/
def MethodEntry.renumbered (place : ClassId → ClassId) (entry : MethodEntry) : MethodEntry :=
  { entry with declaring := place entry.declaring }

def ClassDef.renumbered (place : ClassId → ClassId) (info : ClassDef) : ClassDef :=
  { info with
    parent := info.parent.map place
    methods := info.methods.map fun (key, entry) => (key, entry.renumbered place) }

theorem withInherited_map_value [BEq κ] (change : ν → ν') (own inherited : List (κ × ν)) :
    withInherited (own.map fun (key, value) => (key, change value))
      (inherited.map fun (key, value) => (key, change value)) =
      (withInherited own inherited).map fun (key, value) => (key, change value) := by
  simp only [withInherited, List.any_map, List.filter_map, List.map_append, Function.comp_def]

theorem ClassDef.inherit_renumbered (place : ClassId → ClassId) (info parent : ClassDef)
    (notInherited : List Symbol) :
    (info.renumbered place).inherit (parent.renumbered place) notInherited =
      (info.inherit parent notInherited).renumbered place := by
  have methods : withInherited (info.renumbered place).methods
      ((parent.renumbered place).methods.filter fun (key, _) =>
        !notInherited.contains key.name) =
      (withInherited info.methods (parent.methods.filter fun (key, _) =>
        !notInherited.contains key.name)).map
          fun (key, entry) => (key, entry.renumbered place) := by
    rw [← withInherited_map_value, renumbered, renumbered, List.filter_map]
    rfl
  unfold inherit
  rw [methods]
  rfl

/-- What a class inherits does not depend on the numbers of classes. -/
theorem merged_renumbered (place : ClassId → ClassId) (notInherited : List Symbol)
    (chain : List ClassDef) :
    merged notInherited (chain.map (·.renumbered place)) =
      (merged notInherited chain).renumbered place := by
  fun_induction merged notInherited chain with
  | case1 => rfl
  | case2 root => rfl
  | case3 info parent above _ ih =>
      rw [List.map_cons, List.map_cons, merged, ← List.map_cons, ih,
        ClassDef.inherit_renumbered]
      rfl

end ObjectMachine
