import ObjectMachine.Proofs.Program.Numbering

/-!
# Where fields are

The slots of a class are a prefix of those of its descendants: each class on a way to the root has
its own slots right behind those of the classes above it. So a field has the same slot in whatever
descendant it is seen, unless one on the way declares its name again, and different fields have
different slots.
-/

namespace ObjectMachine

theorem sizes_append (isStatic : Bool) (chain chain' : List ClassDef) :
    sizes isStatic (chain ++ chain') = sizes isStatic chain + sizes isStatic chain' := by
  rw [sizes, List.map_append, List.sum_append, sizes, sizes]

namespace Catalog

/-- The class, of one and its ancestors, whose field is meant by a name. -/
def owner? (catalog : Catalog) (name : Symbol) (id : ClassId) : Option ClassId :=
  (catalog.hierarchy id).find? fun other => ((catalog.get other).field? name).isSome

variable {catalog : Catalog} {id other : ClassId} {chain : List ClassId}

/-! ## Ways to the root -/

namespace Lineage

theorem exists_append (h : catalog.Lineage id chain) (member : other ∈ chain) :
    ∃ below above, chain = below ++ above ∧ catalog.Lineage other above := by
  induction h with
  | root none =>
      rw [List.mem_singleton.mp member]
      exact ⟨[], _, rfl, .root none⟩
  | child parent lineage ih =>
      rcases List.mem_cons.mp member with rfl | later
      · exact ⟨[], _, rfl, .child parent lineage⟩
      · obtain ⟨below, above, rfl, rest⟩ := ih later
        exact ⟨_ :: below, above, rfl, rest⟩

theorem mem_of_descends (h : catalog.Lineage id chain)
    (descends : Relation.ReflTransGen catalog.HasParent id other) : other ∈ chain := by
  induction h with
  | root none =>
      rcases descends.cases_head with rfl | ⟨parent, next, -⟩
      · exact List.mem_cons_self
      · cases none.symm.trans next
  | child parent _ ih =>
      rcases descends.cases_head with rfl | ⟨above, next, rest⟩
      · exact List.mem_cons_self
      · cases parent.symm.trans next
        exact List.mem_cons_of_mem _ (ih rest)

theorem above_or_above (h : catalog.Lineage id chain) {one two : ClassId} (one_mem : one ∈ chain)
    (two_mem : two ∈ chain) : one = two ∨
      (∃ above, catalog.Lineage one (one :: above) ∧ two ∈ above) ∨
      ∃ above, catalog.Lineage two (two :: above) ∧ one ∈ above := by
  induction h with
  | root => exact .inl ((List.mem_singleton.mp one_mem).trans (List.mem_singleton.mp two_mem).symm)
  | child parent lineage ih =>
      rcases List.mem_cons.mp one_mem with rfl | one_above
      · rcases List.mem_cons.mp two_mem with rfl | two_above
        · exact .inl rfl
        · exact .inr (.inl ⟨_, .child parent lineage, two_above⟩)
      · rcases List.mem_cons.mp two_mem with rfl | two_above
        · exact .inr (.inr ⟨_, .child parent lineage, one_above⟩)
        · exact ih one_above two_above

theorem sizes_le (h : catalog.Lineage id chain) {above : List ClassId} (member : other ∈ chain)
    (lineage : catalog.Lineage other above) (isStatic : Bool) :
    sizes isStatic (above.map catalog.get) ≤ sizes isStatic (chain.map catalog.get) := by
  obtain ⟨below, above', rfl, lineage'⟩ := h.exists_append member
  rw [lineage.eq_of_lineage lineage', List.map_append, sizes_append]
  exact Nat.le_add_left _ _

end Lineage

/-! ## Slots -/

/-- Whether a field of a kind and a name is declared by a class and has a slot behind the room of
the classes above it. -/
def Places (catalog : Catalog) (owner : ClassId) (name : Symbol) (isStatic : Bool)
    (slot : Nat) : Prop :=
  ∃ above field, catalog.Lineage owner (owner :: above) ∧
    (catalog.get owner).field? name = some field ∧ field.isStatic = isStatic ∧
    slot = field.slot.toNat + sizes isStatic (above.map catalog.get)

/-- The nearest field of a name is where the class puts it that declares it. -/
theorem Lineage.exists_places (h : catalog.Lineage id chain) {name : Symbol} {isStatic : Bool}
    {slot : Nat} (nearest : nearestField? name (chain.map catalog.get) = some (isStatic, slot)) :
    ∃ owner ∈ chain,
      (chain.find? fun other => ((catalog.get other).field? name).isSome) = some owner ∧
      catalog.Places owner name isStatic slot := by
  have own {id : ClassId} {above : List ClassId} (h : catalog.Lineage id (id :: above))
      {field : FieldSlot} (found : (catalog.get id).field? name = some field)
      (nearest : nearestField? name ((id :: above).map catalog.get) = some (isStatic, slot)) :
      catalog.Places id name isStatic slot := by
    rw [List.map_cons, nearestField?, found] at nearest
    cases nearest
    exact ⟨above, field, h, found, rfl, rfl⟩
  induction h with
  | @root id none =>
      cases found : (catalog.get id).field? name with
      | some field =>
          exact ⟨id, List.mem_cons_self, by simp [found], own (.root none) found nearest⟩
      | none => simp [nearestField?, found] at nearest
  | @child id parent above next lineage ih =>
      cases found : (catalog.get id).field? name with
      | some field =>
          exact ⟨id, List.mem_cons_self, by simp [found], own (.child next lineage) found nearest⟩
      | none =>
          rw [List.map_cons, nearestField?, found] at nearest
          obtain ⟨owner, member, first, places⟩ := ih nearest
          exact ⟨owner, List.mem_cons_of_mem _ member, by simpa [found] using first, places⟩

/-- Names that no class below an ancestor declares mean the same there. -/
theorem nearestField?_append {name : Symbol} {below : List ClassDef}
    (undeclared : ∀ info ∈ below, info.field? name = none) (above : List ClassDef) :
    nearestField? name (below ++ above) = nearestField? name above := by
  induction below with
  | nil => rfl
  | cons info rest ih =>
      obtain ⟨here, others⟩ := List.forall_mem_cons.mp undeclared
      rw [List.cons_append, nearestField?, here]
      exact ih others

namespace Places

variable {owner owner' : ClassId} {name name' : Symbol} {isStatic : Bool} {slot slot' : Nat}

theorem le_sizes (h : catalog.Places owner name isStatic slot) {chain : List ClassId}
    (lineage : catalog.Lineage owner chain) :
    slot ≤ sizes isStatic (chain.map catalog.get) := by
  obtain ⟨above, field, lineage', found, rfl, rfl⟩ := h
  rw [lineage.eq_of_lineage lineage', List.map_cons, sizes_cons]
  exact Nat.add_le_add_right (ClassDef.slot_le_ownSize found) _

theorem lt_of_above (h : catalog.Places owner name isStatic slot)
    (h' : catalog.Places owner' name' isStatic slot') (orderly : catalog.Orderly)
    (plain : (catalog.get owner).facade = none) {above : List ClassId}
    (lineage : catalog.Lineage owner (owner :: above)) (member : owner' ∈ above) :
    slot' < slot := by
  obtain ⟨above', field, lineage', found, rfl, rfl⟩ := h
  cases lineage.eq_of_lineage lineage'
  have positive : 0 < field.slot.toNat := by
    have nonzero := ((orderly.each owner).numbered plain).positive name field found
    exact Nat.pos_of_ne_zero fun zero => nonzero (UInt32.toNat_inj.mp zero)
  obtain ⟨-, rest, -, lineage''⟩ := lineage.exists_append (List.mem_cons_of_mem _ member)
  have below := h'.le_sizes lineage''
  have within : sizes field.isStatic (rest.map catalog.get) ≤
      sizes field.isStatic (above.map catalog.get) := by
    cases lineage with
    | root => cases member
    | child _ higher => exact higher.sizes_le member lineage'' _
  omega

theorem eq_of_slot_eq (h : catalog.Places owner name isStatic slot)
    (h' : catalog.Places owner' name' isStatic slot) (orderly : catalog.Orderly)
    (lineage : catalog.Lineage id chain) (member : owner ∈ chain) (member' : owner' ∈ chain)
    (plain : ∀ other ∈ chain, (catalog.get other).facade = none) :
    owner = owner' ∧ name = name' := by
  rcases lineage.above_or_above member member' with
    rfl | ⟨above, way, higher⟩ | ⟨above, way, higher⟩
  · refine ⟨rfl, ?_⟩
    obtain ⟨above, field, way, found, rfl, slot_eq⟩ := h
    obtain ⟨above', field', way', found', kind, slot_eq'⟩ := h'
    cases way.eq_of_lineage way'
    have same : field.slot = field'.slot := UInt32.toNat_inj.mp (by omega)
    have fields : field = field' := by
      obtain ⟨slot, isStatic⟩ := field
      obtain ⟨slot', isStatic'⟩ := field'
      rw [FieldSlot.mk.injEq]
      exact ⟨same, kind.symm⟩
    subst fields
    exact ((orderly.each owner).numbered (plain owner member)).apart name name' field found found'
  · exact absurd (h.lt_of_above h' orderly (plain owner member) way higher) (Nat.lt_irrefl _)
  · exact absurd (h'.lt_of_above h orderly (plain owner' member') way higher) (Nat.lt_irrefl _)

theorem slot_eq (h : catalog.Places owner name isStatic slot)
    (h' : catalog.Places owner name isStatic slot') : slot = slot' := by
  obtain ⟨above, field, way, found, rfl, rfl⟩ := h
  obtain ⟨above', field', way', found', kind, rfl⟩ := h'
  cases way.eq_of_lineage way'
  cases found.symm.trans found'
  rfl

theorem kind_eq {isStatic' : Bool} (h : catalog.Places owner name isStatic slot)
    (h' : catalog.Places owner name isStatic' slot') : isStatic = isStatic' := by
  obtain ⟨above, field, way, found, rfl, rfl⟩ := h
  obtain ⟨above', field', way', found', rfl, rfl⟩ := h'
  cases found.symm.trans found'
  rfl

end Places

/-! ## Flattened classes -/

/-- Whether all slots of flattened classes are numbers that fit in a word. -/
structure SlotsFit (flat : Catalog) : Prop where
  instances : flat.Grows
  statics : ∀ info ∈ flat.classes, info.statics.slots.size < UInt32.size

section

variable {notInherited : List Symbol} {start flat : Catalog}

theorem Partly.descends_iff (h : Partly notInherited start flat) :
    flat.Descends id other ↔ Relation.ReflTransGen start.HasParent id other := by
  rw [← h.hasParent_eq]
  rfl

namespace Inherited

variable (h : Inherited notInherited start flat) (orderly : start.Orderly)

include h orderly

section

variable {origin view view' : ClassId} (inside : origin.index < start.classes.size)

include inside

theorem lt_size_of_descends (descends : flat.Descends origin view) :
    view.index < start.classes.size := by
  have lineage := (h.get_eq orderly.unflattened inside).1
  exact lineage.lt_size orderly.unflattened inside view
    (lineage.mem_of_descends (h.descends_iff.mp descends))

/-- The way of an ancestor is the end of the way, behind the classes that are below it. -/
theorem exists_hierarchy_eq (descends : flat.Descends origin view) :
    ∃ below, start.hierarchy origin = below ++ start.hierarchy view ∧
      ∀ other, other ∈ below ↔
        flat.Descends origin other ∧ flat.Descends other view ∧ other ≠ view := by
  have lineage := (h.get_eq orderly.unflattened inside).1
  have within := h.lt_size_of_descends orderly inside descends
  have way := (h.get_eq orderly.unflattened within).1
  obtain ⟨below, above, whole, rest⟩ :=
    lineage.exists_append (lineage.mem_of_descends (h.descends_iff.mp descends))
  rw [rest.eq_of_lineage way] at whole
  refine ⟨below, whole, fun other => ?_⟩
  simp only [h.descends_iff]
  have distinct := lineage.nodup
  rw [whole, List.nodup_append] at distinct
  have last : view ∈ start.hierarchy view := way.mem_of_descends .refl
  constructor
  · intro member
    have listed : other ∈ start.hierarchy origin := whole ▸ List.mem_append_left _ member
    have apart : other ≠ view := fun same => distinct.2.2 other member view last same
    refine ⟨lineage.descends_of_mem listed, ?_, apart⟩
    have listed' : view ∈ start.hierarchy origin := whole ▸ List.mem_append_right _ last
    rcases lineage.above_or_above listed listed' with same | ⟨_, way', higher⟩ | ⟨_, way', higher⟩
    · exact absurd same apart
    · exact way'.descends_of_mem (List.mem_cons_of_mem _ higher)
    · rw [way.eq_of_lineage way'] at distinct
      exact absurd rfl (distinct.2.2 other member other (List.mem_cons_of_mem _ higher))
  · rintro ⟨below_origin, above_view, apart⟩
    have listed := lineage.mem_of_descends below_origin
    rw [whole] at listed
    rcases List.mem_append.mp listed with member | higher
    · exact member
    · -- A class above the view that descends from it would be its own ancestor.
      rcases Relation.reflTransGen_iff_eq_or_transGen.mp above_view with same | strictly
      · exact absurd same.symm apart
      · exact absurd (strictly.trans_right (way.descends_of_mem higher)) way.not_transGen

end

/-- An object of a class has the slots of an object of its parent, and those of its own fields. -/
theorem count_of_hasParent {parent : ClassId} (next : start.HasParent id parent) :
    (flat.get id).instanceFieldCount =
      (start.get id).instanceFieldCount + (flat.get parent).instanceFieldCount := by
  have lineage := (h.get_eq orderly.unflattened (orderly.resolved id parent next)).1
  rw [h.get_of_lineage orderly.unflattened (.child next lineage) next.lt_size,
    h.get_of_lineage orderly.unflattened lineage (orderly.resolved id parent next)]
  obtain ⟨rest, first⟩ := lineage.exists_cons
  rw [first]
  rfl

variable (fit : flat.SlotsFit)

include fit

theorem instanceSizes_lt (lineage : start.Lineage id chain)
    (inside : id.index < start.classes.size) :
    sizes false (chain.map start.get) < UInt32.size := by
  have count (id : ClassId) : (start.get id).ownSize false < UInt32.size := by
    rw [← (orderly.each id).instances]
    exact UInt32.toNat_lt _
  induction lineage with
  | @root id none =>
      rw [List.map_singleton, sizes_cons]
      exact count id
  | @child id parent above next lineage ih =>
      have inside' := orderly.resolved id parent next
      have fewer := fit.instances id parent ((h.kept id).1.trans next)
      have higher := toNat_instanceFieldCount_merged notInherited
        (orderly.unflattened.alone_of_mem above) (ih inside')
      rw [← h.get_of_lineage orderly.unflattened lineage inside'] at higher
      -- The count of the class would be less than that of its parent if the sum had wrapped around.
      rw [UInt32.le_iff_toNat_le, h.count_of_hasParent orderly next, UInt32.toNat_add, higher,
        (orderly.each id).instances] at fewer
      have own := count id
      have small := ih inside'
      rw [List.map_cons, sizes_cons]
      simp only [UInt32.size] at own small ⊢
      omega

/-- The room that a class needs can be counted. -/
theorem sizes_lt (lineage : start.Lineage id chain) (inside : id.index < start.classes.size)
    (isStatic : Bool) : sizes isStatic (chain.map start.get) < UInt32.size := by
  cases isStatic with
  | true =>
      rw [← size_statics_merged notInherited (orderly.unflattened.alone_of_mem chain),
        ← h.get_of_lineage orderly.unflattened lineage inside]
      apply fit.statics
      rw [get, Array.getD_eq_getD_getElem?, Array.getElem?_eq_getElem (h.size ▸ inside)]
      exact Array.getElem_mem _
  | false => exact h.instanceSizes_lt orderly fit lineage inside

theorem field?_eq (inside : id.index < start.classes.size) (name : Symbol) :
    ((flat.get id).field? name).map (fun field => (field.isStatic, field.slot.toNat)) =
      nearestField? name ((start.hierarchy id).map start.get) := by
  obtain ⟨lineage, made⟩ := h.get_eq orderly.unflattened inside
  rw [made]
  exact field?_merged notInherited (orderly.unflattened.alone_of_mem _)
    (h.sizes_lt orderly fit lineage inside) name

variable {origin view view' : ClassId} (inside : origin.index < start.classes.size)

include inside

/-- A field of an ancestor has the slot that the class gives it that declares it. -/
theorem exists_places (descends : flat.Descends origin view) {name : Symbol} {field : FieldSlot}
    (found : (flat.get view).field? name = some field) :
    ∃ owner ∈ start.hierarchy origin, start.owner? name view = some owner ∧
      start.Places owner name field.isStatic field.slot.toNat := by
  have within := h.lt_size_of_descends orderly inside descends
  have lineage := (h.get_eq orderly.unflattened inside).1
  have above := h.descends_iff.mp descends
  have nearest := h.field?_eq orderly fit within name
  rw [found, Option.map_some] at nearest
  obtain ⟨owner, member, first, places⟩ :=
    (h.get_eq orderly.unflattened within).1.exists_places nearest.symm
  have higher := (h.get_eq orderly.unflattened within).1.descends_of_mem member
  exact ⟨owner, lineage.mem_of_descends (above.trans higher), first, places⟩

/-- Two fields of a class and its ancestors have one slot if and only if they are one field. -/
theorem slot_eq_iff (plain : ∀ other, flat.Descends origin other → (flat.get other).facade = none)
    (descends : flat.Descends origin view) (descends' : flat.Descends origin view')
    {name name' : Symbol} {field field' : FieldSlot}
    (found : (flat.get view).field? name = some field)
    (found' : (flat.get view').field? name' = some field')
    (kind : field.isStatic = field'.isStatic) :
    field.slot = field'.slot ↔
      name = name' ∧ start.owner? name view = start.owner? name' view' := by
  obtain ⟨owner, member, own, places⟩ := h.exists_places orderly fit inside descends found
  obtain ⟨owner', member', own', places'⟩ := h.exists_places orderly fit inside descends' found'
  have lineage := (h.get_eq orderly.unflattened inside).1
  rw [own, own', Option.some.injEq]
  rw [← kind] at places'
  constructor
  · intro same
    rw [← same] at places'
    have each : ∀ other ∈ start.hierarchy origin, (start.get other).facade = none := by
      intro other member
      rw [← (h.kept other).2]
      exact plain other (h.descends_iff.mpr (lineage.descends_of_mem member))
    exact (places.eq_of_slot_eq places' orderly lineage member member' each).symm
  · rintro ⟨rfl, rfl⟩
    exact UInt32.toNat_inj.mp (places.slot_eq places')

/-- A field that is not declared again below an ancestor is the one that the ancestor has. -/
theorem field?_eq_of_undeclared (descends : flat.Descends origin view) {name : Symbol}
    (undeclared : ∀ other, flat.Descends origin other → flat.Descends other view → other ≠ view →
      (start.get other).field? name = none) :
    (flat.get origin).field? name = (flat.get view).field? name := by
  have within := h.lt_size_of_descends orderly inside descends
  obtain ⟨below, whole, mem_below⟩ := h.exists_hierarchy_eq orderly inside descends
  have nearest := h.field?_eq orderly fit inside name
  rw [whole, List.map_append, nearestField?_append, ← h.field?_eq orderly fit within] at nearest
  · refine Option.map_injective (fun field field' same => ?_) nearest
    obtain ⟨slot, isStatic⟩ := field
    obtain ⟨slot', isStatic'⟩ := field'
    obtain ⟨kind, number⟩ := Prod.mk.injEq .. ▸ same
    rw [FieldSlot.mk.injEq]
    exact ⟨UInt32.toNat_inj.mp number, kind⟩
  · intro info member
    obtain ⟨other, listed, rfl⟩ := List.mem_map.mp member
    obtain ⟨above, beneath, apart⟩ := (mem_below other).mp listed
    exact undeclared other above beneath apart

omit fit in
theorem owner?_ne_of_declared (descends : flat.Descends origin view) {name : Symbol}
    {other : ClassId} (above : flat.Descends origin other) (beneath : flat.Descends other view)
    (apart : other ≠ view) (declared : (start.get other).field? name ≠ none) :
    start.owner? name origin ≠ start.owner? name view := by
  obtain ⟨below, whole, mem_below⟩ := h.exists_hierarchy_eq orderly inside descends
  have distinct := (h.get_eq orderly.unflattened inside).1.nodup
  have here : (below.find? fun other => ((start.get other).field? name).isSome).isSome :=
    List.find?_isSome.mpr ⟨other, (mem_below other).mpr ⟨above, beneath, apart⟩,
      Option.isSome_iff_ne_none.mpr declared⟩
  obtain ⟨owner, found⟩ := Option.isSome_iff_exists.mp here
  have own : start.owner? name origin = some owner := by
    rw [owner?, whole, List.find?_append, found, Option.some_or]
  rw [whole, List.nodup_append] at distinct
  rw [own]
  intro same
  exact distinct.2.2 owner (List.mem_of_find?_eq_some found) owner
    (List.mem_of_find?_eq_some same.symm) rfl

/-- The slots of a class are numbers from 1 to those of its storage. -/
theorem slot_within {name : Symbol} {field : FieldSlot}
    (plain : ∀ other, flat.Descends origin other → (flat.get other).facade = none)
    (found : (flat.get origin).field? name = some field) :
    field.slot ≠ 0 ∧ field.slot.toNat ≤ if field.isStatic then
      (flat.get origin).statics.slots.size else (flat.get origin).instanceFieldCount.toNat := by
  obtain ⟨lineage, made⟩ := h.get_eq orderly.unflattened inside
  have alone := orderly.unflattened.alone_of_mem (start.hierarchy origin)
  obtain ⟨owner, member, -, places⟩ := h.exists_places orderly fit inside .refl found
  constructor
  · obtain ⟨above, own, -, declares, -, slot⟩ := places
    have native : (start.get owner).facade = none := by
      rw [← (h.kept owner).2]
      exact plain owner (h.descends_iff.mpr (lineage.descends_of_mem member))
    have nonzero := ((orderly.each owner).numbered native).positive name own declares
    intro zero
    rw [zero] at slot
    exact nonzero (UInt32.toNat_inj.mp (Nat.eq_zero_of_add_eq_zero_right slot.symm))
  · obtain ⟨-, rest, -, way⟩ := lineage.exists_append member
    have within := Nat.le_trans (places.le_sizes way) (lineage.sizes_le member way field.isStatic)
    cases kind : field.isStatic with
    | true =>
        rw [kind] at within
        rw [if_pos rfl, made, size_statics_merged notInherited alone]
        exact within
    | false =>
        rw [kind] at within
        rw [if_neg Bool.false_ne_true, made, toNat_instanceFieldCount_merged notInherited alone
          (h.sizes_lt orderly fit lineage inside false)]
        exact within

end Inherited

end

end Catalog

end ObjectMachine
