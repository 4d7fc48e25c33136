import Mathlib.Logic.Relation
import ObjectMachine.Proofs.Program.Declarations

/-!
# Field slots along inheritance

Linking leaves the slots of a class's instance fields among those that the class counts, and a class
counts at least those of its parent, unless counts are so great that their sum does not fit in a
word. Native classes are outside of all this: they neither have a parent nor are one.
-/

namespace ObjectMachine

namespace ClassDef

/-- Whether the slots of the instance fields are among those that a class counts. -/
def Tight (info : ClassDef) : Prop :=
  ∀ entry ∈ info.fields, entry.2.isStatic = false → entry.2.slot ≤ info.instanceFieldCount

def Blank (info : ClassDef) : Prop :=
  ∀ value ∈ info.statics.slots, value = .null

variable {info parent : ClassDef}

/-- Room for a field is all that a declaration changes apart from the fields. -/
theorem reserve_kept (part : ClassDef → α) (kept : ∀ info slots count,
    part { info with
      statics := { info.statics with slots }, instanceFieldCount := count } = part info)
    (info : ClassDef) (field : FieldSlot) : part (info.reserve field) = part info := by
  unfold reserve
  split
  · exact kept info _ info.instanceFieldCount
  · exact kept info info.statics.slots _

theorem Blank.reserve (h : info.Blank) (field : FieldSlot) : (info.reserve field).Blank := by
  unfold ClassDef.reserve
  split
  · intro value member
    rcases Array.mem_append.mp member with old | new
    · exact h value old
    · exact (Array.mem_replicate.mp new).2
  · exact h

theorem Blank.inherit (h : info.Blank) (parent : ClassDef) (notInherited : List Symbol) :
    (info.inherit parent notInherited).Blank := by
  intro value member
  rcases Array.mem_append.mp member with new | old
  · exact (Array.mem_replicate.mp new).2
  · exact h value old

theorem Tight.declare (h : info.Tight) (name : Symbol) (field : FieldSlot) :
    (reserve { info with fields := putEntry info.fields name field } field).Tight := by
  unfold reserve
  split
  · next static =>
      intro entry member own
      rcases mem_putEntry member with old | rfl
      · exact h entry old own
      · simp [static] at own
  · next =>
      have greater : max info.instanceFieldCount field.slot =
          if info.instanceFieldCount ≤ field.slot then field.slot
          else info.instanceFieldCount := rfl
      intro entry member own
      show entry.2.slot ≤ max info.instanceFieldCount field.slot
      rw [greater]
      rcases mem_putEntry member with old | rfl
      · have within := h entry old own
        split <;> grind
      · split <;> grind

/-- Own fields are moved by as much as a class grows, which is less than a word holds. -/
theorem Tight.inherit (h : info.Tight) (hp : parent.Tight) (notInherited : List Symbol)
    (grows : parent.instanceFieldCount ≤ (info.inherit parent notInherited).instanceFieldCount) :
    (info.inherit parent notInherited).Tight := by
  have total : (info.inherit parent notInherited).instanceFieldCount =
      info.instanceFieldCount + parent.instanceFieldCount := rfl
  intro entry member own
  rcases List.mem_append.mp member with moved | inherited
  · obtain ⟨⟨name, field⟩, listed, rfl⟩ := List.mem_map.mp moved
    have here : field.isStatic = false := own
    have within := h _ listed here
    rw [total] at grows ⊢
    show (shifted parent field).slot ≤ _
    have slot : (shifted parent field).slot = field.slot + parent.instanceFieldCount := by
      simp [shifted, here]
    rw [slot]
    simp only [UInt32.le_iff_toNat_le, UInt32.toNat_add] at *
    have bound := info.instanceFieldCount.toNat_lt
    have bound' := parent.instanceFieldCount.toNat_lt
    omega
  · have within := hp entry (List.mem_of_mem_filter inherited) own
    exact UInt32.le_trans within grows

end ClassDef

namespace Catalog

/-! ## Classes by number -/

theorem get_of_size_le {catalog : Catalog} {id : ClassId} (h : catalog.classes.size ≤ id.index) :
    catalog.get id = default := by
  simp [get, Array.getD_eq_getD_getElem?, h]

theorem get_push (catalog : Catalog) (info : ClassDef) (id : ClassId) :
    get ⟨catalog.classes.push info⟩ id =
      if id.index = catalog.classes.size then info else catalog.get id := by
  simp only [get, Array.getD_eq_getD_getElem?, Array.getElem?_push]
  split <;> rfl

theorem get_modify_self {catalog : Catalog} {id : ClassId}
    (inside : id.index < catalog.classes.size) (change : ClassDef → ClassDef) :
    (catalog.modify id change).get id = change (catalog.get id) := by
  simp [get, modify, Array.getD_eq_getD_getElem?, inside, Array.getElem_modify_self]

theorem get_modify_of_ne {catalog : Catalog} {id other : ClassId} (h : id ≠ other)
    (change : ClassDef → ClassDef) : (catalog.modify id change).get other = catalog.get other := by
  have apart : id.index ≠ other.index := fun same => h (congrArg ClassId.mk same)
  simp [get, modify, Array.getD_eq_getD_getElem?, Array.getElem?_modify, apart]

theorem size_modify (catalog : Catalog) (id : ClassId) (change : ClassDef → ClassDef) :
    (catalog.modify id change).classes.size = catalog.classes.size := by
  simp [modify]

theorem get_map {catalog : Catalog} {change : ClassDef → ClassDef} (same : change default = default)
    (id : ClassId) : get ⟨catalog.classes.map change⟩ id = change (catalog.get id) := by
  simp only [get, Array.getD_eq_getD_getElem?, Array.getElem?_map]
  cases catalog.classes[id.index]? with
  | none => exact same.symm
  | some info => rfl

/-! ## Layouts -/

def Descends (catalog : Catalog) : ClassId → ClassId → Prop :=
  Relation.ReflTransGen fun id parent => (catalog.get id).parent = some parent

theorem descends_of_mem_hierarchyOnto {catalog : Catalog} {origin id other : ClassId} {bound : Nat}
    {chain : List ClassId} (descends : catalog.Descends origin id)
    (each : ∀ known ∈ chain, catalog.Descends origin known)
    (member : other ∈ catalog.hierarchyOnto bound id chain) : catalog.Descends origin other := by
  induction bound generalizing id chain with
  | zero => exact each other (List.mem_reverse.mp member)
  | succ bound ih =>
      unfold hierarchyOnto at member
      split at member
      · exact each other (List.mem_reverse.mp member)
      · next parent above =>
          split at member
          · exact each other (List.mem_reverse.mp member)
          · have onward := Relation.ReflTransGen.tail descends above
            exact ih onward (List.forall_mem_cons.mpr ⟨onward, each⟩) member

/-- What `instanceof` finds to be an ancestor is one. -/
theorem descends_of_isSubclass {catalog : Catalog} {id ancestor : ClassId}
    (h : catalog.isSubclass id ancestor = true) : catalog.Descends id ancestor := by
  apply descends_of_mem_hierarchyOnto .refl _ (List.contains_iff_mem.mp h)
  intro known member
  rw [List.mem_singleton.mp member]
  exact .refl

/-- Whether every class counts at least the instance fields of its parent: their sum with its own
ones fits in a word. -/
def Grows (catalog : Catalog) : Prop :=
  ∀ id parent, (catalog.get id).parent = some parent →
    (catalog.get parent).instanceFieldCount ≤ (catalog.get id).instanceFieldCount

instance (catalog : Catalog) : Decidable catalog.Grows :=
  decidable_of_iff (∀ info ∈ catalog.classes, ∀ parent ∈ info.parent,
      (catalog.get parent).instanceFieldCount ≤ info.instanceFieldCount) <| by
    constructor
    · intro each id parent above
      unfold get at above ⊢
      rw [Array.getD_eq_getD_getElem?] at above
      rw [Array.getD_eq_getD_getElem? (i := id.index)]
      cases found : catalog.classes[id.index]? with
      | none =>
          rw [found] at above
          cases above
      | some info =>
          rw [found] at above
          exact each info (Array.mem_of_getElem? found) parent above
    · intro grows info member parent above
      obtain ⟨place, found⟩ := Array.getElem?_of_mem member
      have same : catalog.get ⟨place⟩ = info := by
        simp [get, Array.getD_eq_getD_getElem?, found]
      rw [← same] at above ⊢
      exact grows _ parent above

/-- Whether the native classes among those of a catalog are given ones, and have no part in
inheritance; no static field has a value yet. -/
structure Parts (facades : List Facade) (catalog : Catalog) : Prop where
  blank : ∀ id, (catalog.get id).Blank
  native : ∀ id, ∀ facade ∈ (catalog.get id).facade, facade ∈ facades
  parents : ∀ id parent, (catalog.get id).parent = some parent →
    parent.index < catalog.classes.size ∧ (catalog.get id).facade = none ∧
      (catalog.get parent).facade = none

/-- What holds of the classes before any has the members of its parent. -/
structure Drafted (facades : List Facade) (catalog : Catalog) : Prop
    extends Parts facades catalog where
  tight : ∀ id, (catalog.get id).Tight
  unexpanded : ∀ id, (catalog.get id).expanded = false

/-- What holds of the classes while they are given the members of their parents. -/
structure Layered (facades : List Facade) (catalog : Catalog) : Prop
    extends Parts facades catalog where
  below : ∀ id parent, (catalog.get id).expanded = true → (catalog.get id).parent = some parent →
    (catalog.get parent).expanded = true
  tight : (∀ id parent, (catalog.get id).expanded = true → (catalog.get id).parent = some parent →
      (catalog.get parent).instanceFieldCount ≤ (catalog.get id).instanceFieldCount) →
    ∀ id, (catalog.get id).Tight

/-- Whether instances of all classes have room for the fields of every ancestor. -/
structure Laid (facades : List Facade) (catalog : Catalog) : Prop
    extends Parts facades catalog where
  tight : ∀ id, (catalog.get id).Tight
  grows : catalog.Grows

variable {facades : List Facade} {catalog : Catalog}

theorem Drafted.layered (h : catalog.Drafted facades) : catalog.Layered facades where
  toParts := h.toParts
  below := by
    intro id parent expanded
    simp [h.unexpanded] at expanded
  tight _ := h.tight

theorem Layered.laid (h : catalog.Layered facades) (grows : catalog.Grows) :
    catalog.Laid facades where
  toParts := h.toParts
  tight := h.tight fun id parent _ => grows id parent
  grows := grows

namespace Laid

variable {origin view : ClassId}

theorem count_le (h : catalog.Laid facades) (descends : catalog.Descends origin view) :
    (catalog.get view).instanceFieldCount ≤ (catalog.get origin).instanceFieldCount := by
  induction descends with
  | refl => exact UInt32.le_refl _
  | tail _ parent ih => exact UInt32.le_trans (h.grows _ _ parent) ih

theorem eq_of_native (h : catalog.Laid facades) {facade : Facade}
    (native : (catalog.get origin).facade = some facade)
    (descends : catalog.Descends origin view) : view = origin := by
  induction descends with
  | refl => rfl
  | tail _ parent ih =>
      subst ih
      have none := (h.parents _ _ parent).2.1
      rw [native] at none
      cases none

end Laid

/-! ## Flattening -/

section

variable (notInherited : List Symbol) {id : ClassId}

theorem get_expand_of_ne {other : ClassId} (h : id ≠ other) :
    (catalog.expand notInherited id).get other = catalog.get other :=
  get_modify_of_ne h _

theorem get_expand_of_parent (inside : id.index < catalog.classes.size) {parent : ClassId}
    (own : (catalog.get id).parent = some parent) :
    (catalog.expand notInherited id).get id =
      { (catalog.get id).inherit (catalog.get parent) notInherited with expanded := true } := by
  rw [expand, get_modify_self inside, own]

theorem get_expand_of_root (inside : id.index < catalog.classes.size)
    (own : (catalog.get id).parent = none) :
    (catalog.expand notInherited id).get id = { catalog.get id with expanded := true } := by
  rw [expand, get_modify_self inside]
  split
  · next parent found => cases own.symm.trans found
  · rfl

theorem expanded_expand (inside : id.index < catalog.classes.size) :
    ((catalog.expand notInherited id).get id).expanded = true := by
  cases own : (catalog.get id).parent with
  | none => rw [get_expand_of_root notInherited inside own]
  | some parent => rw [get_expand_of_parent notInherited inside own]

theorem expand_kept (inside : id.index < catalog.classes.size) (other : ClassId) :
    ((catalog.expand notInherited id).get other).parent = (catalog.get other).parent ∧
      ((catalog.expand notInherited id).get other).facade = (catalog.get other).facade := by
  by_cases same : id = other
  · subst same
    cases own : (catalog.get id).parent with
    | none =>
        rw [get_expand_of_root notInherited inside own]
        exact ⟨own, rfl⟩
    | some parent =>
        rw [get_expand_of_parent notInherited inside own]
        exact ⟨own, rfl⟩
  · rw [get_expand_of_ne notInherited same]
    exact ⟨rfl, rfl⟩

theorem Parts.expand (h : catalog.Parts facades) (inside : id.index < catalog.classes.size) :
    (catalog.expand notInherited id).Parts facades where
  blank other := by
    by_cases same : id = other
    · subst same
      cases own : (catalog.get id).parent with
      | none =>
          rw [get_expand_of_root notInherited inside own]
          exact h.blank id
      | some parent =>
          rw [get_expand_of_parent notInherited inside own]
          exact (h.blank id).inherit _ notInherited
    · rw [get_expand_of_ne notInherited same]
      exact h.blank other
  native other := by
    rw [(expand_kept notInherited inside other).2]
    exact h.native other
  parents other parent own := by
    rw [(expand_kept notInherited inside other).1] at own
    rw [(expand_kept notInherited inside other).2, (expand_kept notInherited inside parent).2]
    refine ⟨?_, (h.parents other parent own).2⟩
    rw [Catalog.expand, size_modify]
    exact (h.parents other parent own).1

/-- A class may be given the members of its parent once this one has its own. -/
theorem Layered.expand (h : catalog.Layered facades) (inside : id.index < catalog.classes.size)
    (unexpanded : (catalog.get id).expanded = false)
    (above : ∀ parent, (catalog.get id).parent = some parent →
      (catalog.get parent).expanded = true) :
    (catalog.expand notInherited id).Layered facades := by
  -- A class that has been expanded before has a parent that is not expanded now.
  have apart {other parent : ClassId} (before : (catalog.get other).expanded = true)
      (own : (catalog.get other).parent = some parent) : id ≠ other ∧ id ≠ parent := by
    have higher := h.below other parent before own
    constructor
    · rintro rfl
      simp [unexpanded] at before
    · rintro rfl
      simp [unexpanded] at higher
  refine ⟨h.toParts.expand notInherited inside, ?_, ?_⟩
  · intro other parent before own
    rw [(expand_kept notInherited inside other).1] at own
    by_cases same : id = parent
    · subst same
      exact expanded_expand notInherited inside
    · rw [get_expand_of_ne notInherited same]
      by_cases self : id = other
      · subst self
        exact above parent own
      · rw [get_expand_of_ne notInherited self] at before
        exact h.below other parent before own
  · intro grows
    have tight : ∀ other, (catalog.get other).Tight := by
      apply h.tight
      intro other parent before own
      have more := grows other parent
      rw [get_expand_of_ne notInherited (apart before own).1,
        get_expand_of_ne notInherited (apart before own).2] at more
      exact more before own
    intro other
    by_cases same : id = other
    · subst same
      cases own : (catalog.get id).parent with
      | none =>
          rw [get_expand_of_root notInherited inside own]
          exact tight id
      | some parent =>
          have ne : id ≠ parent := by
            rintro rfl
            have higher := above id own
            simp [unexpanded] at higher
          have more := grows id parent (expanded_expand notInherited inside)
          rw [get_expand_of_ne notInherited ne,
            get_expand_of_parent notInherited inside own] at more
          rw [get_expand_of_parent notInherited inside own]
          exact (tight id).inherit (tight parent) notInherited (more own)
    · rw [get_expand_of_ne notInherited same]
      exact tight other

end

/-- What holds of the classes while one after the other is expanded and some wait for others. -/
structure Flattened (facades : List Facade) (start : Catalog) (waiting : List ClassId)
    (catalog : Catalog) : Prop extends Layered facades catalog where
  size : catalog.classes.size = start.classes.size
  parent : ∀ id, (catalog.get id).parent = (start.get id).parent
  waits : ∀ id ∈ waiting, (catalog.get id).expanded = false

theorem Flattened.expand {start : Catalog} {waiting : List ClassId} {id : ClassId}
    (h : Flattened facades start (id :: waiting) catalog) (inside : id.index < start.classes.size)
    (fresh : id ∉ waiting)
    (above : ∀ parent, (start.get id).parent = some parent → (catalog.get parent).expanded = true)
    (notInherited : List Symbol) :
    Flattened facades start waiting (catalog.expand notInherited id) ∧
      ((catalog.expand notInherited id).get id).expanded = true := by
  rw [← h.size] at inside
  refine ⟨⟨?_, ?_, ?_, ?_⟩, expanded_expand notInherited inside⟩
  · apply h.toLayered.expand notInherited inside (h.waits id List.mem_cons_self)
    intro parent own
    exact above parent (h.parent id ▸ own)
  · rw [Catalog.expand, size_modify, h.size]
  · intro other
    rw [(expand_kept notInherited inside other).1, h.parent]
  · intro other member
    have ne : id ≠ other := by
      rintro rfl
      exact fresh member
    rw [get_expand_of_ne notInherited ne]
    exact h.waits other (List.mem_cons_of_mem _ member)

/-- A class is expanded after its ancestors, and those that wait for it are left as they are. -/
theorem leads_flatten {start : Catalog} (parts : start.Parts facades) (notInherited : List Symbol)
    (bound : Nat) (waiting : List ClassId) (id : ClassId)
    (inside : id.index < start.classes.size) :
    Leads (Flattened facades start waiting) (fun _ => True)
      (fun _ catalog => Flattened facades start waiting catalog ∧
        (catalog.get id).expanded = true)
      (flatten notInherited bound waiting id) := by
  induction bound generalizing waiting id with
  | zero => exact Leads.of_get_bind fun _ _ => Leads.of_throw trivial
  | succ bound ih =>
      refine Leads.of_get_bind fun catalog before => ?_
      dsimp only
      split
      · next expanded =>
          apply Leads.of_pure
          rintro _ rfl
          exact ⟨before, expanded⟩
      · next unexpanded =>
          split
          · exact Leads.of_throw trivial
          · next fresh =>
              have fresh : id ∉ waiting := by simpa using fresh
              have waits : Flattened facades start (id :: waiting) catalog := by
                refine { before with waits := ?_ }
                simpa using ⟨by simpa using unexpanded, before.waits⟩
              split
              · next parent own =>
                  rw [before.parent] at own
                  have first := ih (id :: waiting) parent (parts.parents id parent own).1
                  apply Leads.bind (Leads.of_start _ (by rintro _ rfl; exact waits) first)
                  intro _
                  apply Leads.of_modifyGet
                  intro middle reached
                  apply reached.1.expand inside fresh
                  intro root same
                  cases own.symm.trans same
                  exact reached.2
              · next own =>
                  rw [before.parent] at own
                  apply Leads.of_modifyGet
                  rintro _ rfl
                  apply waits.expand inside fresh
                  intro root same
                  exact absurd same (own root)

theorem leads_flattenAll (symbols : SymbolTable) :
    Leads (Drafted facades) (fun _ => True) (fun _ => Layered facades) (flattenAll symbols) := by
  refine Leads.of_get_bind fun start drafted => ?_
  have begins : Flattened facades start [] start := ⟨drafted.layered, rfl, fun _ => rfl, by simp⟩
  have all : Upheld (Flattened facades start []) (fun _ => True) (fun _ => True)
      (start.ids.forM (flatten ([constructorName, initializerName].filterMap symbols.find?)
        (start.classes.size + 1) [])) := by
    apply Upheld.of_forM
    intro id member
    have inside : id.index < start.classes.size := by
      simp [ids] at member
      grind
    exact (leads_flatten drafted.toParts _ _ [] id inside).mono fun _ _ reached =>
      ⟨trivial, reached.1⟩
  exact Leads.of_start _ (by rintro _ rfl; exact begins) (Leads.mono all fun _ _ reached =>
    reached.2.toLayered)

end Catalog

/-! ## Linking -/

/-- What holds of a class until it is registered. -/
structure ClassDef.Bare (facades : List Facade) (info : ClassDef) : Prop where
  blank : info.Blank
  tight : info.Tight
  parent : info.parent = none
  unexpanded : info.expanded = false
  native : ∀ facade ∈ info.facade, facade ∈ facades

namespace ClassDef.Bare

variable {facades : List Facade}

theorem new (name moduleName : String) (moduleId : ModuleId) :
    (ClassDef.new name moduleName moduleId).Bare facades where
  blank := by
    intro value member
    simp [ClassDef.new] at member
  tight := by
    intro entry member
    cases member
  parent := rfl
  unexpanded := rfl
  native := by
    intro facade found
    cases found

theorem withMethods {info : ClassDef} (h : info.Bare facades)
    (methods : List (MethodKey × MethodEntry)) : ClassDef.Bare facades { info with methods } :=
  ⟨h.blank, h.tight, h.parent, h.unexpanded, h.native⟩

theorem withField {info : ClassDef} (h : info.Bare facades) (name : Symbol) (slot : FieldSlot) :
    (info.withField name slot).Bare facades := by
  have blank : ClassDef.Blank { info with fields := putEntry info.fields name slot } := h.blank
  refine ⟨blank.reserve slot, h.tight.declare name slot, ?_, ?_, ?_⟩
  · exact (ClassDef.reserve_kept ClassDef.parent (fun _ _ _ => rfl) _ slot).trans h.parent
  · exact (ClassDef.reserve_kept ClassDef.expanded (fun _ _ _ => rfl) _ slot).trans h.unexpanded
  · intro native found
    rw [ClassDef.withField, ClassDef.reserve_kept ClassDef.facade fun _ _ _ => rfl] at found
    exact h.native native found

end ClassDef.Bare

namespace Catalog

variable {facades : List Facade} {catalog : Catalog}

theorem drafted_empty : Catalog.empty.Drafted facades := by
  have none (id : ClassId) : Catalog.empty.get id = default := get_of_size_le (Nat.zero_le _)
  refine ⟨⟨?_, ?_, ?_⟩, ?_, ?_⟩
  · intro id value member
    have empty : (default : ClassDef).statics.slots = #[] := rfl
    rw [none, empty] at member
    simp at member
  · intro id facade found
    rw [none] at found
    cases found
  · intro id parent own
    rw [none] at own
    cases own
  · intro id entry member
    rw [none] at member
    cases member
  · intro id
    rw [none]
    rfl

theorem Drafted.push (h : catalog.Drafted facades) {info : ClassDef} (bare : info.Bare facades) :
    Drafted facades ⟨catalog.classes.push info⟩ := by
  refine ⟨⟨?_, ?_, ?_⟩, ?_, ?_⟩
  · intro id
    rw [get_push]
    split
    · exact bare.blank
    · exact h.blank id
  · intro id
    rw [get_push]
    split
    · exact bare.native
    · exact h.native id
  · intro id parent own
    rw [get_push] at own
    split at own
    · rw [bare.parent] at own
      cases own
    · next old =>
        obtain ⟨inside, plain, above⟩ := h.parents id parent own
        rw [get_push, get_push, if_neg old, if_neg (Nat.ne_of_lt inside), Array.size_push]
        exact ⟨Nat.lt_succ_of_lt inside, plain, above⟩
  · intro id
    rw [get_push]
    split
    · exact bare.tight
    · exact h.tight id
  · intro id
    rw [get_push]
    split
    · exact bare.unexpanded
    · exact h.unexpanded id

/-- A class that is not native may have another such class as its parent. -/
theorem Drafted.setParent (h : catalog.Drafted facades) {id parent : ClassId}
    (inside : parent.index < catalog.classes.size) (plain : (catalog.get id).facade = none)
    (above : (catalog.get parent).facade = none) :
    (catalog.modify id fun info => { info with parent := some parent }).Drafted facades := by
  by_cases known : id.index < catalog.classes.size
  · have self := get_modify_self known fun info => { info with parent := some parent }
    have facade (other : ClassId) :
        ((catalog.modify id fun info => { info with parent := some parent }).get other).facade =
          (catalog.get other).facade := by
      by_cases same : id = other
      · subst same
        rw [self]
      · rw [get_modify_of_ne same]
    refine ⟨⟨?_, ?_, ?_⟩, ?_, ?_⟩
    · intro other
      by_cases same : id = other
      · subst same
        rw [self]
        exact h.blank id
      · rw [get_modify_of_ne same]
        exact h.blank other
    · intro other
      rw [facade]
      exact h.native other
    · intro other root own
      rw [facade, facade, size_modify]
      by_cases same : id = other
      · subst same
        rw [self] at own
        cases own
        exact ⟨inside, plain, above⟩
      · rw [get_modify_of_ne same] at own
        exact h.parents other root own
    · intro other
      by_cases same : id = other
      · subst same
        rw [self]
        exact h.tight id
      · rw [get_modify_of_ne same]
        exact h.tight other
    · intro other
      by_cases same : id = other
      · subst same
        rw [self]
        exact h.unexpanded id
      · rw [get_modify_of_ne same]
        exact h.unexpanded other
  · have same : (catalog.modify id fun info => { info with parent := some parent }) = catalog := by
      obtain ⟨classes⟩ := catalog
      simp only [modify, mk.injEq]
      apply Array.ext_getElem?
      intro place
      rw [Array.getElem?_modify]
      split
      · next here =>
          subst here
          rw [Array.getElem?_eq_none (Nat.not_lt.mp known), Option.map_none]
      · rfl
    rw [same]
    exact h

theorem Drafted.relocate (h : catalog.Drafted facades)
    (moved : MethodKey × MethodEntry → MethodKey × MethodEntry) :
    Drafted facades
      ⟨catalog.classes.map fun info => { info with methods := info.methods.map moved }⟩ := by
  let change (info : ClassDef) : ClassDef := { info with methods := info.methods.map moved }
  have each (id : ClassId) : get ⟨catalog.classes.map change⟩ id = change (catalog.get id) :=
    get_map rfl id
  refine ⟨⟨?_, ?_, ?_⟩, ?_, ?_⟩
  · intro id
    rw [each]
    exact h.blank id
  · intro id
    rw [each]
    exact h.native id
  · intro id parent own
    rw [each] at own
    rw [each, each, Array.size_map]
    exact h.parents id parent own
  · intro id
    rw [each]
    exact h.tight id
  · intro id
    rw [each]
    exact h.unexpanded id

theorem lt_of_find? {qualified : String} {id : ClassId} (h : catalog.find? qualified = some id) :
    id.index < catalog.classes.size := by
  obtain ⟨place, found, rfl⟩ := Option.map_eq_some_iff.mp h
  exact (Array.findIdx?_eq_some_iff_findIdx_eq.mp found).1

end Catalog

namespace Link

theorem mem_of_withoutRepeats {candidates : List (String × ClassId)} :
    ∀ candidate ∈ withoutRepeats candidates, candidate ∈ candidates := by
  fun_induction withoutRepeats candidates with
  | case1 first second rest same ih => simp_all; grind
  | case2 first second rest other ih => simp_all
  | case3 short => simp

theorem lt_of_resolveClass {catalog : Catalog} {moduleName name : String} {uses : List String}
    {id : ClassId} (h : resolveClass catalog moduleName uses name = .ok id) :
    id.index < catalog.classes.size := by
  unfold resolveClass at h
  split at h
  · next found =>
      cases h
      rcases Option.or_eq_some_iff.mp found with known | ⟨-, known⟩
      · exact Catalog.lt_of_find? known
      · exact Catalog.lt_of_find? known
  · dsimp only at h
    split at h
    · cases h
    · next qualified only single =>
        cases h
        have member := mem_of_withoutRepeats (qualified, id) (by rw [single]; simp)
        obtain ⟨used, -, candidate⟩ := List.mem_filterMap.mp member
        obtain ⟨_, known, same⟩ := Option.map_eq_some_iff.mp candidate
        cases same
        exact Catalog.lt_of_find? known
    · cases h

section

variable {facades : List Facade}

/-- Whether a part of linking keeps what holds of the classes before flattening. -/
abbrev Drafts (facades : List Facade) (step : Link α) : Prop :=
  Upheld (fun linkage => linkage.catalog.Drafted facades) (fun _ => True) (fun _ => True) step

theorem drafts_intern (name : String) : Drafts facades (intern name) :=
  Upheld.of_modifyGet fun _ drafted => ⟨trivial, drafted⟩

/-- A class that can be registered still can be with more members. -/
theorem builds_bare : Builds facades fun info linkage =>
    info.Bare facades ∧ linkage.catalog.Drafted facades where
  names _ := id
  field slot _ ready := ⟨ready.1.withField _ slot, ready.2⟩
  methods methods ready := ⟨ready.1.withMethods methods, ready.2⟩
  native := by
    rintro info linkage facade given ⟨⟨blank, tight, parent, unexpanded, -⟩, drafted⟩
    refine ⟨⟨blank, tight, parent, unexpanded, ?_⟩, drafted⟩
    rintro _ ⟨⟩
    exact given

theorem leads_register (info : ClassDef) :
    Leads (fun linkage => info.Bare facades ∧ linkage.catalog.Drafted facades) (fun _ => True)
      (fun _ linkage => True ∧ linkage.catalog.Drafted facades)
      (inCatalog (Catalog.register info)) := by
  apply leads_inCatalog
  intro linkage start
  apply Leads.of_get_bind
  rintro _ rfl
  split
  · exact Leads.of_throw_bind trivial
  · exact fun _ _ => ⟨trivial, start.2.push start.1⟩

theorem drafts_registerClass (moduleName : String) (moduleId : ModuleId) (base : Nat)
    (info : ClassInfo) :
    Drafts facades (registerClass facades moduleName moduleId base info) :=
  builds_bare.registerClass moduleName moduleId base info
    (fun _ drafted => ⟨ClassDef.Bare.new _ _ _, drafted⟩) leads_register

theorem drafts_registerEnum (moduleName : String) (moduleId : ModuleId) (info : EnumInfo) :
    Drafts facades (registerEnum moduleName moduleId info) := by
  intro linkage drafted
  refine ((builds_bare.declareFields (.new info.name moduleName moduleId) _ true).bind
    fun complete => ?_) linkage ⟨ClassDef.Bare.new _ _ _, drafted⟩
  refine Leads.of_get_bind fun linkage start => ?_
  apply Leads.of_start _ _ (leads_register _)
  rintro _ rfl
  obtain ⟨⟨blank, tight, parent, unexpanded, native⟩, drafted⟩ := start
  exact ⟨⟨blank, tight, parent, unexpanded, native⟩, drafted⟩

theorem drafts_registerUnit (moduleId : ModuleId) (base : Nat) (view : Metadata) :
    Drafts facades (registerUnit facades moduleId base view) := by
  refine (Upheld.of_mapM (R := fun _ _ => True) fun info _ => ?_).bind fun _ _ =>
    (Upheld.of_forM fun info _ => ?_).bind fun _ _ => Upheld.of_pure trivial
  · exact (drafts_registerClass _ _ _ info).bind fun _ _ => Upheld.of_pure trivial
  · exact (drafts_registerEnum _ _ info).bind fun _ _ => Upheld.of_pure trivial

theorem leads_resolve (view : Metadata) (name : String) :
    Leads (fun linkage => linkage.catalog.Drafted facades) (fun _ => True)
      (fun id linkage => id.index < linkage.catalog.classes.size ∧
        linkage.catalog.Drafted facades) (resolve view name) := by
  refine Leads.of_get_bind fun linkage drafted => ?_
  split
  · next id found =>
      apply Leads.of_pure
      rintro _ rfl
      exact ⟨lt_of_resolveClass found, drafted⟩
  · exact Leads.of_throw trivial

theorem drafts_resolve (view : Metadata) (name : String) : Drafts facades (resolve view name) :=
  Leads.mono (leads_resolve view name) fun _ _ reached => ⟨trivial, reached.2⟩

theorem drafts_setParent (view : Metadata) (id : ClassId) (parentName : String) :
    Drafts facades (setParent view id parentName) := by
  refine (leads_resolve view parentName).bind fun parent => Leads.of_get_bind ?_
  rintro linkage ⟨inside, drafted⟩
  dsimp only
  split
  · exact Leads.of_throw_bind trivial
  · next plain =>
      simp only [Bool.or_eq_true, Option.isSome_iff_ne_none, not_or, not_not] at plain
      rintro _ rfl
      exact ⟨trivial, drafted.setParent inside plain.1 plain.2⟩

theorem drafts_moduleRecord (view : Metadata) : Drafts facades (moduleRecord view) := by
  refine (Upheld.of_mapM (R := fun _ _ => True) fun name _ => ?_).bind fun _ _ =>
    (Upheld.of_mapM (R := fun _ _ => True) fun name _ => ?_).bind fun _ _ =>
      (Upheld.of_mapM (R := fun _ _ => True) fun method _ => ?_).bind fun _ _ =>
        Upheld.of_pure trivial
  · exact drafts_resolve view name
  · exact drafts_intern name
  · exact (drafts_intern method.name).bind fun _ _ => Upheld.of_pure trivial

theorem drafts_findMain (mainModule : String) : Drafts facades (findMain mainModule) := by
  refine (drafts_intern _).bind fun name _ => Upheld.of_get.bind fun linkage _ => ?_
  dsimp only
  split
  · exact Upheld.of_pure trivial
  · exact Upheld.of_throw trivial

theorem drafts_assemble (units : List LoadedUnit) : Drafts facades (assemble facades units) := by
  refine (Upheld.of_mapM (R := fun _ _ => True) fun place _ => ?_).bind fun children _ =>
    (Upheld.of_forM fun child _ => ?_).bind fun _ _ =>
      (Upheld.of_mapM (R := fun _ _ => True) fun unit _ => ?_).bind fun records _ =>
        (drafts_findMain _).bind fun main _ => Upheld.of_pure trivial
  · exact (drafts_registerUnit _ _ _).bind fun _ _ => Upheld.of_pure trivial
  · exact drafts_setParent child.1 child.2.1 child.2.2
  · exact drafts_moduleRecord unit.view

theorem drafts_shrinkSegment (code : Bytes) (entry : Nat) :
    Drafts facades (shrinkSegment code entry) := by
  refine Upheld.of_get.bind fun linkage _ => ?_
  dsimp only
  split
  · exact Upheld.of_throw trivial
  · exact (Upheld.of_modify fun _ drafted => drafted.relocate _).bind fun _ _ =>
      Upheld.of_pure trivial

theorem leads_complete (assembly : Assembly) (code : Bytes) (entry : Nat) :
    Leads (fun linkage => linkage.catalog.Drafted facades) (fun _ => True)
      (fun program _ => program.catalog.Layered facades) (complete assembly code entry) := by
  refine Leads.of_get_bind fun linkage drafted => ?_
  have flattens : Leads (· = linkage) (fun _ => True)
      (fun _ linkage => linkage.catalog.Layered facades)
      (inCatalog (Catalog.flattenAll linkage.symbols)) := by
    apply leads_inCatalog
    rintro _ rfl
    exact Leads.of_start _ (fun _ same => same ▸ drafted) (Catalog.leads_flattenAll _)
  refine flattens.bind fun _ => Leads.of_get_bind fun last layered => ?_
  exact Leads.of_pure fun _ _ => layered

end

end Link

/-- **Layouts grow along inheritance.** In a linked program whose counts of fields do not overflow,
instances of every class have room for the fields of all its ancestors, and native classes have no
part in inheritance. -/
theorem Program.laid_of_link {facades : List Facade} {optimize : Bool} {units : List LoadedUnit}
    {program : Program} (linked : link facades optimize units = .ok program)
    (grows : program.catalog.Grows) : program.catalog.Laid facades := by
  have layered : program.catalog.Layered facades :=
    Program.of_link
      (Leads.mono (Link.drafts_assemble units) fun _ _ => And.right)
      (fun _ => Link.drafts_shrinkSegment) Link.leads_complete Catalog.drafted_empty linked
  exact layered.laid grows

end ObjectMachine
