import ObjectMachine.Proofs.Program.Slots

/-!
# Freshly linked programs

Nothing has been initialized in a program that has just been linked. Its enumerations have a static
field for each constant, which are numbered in order; an enumeration has no parent, so that
flattening does not move them. All tables refer to classes that there are.
-/

namespace ObjectMachine

namespace ClassDef

/-- Whether the constants of an enumeration have static fields that are numbered in order. -/
def Enumerates (info : ClassDef) : Prop :=
  ∀ place name value, info.enumValues[place]? = some (name, value) →
    info.field? name = some ⟨UInt32.ofNat (place + 1), true⟩

/-- What holds of a class when a program has been linked. -/
structure Fresh (info : ClassDef) : Prop where
  uninitialized : info.statics.initialized = false
  enumerates : info.Enumerates
  root : info.enumValues ≠ [] → info.parent = none

structure Plain (info : ClassDef) : Prop where
  uninitialized : info.statics.initialized = false
  enumValues : info.enumValues = []

variable {info : ClassDef}

theorem Plain.fresh (h : info.Plain) : info.Fresh where
  uninitialized := h.uninitialized
  enumerates place name value listed := by
    rw [h.enumValues] at listed
    cases listed
  root some := absurd h.enumValues some

theorem Plain.withField (h : info.Plain) (name : Symbol) (slot : FieldSlot) :
    (info.withField name slot).Plain where
  uninitialized :=
    (reserve_kept (·.statics.initialized) (fun _ _ _ => rfl) _ slot).trans h.uninitialized
  enumValues := (reserve_kept ClassDef.enumValues (fun _ _ _ => rfl) _ slot).trans h.enumValues

/-- The members of a parent change nothing about a class that is no enumeration. -/
theorem Fresh.expand (h : info.Fresh) {parent : ClassDef} (notInherited : List Symbol)
    (above : info.parent ≠ none) :
    Fresh { info.inherit parent notInherited with expanded := true } := by
  have plain : info.enumValues = [] := by
    by_contra some
    exact above (h.root some)
  exact Plain.fresh ⟨h.uninitialized, plain⟩

end ClassDef

/-! ## Entries -/

section

variable [BEq κ] [LawfulBEq κ] {entries : List (κ × ν)} {key : κ}

theorem putEntry_of_lookup_eq_none (new : entries.lookup key = none) (value : ν) :
    putEntry entries key value = entries ++ [(key, value)] := by
  have apart : entries.any (·.1 == key) = false := by
    rw [List.lookup_eq_none_iff] at new
    rw [List.any_eq_false]
    intro entry member same
    exact bne_iff_ne.mp (new entry member) (eq_of_beq same).symm
  rw [putEntry, apart, if_neg (by decide)]

theorem lookup_putEntry_self (new : entries.lookup key = none) (value : ν) :
    (putEntry entries key value).lookup key = some value := by
  rw [putEntry_of_lookup_eq_none new, List.lookup_append, new]
  simp

theorem lookup_putEntry_of_some (new : entries.lookup key = none) {other : κ} {found : ν}
    (h : entries.lookup other = some found) (value : ν) :
    (putEntry entries key value).lookup other = some found := by
  rw [putEntry_of_lookup_eq_none new, List.lookup_append, h, Option.some_or]

end

/-! ## Catalogs -/

/-- What holds of the classes while a program is linked, some of them not being enumerations. -/
structure Catalog.Fresh (plain : List ClassId) (catalog : Catalog) : Prop where
  each : ∀ id, (catalog.get id).Fresh
  plain : ∀ id ∈ plain,
    id.index < catalog.classes.size ∧ (catalog.get id).enumValues = []

namespace Catalog.Fresh

variable {plain : List ClassId} {catalog : Catalog}

theorem empty : Catalog.empty.Fresh [] where
  each id := by
    have none : Catalog.empty.get id = default := get_of_size_le (Nat.zero_le _)
    rw [none]
    exact ClassDef.Plain.fresh ⟨rfl, rfl⟩
  plain := nofun

theorem mono (h : catalog.Fresh plain) {fewer : List ClassId} (among : fewer ⊆ plain) :
    catalog.Fresh fewer :=
  ⟨h.each, fun id member => h.plain id (among member)⟩

theorem push (h : catalog.Fresh plain) {info : ClassDef} (fresh : info.Fresh) :
    Fresh plain ⟨catalog.classes.push info⟩ where
  each id := by
    rw [get_push]
    split
    · exact fresh
    · exact h.each id
  plain id member := by
    obtain ⟨inside, none⟩ := h.plain id member
    rw [get_push, if_neg (Nat.ne_of_lt inside), Array.size_push]
    exact ⟨Nat.lt_succ_of_lt inside, none⟩

theorem push_plain (h : catalog.Fresh plain) {info : ClassDef} (new : info.Plain) :
    Fresh (plain ++ [⟨catalog.classes.size⟩]) ⟨catalog.classes.push info⟩ where
  each := (h.push new.fresh).each
  plain id member := by
    rcases List.mem_append.mp member with old | last
    · exact (h.push new.fresh).plain id old
    · obtain rfl := List.mem_singleton.mp last
      rw [get_push, if_pos rfl, Array.size_push]
      exact ⟨Nat.lt_succ_self _, new.enumValues⟩

theorem setParent (h : catalog.Fresh plain) {id : ClassId} (member : id ∈ plain)
    (parent : ClassId) :
    (catalog.modify id fun info => { info with parent := some parent }).Fresh plain := by
  obtain ⟨inside, none⟩ := h.plain id member
  have self := get_modify_self inside fun info => { info with parent := some parent }
  refine ⟨fun other => ?_, fun other known => ?_⟩
  · by_cases same : id = other
    · subst same
      rw [self]
      exact ClassDef.Plain.fresh ⟨(h.each id).uninitialized, none⟩
    · rw [get_modify_of_ne same]
      exact h.each other
  · obtain ⟨within, empty⟩ := h.plain other known
    rw [size_modify]
    refine ⟨within, ?_⟩
    by_cases same : id = other
    · subst same
      rw [self]
      exact empty
    · rw [get_modify_of_ne same]
      exact empty

theorem relocate (h : catalog.Fresh [])
    (moved : MethodKey × MethodEntry → MethodKey × MethodEntry) :
    Fresh [] ⟨catalog.classes.map fun info => { info with methods := info.methods.map moved }⟩ where
  each id := by
    let change (info : ClassDef) : ClassDef := { info with methods := info.methods.map moved }
    have same : get ⟨catalog.classes.map change⟩ id = change (catalog.get id) := get_map rfl id
    rw [same]
    obtain ⟨uninitialized, enumerates, root⟩ := h.each id
    exact ⟨uninitialized, enumerates, root⟩
  plain := nofun

theorem expand (h : catalog.Fresh []) (notInherited : List Symbol) (id : ClassId) :
    (catalog.expand notInherited id).Fresh [] where
  each other := by
    by_cases same : id = other
    · subst same
      by_cases inside : id.index < catalog.classes.size
      · cases own : (catalog.get id).parent with
        | none =>
            rw [get_expand_of_root notInherited inside own]
            obtain ⟨uninitialized, enumerates, root⟩ := h.each id
            exact ⟨uninitialized, enumerates, root⟩
        | some parent =>
            rw [get_expand_of_parent notInherited inside own]
            exact (h.each id).expand notInherited (own ▸ Option.some_ne_none parent)
      · rw [get_of_size_le (by rw [Catalog.expand, size_modify]; exact Nat.le_of_not_lt inside)]
        exact ClassDef.Plain.fresh ⟨rfl, rfl⟩
    · rw [get_expand_of_ne notInherited same]
      exact h.each other
  plain := nofun

end Catalog.Fresh

/-! ## Registering -/

namespace Link

variable {facades : List Facade} {plain : List ClassId}

theorem builds_plain : Builds facades fun info linkage =>
    info.Plain ∧ linkage.catalog.Fresh plain where
  names _ := id
  field slot _ ready := ⟨ready.1.withField _ slot, ready.2⟩
  methods _ ready := ⟨⟨ready.1.uninitialized, ready.1.enumValues⟩, ready.2⟩
  native _ _ ready := ⟨⟨ready.1.uninitialized, ready.1.enumValues⟩, ready.2⟩

theorem leads_registerPlain (moduleName : String) (moduleId : ModuleId) (base : Nat)
    (info : ClassInfo) :
    Leads (fun linkage => linkage.catalog.Fresh plain) (fun _ => True)
      (fun id linkage => linkage.catalog.Fresh (plain ++ [id]))
      (registerClass facades moduleName moduleId base info) := by
  refine builds_plain.registerClass moduleName moduleId base info
    (fun _ fresh => ⟨⟨rfl, rfl⟩, fresh⟩) fun complete => ?_
  refine leads_inCatalog fun linkage ready => ?_
  apply Leads.of_get_bind
  rintro _ rfl
  split
  · exact Leads.of_throw_bind trivial
  · exact fun _ _ => ready.2.push_plain ready.1

end Link

/-! ## Enumerations -/

/-- Whether a class that is being declared has static fields of some names, numbered in order. -/
structure ClassDef.Carries (names : List String) (info : ClassDef) (linkage : Linkage) : Prop where
  uninitialized : info.statics.initialized = false
  root : info.parent = none
  numbered : ∀ place name, names[place]? = some name → ∃ symbol,
    linkage.symbols.find? name = some symbol ∧
      info.field? symbol = some ⟨UInt32.ofNat (place + 1), true⟩

/-- One more field has the next number. -/
theorem ClassDef.Carries.snoc {names : List String} {info : ClassDef} {linkage : Linkage}
    (h : info.Carries names linkage) {name : String}
    (new : info.field? (linkage.symbols.intern name).1 = none) :
    (info.withField (linkage.symbols.intern name).1
      ⟨UInt32.ofNat (names.length + 1), true⟩).Carries (names ++ [name])
      { linkage with symbols := (linkage.symbols.intern name).2 } := by
  have known := linkage.symbols.find?_intern_self name
  generalize (linkage.symbols.intern name).1 = symbol at new known ⊢
  generalize number : (⟨UInt32.ofNat (names.length + 1), true⟩ : FieldSlot) = slot
  have field (other : Symbol) : (info.withField symbol slot).field? other =
      (putEntry info.fields symbol slot).lookup other :=
    reserve_kept (·.field? other) (fun _ _ _ => rfl) _ slot
  refine ⟨(reserve_kept (·.statics.initialized) (fun _ _ _ => rfl) _ slot).trans h.uninitialized,
    (reserve_kept ClassDef.parent (fun _ _ _ => rfl) _ slot).trans h.root,
    fun place other listed => ?_⟩
  rcases Nat.lt_or_ge place names.length with before | behind
  · rw [List.getElem?_append_left before] at listed
    obtain ⟨old, seen, found⟩ := h.numbered place other listed
    refine ⟨old, SymbolTable.find?_intern_of_some seen name, ?_⟩
    rw [field]
    exact lookup_putEntry_of_some new found slot
  · have last : place = names.length := by
      have inside := (List.getElem?_eq_some_iff.mp listed).1
      rw [List.length_append, List.length_singleton] at inside
      omega
    subst last
    rw [List.getElem?_concat_length] at listed
    obtain rfl := Option.some.inj listed
    refine ⟨symbol, known, ?_⟩
    rw [field, number]
    exact lookup_putEntry_self new slot

theorem getElem?_filterMap_of_isSome {f : α → Option β} {items : List α}
    (h : ∀ item ∈ items, (f item).isSome) (place : Nat) :
    (items.filterMap f)[place]? = items[place]?.bind f := by
  induction items generalizing place with
  | nil => rfl
  | cons item rest ih =>
      obtain ⟨first, others⟩ := List.forall_mem_cons.mp h
      obtain ⟨result, made⟩ := Option.isSome_iff_exists.mp first
      rw [List.filterMap_cons_some made]
      cases place with
      | zero => simp [made]
      | succ place => simpa using ih others place

/-- The constants are listed under the numbers of their names. -/
theorem ClassDef.Carries.fresh {info : EnumInfo} {complete : ClassDef} {linkage : Linkage}
    (h : complete.Carries (info.members.map (·.1)) linkage) :
    ClassDef.Fresh { complete with enumValues := info.members.filterMap fun (name, value) =>
      (linkage.symbols.find? name).map fun symbol => (symbol, value) } where
  uninitialized := h.uninitialized
  root _ := h.root
  enumerates := by
    have known : ∀ member ∈ info.members,
        ((linkage.symbols.find? member.1).map fun symbol => (symbol, member.2)).isSome := by
      intro member among
      obtain ⟨place, found⟩ := List.getElem?_of_mem among
      obtain ⟨symbol, seen, -⟩ := h.numbered place member.1 (by rw [List.getElem?_map, found]; rfl)
      rw [seen]
      rfl
    intro place symbol value listed
    change (info.members.filterMap _)[place]? = _ at listed
    rw [getElem?_filterMap_of_isSome known] at listed
    obtain ⟨⟨name, _⟩, found, same⟩ := Option.bind_eq_some_iff.mp listed
    obtain ⟨other, seen, field⟩ := h.numbered place name (by rw [List.getElem?_map, found]; rfl)
    rw [seen] at same
    cases same
    exact field

namespace Link

variable {plain : List ClassId}

theorem leads_declareStatics (before names : List String) (info : ClassDef) :
    Leads (fun linkage => info.Carries before linkage ∧ linkage.catalog.Fresh plain)
      (fun _ => True)
      (fun info linkage => info.Carries (before ++ names) linkage ∧ linkage.catalog.Fresh plain)
      ((names.zipIdx (before.length + 1)).foldlM
        (fun info (name, slot) => declareField info name ⟨UInt32.ofNat slot, true⟩) info) := by
  induction names generalizing before info with
  | nil =>
      refine Leads.of_pure fun linkage ready => ?_
      rwa [List.append_nil]
  | cons name rest ih =>
      rw [List.zipIdx_cons, List.foldlM_cons]
      have first : Leads (fun linkage => info.Carries before linkage ∧ linkage.catalog.Fresh plain)
          (fun _ => True) (fun info linkage =>
            info.Carries (before ++ [name]) linkage ∧ linkage.catalog.Fresh plain)
          (declareField info name ⟨UInt32.ofNat (before.length + 1), true⟩) :=
        leads_declareField fun _ ready new => ⟨ready.1.snoc new, ready.2⟩
      refine first.bind fun next => ?_
      have others := ih (before ++ [name]) next
      rwa [List.length_append, List.length_singleton, List.append_assoc] at others

theorem leads_registerEnum (moduleName : String) (moduleId : ModuleId) (info : EnumInfo) :
    Leads (fun linkage => linkage.catalog.Fresh plain) (fun _ => True)
      (fun _ linkage => linkage.catalog.Fresh plain)
      (registerEnum moduleName moduleId info) := by
  have declares : Leads (fun linkage => linkage.catalog.Fresh plain) (fun _ => True)
      (fun complete linkage => complete.Carries (info.members.map (·.1)) linkage ∧
        linkage.catalog.Fresh plain)
      (declareFields (.new info.name moduleName moduleId) (info.members.map (·.1)) true) := by
    refine Leads.of_start _ (fun linkage fresh => ⟨⟨rfl, rfl, ?_⟩, fresh⟩)
      (leads_declareStatics [] (info.members.map (·.1)) _)
    exact fun _ _ none => absurd none (by simp)
  refine declares.bind fun complete => Leads.of_get_bind fun linkage ready => ?_
  obtain ⟨carries, fresh⟩ := ready
  apply leads_inCatalog
  rintro _ rfl
  apply Leads.of_get_bind
  rintro _ rfl
  split
  · exact Leads.of_throw_bind trivial
  · exact fun _ _ => fresh.push carries.fresh

/-! ## Units -/

theorem leads_registerClasses (facades : List Facade) (moduleId : ModuleId) (base : Nat)
    (view : Metadata) :
    Leads (fun linkage => linkage.catalog.Fresh plain) (fun _ => True)
      (fun children linkage => linkage.catalog.Fresh (plain ++ children.map (·.1)))
      (registerUnit facades moduleId base view) := by
  have registers : Leads (fun linkage => linkage.catalog.Fresh plain) (fun _ => True)
      (fun children linkage =>
        linkage.catalog.Fresh (plain ++ (children.filterMap id).map (·.1)))
      (view.classes.toList.mapM fun info => do
        let id ← registerClass facades view.moduleName moduleId base info
        pure (info.parent.map fun parent => (id, parent))) := by
    refine Leads.of_start _ (fun linkage fresh => ?_) (Leads.of_mapM fun info _ children => ?_)
    · exact fresh.mono (by simp)
    · refine (leads_registerPlain _ _ _ info).bind fun id => Leads.of_pure fun linkage fresh => ?_
      refine fresh.mono ?_
      cases info.parent <;> simp
  refine registers.bind fun children => ?_
  have enums : Upheld
      (fun linkage => linkage.catalog.Fresh (plain ++ (children.filterMap id).map (·.1)))
      (fun _ => True) (fun _ => True) (view.enums.toList.forM fun info => do
        let _ ← registerEnum view.moduleName moduleId info) :=
    Upheld.of_forM fun info _ => (leads_registerEnum view.moduleName moduleId info).bind
      fun _ => Leads.of_pure fun _ fresh => ⟨trivial, fresh⟩
  exact Leads.bind enums fun _ => Leads.of_pure fun _ fresh => fresh.2

/-- Only classes of which it is known that they are no enumerations are given parents. -/
theorem keeps_setParent (view : Metadata) {id : ClassId} (member : id ∈ plain)
    (parentName : String) :
    Upheld (fun linkage => linkage.catalog.Fresh plain) (fun _ => True) (fun _ => True)
      (setParent view id parentName) := by
  have resolves : Upheld (fun linkage => linkage.catalog.Fresh plain) (fun _ => True)
      (fun _ => True) (resolve view parentName) := by
    refine Upheld.of_get.bind fun linkage _ => ?_
    split
    · exact Upheld.of_pure trivial
    · exact Upheld.of_throw trivial
  refine resolves.bind fun parent _ => Upheld.of_get.bind fun linkage _ => ?_
  dsimp only
  split
  · exact Upheld.of_throw_bind trivial
  · exact Upheld.of_modify fun _ fresh => fresh.setParent member parent

end Link

/-! ## References -/

/-- Whether all classes that a module refers to are among so many. -/
def ModuleRecord.Refers (size : Nat) (record : ModuleRecord) : Prop :=
  ∀ id ∈ record.classRefs, id.index < size

namespace Link

variable {catalog : Catalog}

abbrev Looks (catalog : Catalog) (answers : α → Prop) (step : Link α) : Prop :=
  Upheld (fun linkage => linkage.catalog = catalog) (fun _ => True) answers step

theorem looks_intern (name : String) : Looks catalog (fun _ => True) (intern name) :=
  Upheld.of_modifyGet fun _ same => ⟨trivial, same⟩

theorem looks_resolve (view : Metadata) (name : String) :
    Looks catalog (fun id => id.index < catalog.classes.size) (resolve view name) := by
  refine Upheld.of_get.bind fun linkage same => ?_
  split
  · next id found => exact Upheld.of_pure (same ▸ lt_of_resolveClass found)
  · exact Upheld.of_throw trivial

theorem looks_moduleRecord (view : Metadata) :
    Looks catalog (·.Refers catalog.classes.size) (moduleRecord view) := by
  refine (Upheld.of_mapM fun name _ => looks_resolve view name).bind fun classRefs inside =>
    (Upheld.of_mapM (R := fun _ _ => True) fun name _ => looks_intern name).bind fun _ _ =>
      (Upheld.of_mapM (R := fun _ _ => True) fun method _ => ?_).bind fun _ _ =>
        Upheld.of_pure ?_
  · exact (looks_intern method.name).bind fun _ _ => Upheld.of_pure trivial
  · intro id member
    obtain ⟨-, -, within⟩ := exists_of_mem_right inside (List.mem_toArray.mp member)
    exact within

theorem looks_findMain (mainModule : String) :
    Looks catalog (fun main => main.1.index < catalog.classes.size) (findMain mainModule) := by
  refine (looks_intern _).bind fun name _ => Upheld.of_get.bind fun linkage same => ?_
  subst same
  dsimp only
  split
  · next main found =>
      refine Upheld.of_pure ?_
      have listed {key : MethodKey} (h : ((linkage.catalog.ids.find? fun id =>
          offersMain (linkage.catalog.get id) key).map fun id => (id, key)) = some main) :
          main.1.index < linkage.catalog.classes.size := by
        obtain ⟨id, first, rfl⟩ := Option.map_eq_some_iff.mp h
        have member := List.mem_of_find?_eq_some first
        obtain ⟨place, inside, rfl⟩ := List.mem_map.mp member
        exact List.mem_range.mp inside
      rcases Option.or_eq_some_iff.mp found with one | ⟨-, zero⟩
      · exact listed one
      · exact listed zero
  · exact Upheld.of_throw trivial

end Link

/-! ## Programs -/

structure Program.Fresh (program : Program) : Prop where
  classes : ∀ id, (program.catalog.get id).Fresh
  references : ∀ record ∈ program.modules, record.Refers program.catalog.classes.size

namespace Link

/-- What is known of the classes and of the references once all units have been registered. -/
structure Assembly.Refers (assembly : Assembly) (catalog : Catalog) : Prop where
  fresh : catalog.Fresh []
  records : ∀ record ∈ assembly.records, record.Refers catalog.classes.size
  mainClass : assembly.mainClass.index < catalog.classes.size

theorem leads_assemble (facades : List Facade) (units : List LoadedUnit) :
    Leads (fun linkage => linkage.catalog.Fresh []) (fun _ => True)
      (fun assembly linkage => assembly.Refers linkage.catalog) (assemble facades units) := by
  refine Leads.bind (?_ : Leads _ _ (fun children linkage =>
    linkage.catalog.Fresh (children.flatten.map (·.2.1))) _) fun children => ?_
  · refine Leads.of_start _ (fun _ fresh => ?_) (Leads.of_mapM fun place _ before => ?_)
    · exact fresh
    refine (leads_registerClasses facades _ _ _).bind fun children =>
      Leads.of_pure fun _ fresh => ?_
    simpa [Function.comp_def] using fresh
  refine Leads.bind (Upheld.of_forM fun child member => ?_) fun _ => ?_
  · obtain ⟨view, id, parent⟩ := child
    exact keeps_setParent view (List.mem_map_of_mem member) parent
  · intro linkage fresh
    refine Leads.mono (?_ : Looks linkage.catalog (fun assembly : Assembly =>
        (∀ record ∈ assembly.records, record.Refers linkage.catalog.classes.size) ∧
          assembly.mainClass.index < linkage.catalog.classes.size) _)
      (fun assembly next reached => ?_) linkage rfl
    · refine (Upheld.of_mapM fun unit _ => looks_moduleRecord unit.view).bind fun records refer =>
        (looks_findMain _).bind fun main inside => Upheld.of_pure ⟨fun record member => ?_, inside⟩
      obtain ⟨-, -, within⟩ := exists_of_mem_right refer member
      exact within
    · obtain ⟨⟨records, mainClass⟩, same⟩ := reached
      rw [same]
      exact ⟨fresh.2.mono (List.nil_subset _), records, mainClass⟩

theorem keeps_shrinkSegment (assembly : Assembly) (code : Bytes) (entry : Nat) :
    Upheld (fun linkage => assembly.Refers linkage.catalog) (fun _ => True) (fun _ => True)
      (shrinkSegment code entry) := by
  refine Upheld.of_get.bind fun linkage _ => ?_
  dsimp only
  split
  · exact Upheld.of_throw trivial
  · refine (Upheld.of_modify fun linkage refers => ?_).bind fun _ _ => Upheld.of_pure trivial
    obtain ⟨fresh, records, mainClass⟩ := refers
    refine ⟨fresh.relocate _, ?_, ?_⟩
    · rwa [Array.size_map]
    · rwa [Array.size_map]

theorem leads_complete_fresh (assembly : Assembly) (code : Bytes) (entry : Nat) :
    Leads (fun linkage => assembly.Refers linkage.catalog) (fun _ => True)
      (fun program _ => program.Fresh) (complete assembly code entry) := by
  refine Leads.of_get_bind fun linkage refers => ?_
  have flattens : Upheld assembly.Refers (fun _ => True) (fun _ => True)
      (Catalog.flattenAll linkage.symbols) := by
    refine Catalog.upheld_flattenAll (fun _ => trivial) (fun {_} catalog id refers => ?_) _
    obtain ⟨fresh, records, mainClass⟩ := refers
    refine ⟨fresh.expand _ id, ?_, ?_⟩
    · rwa [Catalog.expand, Catalog.size_modify]
    · rwa [Catalog.expand, Catalog.size_modify]
  have flattened : Leads (· = linkage) (fun _ => True)
      (fun _ linkage => assembly.Refers linkage.catalog)
      (inCatalog (Catalog.flattenAll linkage.symbols)) := by
    apply leads_inCatalog
    rintro _ rfl
    exact Leads.of_start _ (fun _ same => same ▸ refers) (Leads.mono flattens fun _ _ => And.right)
  refine flattened.bind fun _ => Leads.of_get_bind fun last refers => Leads.of_pure ?_
  rintro _ rfl
  refine ⟨refers.fresh.each, fun record member => ?_⟩
  rcases List.mem_append.mp (List.mem_toArray.mp member) with own | entry
  · exact refers.records record own
  · obtain rfl := List.mem_singleton.mp entry
    intro id member
    obtain rfl := List.mem_singleton.mp (List.mem_toArray.mp member)
    exact refers.mainClass

end Link

/-- In a program that has just been linked nothing is initialized, and every reference is to a
class. -/
theorem Program.fresh_of_link {facades : List Facade} {optimize : Bool} {units : List LoadedUnit}
    {program : Program} (linked : link facades optimize units = .ok program) : program.Fresh :=
  Program.of_link (Link.leads_assemble facades units) Link.keeps_shrinkSegment
    Link.leads_complete_fresh Catalog.Fresh.empty linked

end ObjectMachine
