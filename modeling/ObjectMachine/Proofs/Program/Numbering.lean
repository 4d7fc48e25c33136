import ObjectMachine.Proofs.Compiled.Grammar
import ObjectMachine.Proofs.Program.Flattening

/-!
# Numbers of fields

The metadata of a unit number the fields of a class, those of each kind from 1 on, and linking
numbers the constants of an enumeration in the same way. So a class of a program is registered with
different slots for different fields. Native classes are none of this: nothing reads their slots.
-/

namespace ObjectMachine

/-! ## Classes -/

namespace ClassDef

/-- Whether fields have slots from 1 on, and those of different names have different ones. -/
structure Numbered (info : ClassDef) : Prop where
  positive : ∀ name field, info.field? name = some field → field.slot ≠ 0
  apart : ∀ name name' field, info.field? name = some field → info.field? name' = some field →
    name = name'

/-- Whether the fields that have been declared have taken their slots from a list, each another
one. -/
structure Takes (info : ClassDef) (slots : List FieldSlot) : Prop where
  among : ∀ name field, info.field? name = some field → field ∈ slots
  apart : ∀ name name' field, info.field? name = some field → info.field? name' = some field →
    name = name'

variable {info : ClassDef} {slots : List FieldSlot}

theorem field?_withField {name : Symbol} (fresh : info.field? name = none) (field : FieldSlot)
    (other : Symbol) : (info.withField name field).field? other =
      if other = name then some field else info.field? other := by
  have fields : (info.withField name field).field? other =
      (putEntry info.fields name field).lookup other :=
    reserve_kept (·.field? other) (fun _ _ _ => rfl) _ field
  rw [fields]
  split
  · next same => rw [same, lookup_putEntry_self fresh]
  · next apart =>
      have other : (other == name) = false := beq_eq_false_iff_ne.mpr apart
      rw [putEntry_of_lookup_eq_none fresh, List.lookup_append, List.lookup_cons, other,
        List.lookup_nil]
      exact Option.or_none

theorem takes_new (name moduleName : String) (moduleId : ModuleId) :
    (ClassDef.new name moduleName moduleId).Takes [] :=
  ⟨nofun, nofun⟩

/-- One more field takes a slot that none has. -/
theorem Takes.withField (h : info.Takes slots) {name : Symbol} (fresh : info.field? name = none)
    {field : FieldSlot} (new : field ∉ slots) :
    (info.withField name field).Takes (slots ++ [field]) := by
  refine ⟨fun other found member => ?_, fun other other' found member member' => ?_⟩
  · rw [field?_withField fresh] at member
    split at member
    · exact List.mem_append_right _ (List.mem_singleton.mpr (Option.some.inj member).symm)
    · exact List.mem_append_left _ (h.among other found member)
  · rw [field?_withField fresh] at member member'
    split at member
    · next here =>
        split at member'
        · next here' => rw [here, here']
        · cases member
          exact absurd (h.among other' field member') new
    · split at member'
      · cases member'
        exact absurd (h.among other field member) new
      · exact h.apart other other' found member member'

theorem Takes.numbered (h : info.Takes slots) (positive : ∀ field ∈ slots, field.slot ≠ 0) :
    info.Numbered :=
  ⟨fun name field member => positive field (h.among name field member), h.apart⟩

/-- What holds of every class of a program before any has inherited. -/
structure Orderly (info : ClassDef) : Prop extends Alone info where
  numbered : info.facade = none → info.Numbered

theorem orderly_default : (default : ClassDef).Orderly :=
  ⟨alone_default, fun _ => ⟨nofun, nofun⟩⟩

end ClassDef

/-- Whether a unit numbers the fields of every class that is not native, and the constants of an
enumeration can be numbered. -/
structure Metadata.Numbers (view : Metadata) : Prop where
  positive : ∀ info ∈ view.classes, ∀ field ∈ info.fields, field.number ≠ 0
  apart : ∀ info ∈ view.classes,
    (info.fields.toList.map fun field => FieldSlot.mk field.number field.isStatic).Nodup
  constants : ∀ info ∈ view.enums, info.members.length < UInt32.size

theorem nodup_slots {fields : List FieldHeader}
    (each : ∀ isStatic, ((fields.filter (·.isStatic == isStatic)).map (·.number)).Nodup) :
    (fields.map fun field => FieldSlot.mk field.number field.isStatic).Nodup := by
  have kind (isStatic : Bool) : fields.Pairwise fun field field' =>
      field.isStatic = isStatic → field'.isStatic = isStatic → field.number ≠ field'.number := by
    have apart := each isStatic
    rw [List.Nodup, List.pairwise_map, List.pairwise_filter] at apart
    simpa using apart
  rw [List.Nodup, List.pairwise_map]
  refine ((kind true).and (kind false)).imp ?_
  rintro field field' ⟨static, own⟩ same
  injection same with number isStatic
  cases here : field.isStatic with
  | true => exact static here (isStatic ▸ here) number
  | false => exact own here (isStatic ▸ here) number

open ClassHeader in
/-- Metadata are accepted only if the fields of a class have different numbers. -/
theorem Metadata.numbers_of_ofRecords {records : List MetaRecord} {view : Metadata}
    (read : ofRecords records = .ok view)
    (constants : ∀ info ∈ view.enums, info.members.length < UInt32.size) : view.Numbers := by
  obtain ⟨listing, -, closes, shows⟩ := ofRecords_eq_ok_iff.mp read
  have block {shown : ClassInfo} (member : shown ∈ view.classes) :
      ∃ header members, Fits header members ∧ shown = info header members := by
    rw [← Array.mem_toList_iff, shows.classes] at member
    obtain ⟨declaration, among, found⟩ := List.mem_filterMap.mp member
    cases declaration with
    | block header members =>
        exact ⟨header, members, (closes header members among).toFits,
          (Option.some.inj found).symm⟩
    | _ => cases found
  refine ⟨fun shown member field among => ?_, fun shown member => ?_, constants⟩
  · obtain ⟨header, members, fits, rfl⟩ := block member
    have own : field.number ∈ Member.fieldNumbers field.isStatic members :=
      List.mem_map_of_mem (List.mem_filter.mpr ⟨List.mem_toArray.mp among, beq_self_eq_true _⟩)
    exact ((fits.fields field.isStatic).range _ own).1
  · obtain ⟨header, members, fits, rfl⟩ := block member
    exact nodup_slots fun isStatic => (fits.fields isStatic).nodup

/-! ## Registering -/

/-- What holds of the classes while a program is linked, before any has inherited. -/
structure Catalog.Orderly (catalog : Catalog) : Prop where
  each : ∀ id, (catalog.get id).Orderly
  resolved : ∀ id parent, catalog.HasParent id parent → parent.index < catalog.classes.size

def Catalog.moveMethods (catalog : Catalog)
    (moved : MethodKey × MethodEntry → MethodKey × MethodEntry) : Catalog :=
  ⟨catalog.classes.map fun info => { info with methods := info.methods.map moved }⟩

theorem Catalog.get_moveMethods (catalog : Catalog)
    (moved : MethodKey × MethodEntry → MethodKey × MethodEntry) (id : ClassId) :
    (catalog.moveMethods moved).get id =
      { catalog.get id with methods := (catalog.get id).methods.map moved } := by
  have same : (fun info : ClassDef => { info with methods := info.methods.map moved }) default =
      default := rfl
  exact get_map same id

namespace Catalog.Orderly

variable {catalog : Catalog}

theorem unflattened (h : catalog.Orderly) : catalog.Unflattened :=
  ⟨fun id => (h.each id).toAlone, h.resolved⟩

theorem empty : Catalog.empty.Orderly := by
  have none (id : ClassId) : Catalog.empty.get id = default := get_of_size_le (Nat.zero_le _)
  refine ⟨fun id => ?_, fun id parent own => ?_⟩
  · rw [none]
    exact ClassDef.orderly_default
  · rw [HasParent, none] at own
    cases own

theorem push (h : catalog.Orderly) {info : ClassDef} (orderly : info.Orderly)
    (root : info.parent = none) : Orderly ⟨catalog.classes.push info⟩ := by
  refine ⟨fun id => ?_, fun id parent own => ?_⟩
  · rw [get_push]
    split
    · exact orderly
    · exact h.each id
  · rw [HasParent, get_push] at own
    split at own
    · rw [root] at own
      cases own
    · rw [Array.size_push]
      exact Nat.lt_succ_of_lt (h.resolved id parent own)

theorem setParent (h : catalog.Orderly) (id : ClassId) {parent : ClassId}
    (inside : parent.index < catalog.classes.size) :
    (catalog.modify id fun info => { info with parent := some parent }).Orderly := by
  have modified (other : ClassId) :
      (catalog.modify id fun info => { info with parent := some parent }).get other =
          { catalog.get other with parent := some parent } ∨
        (catalog.modify id fun info => { info with parent := some parent }).get other =
          catalog.get other := by
    by_cases same : id = other
    · subst same
      by_cases known : id.index < catalog.classes.size
      · exact .inl (get_modify_self known _)
      · right
        rw [get_of_size_le (Nat.le_of_not_lt known),
          get_of_size_le (by rw [size_modify]; exact Nat.le_of_not_lt known)]
    · exact .inr (get_modify_of_ne same _)
  refine ⟨fun other => ?_, fun other above own => ?_⟩
  · rcases modified other with changed | same
    · rw [changed]
      obtain ⟨⟨unexpanded, instances, statics⟩, numbered⟩ := h.each other
      refine ⟨⟨unexpanded, instances, statics⟩, fun plain => ?_⟩
      obtain ⟨positive, apart⟩ := numbered plain
      exact ⟨positive, apart⟩
    · rw [same]
      exact h.each other
  · rw [size_modify]
    rw [HasParent] at own
    rcases modified other with changed | same
    · rw [changed] at own
      cases own
      exact inside
    · rw [same] at own
      exact h.resolved other above own

theorem moveMethods (h : catalog.Orderly)
    (moved : MethodKey × MethodEntry → MethodKey × MethodEntry) :
    (catalog.moveMethods moved).Orderly := by
  refine ⟨fun id => ?_, fun id parent own => ?_⟩
  · rw [get_moveMethods]
    obtain ⟨⟨unexpanded, instances, statics⟩, numbered⟩ := h.each id
    refine ⟨⟨unexpanded, instances, statics⟩, fun plain => ?_⟩
    exact ⟨(numbered plain).positive, (numbered plain).apart⟩
  · rw [HasParent, get_moveMethods] at own
    rw [Catalog.moveMethods, Array.size_map]
    exact h.resolved id parent own

end Catalog.Orderly

/-- What holds of a class that is being declared, and of those that are registered. -/
structure ClassDef.Grows (info : ClassDef) (slots : List FieldSlot) (linkage : Linkage) : Prop where
  alone : info.Alone
  takes : info.Takes slots
  root : info.parent = none
  catalog : linkage.catalog.Orderly

/-- The same without what does not matter for native classes. -/
structure ClassDef.GrowsNative (info : ClassDef) (linkage : Linkage) : Prop where
  alone : info.Alone
  root : info.parent = none
  catalog : linkage.catalog.Orderly

namespace Link

variable {facades : List Facade}

/-- Whether a part of linking keeps what holds of the classes. -/
abbrev Orders (step : Link α) : Prop :=
  Upheld (fun linkage => linkage.catalog.Orderly) (fun _ => True) (fun _ => True) step

theorem leads_registerOrderly {info : ClassDef} :
    Leads (fun linkage => info.Orderly ∧ info.parent = none ∧ linkage.catalog.Orderly)
      (fun _ => True) (fun _ linkage => True ∧ linkage.catalog.Orderly)
      (inCatalog (Catalog.register info)) := by
  apply leads_inCatalog
  rintro linkage ⟨orderly, root, catalog⟩
  apply Leads.of_get_bind
  rintro _ rfl
  split
  · exact Leads.of_throw_bind trivial
  · exact fun _ _ => ⟨trivial, catalog.push orderly root⟩

theorem leads_declareEach (before : List FieldSlot) (fields : List (String × FieldSlot))
    (apart : (before ++ fields.map (·.2)).Nodup) (info : ClassDef) :
    Leads (info.Grows before) (fun _ => True)
      (fun info => info.Grows (before ++ fields.map (·.2)))
      (fields.foldlM (fun info (name, slot) => declareField info name slot) info) := by
  induction fields generalizing before info with
  | nil =>
      refine Leads.of_pure fun linkage grows => ?_
      rwa [List.map_nil, List.append_nil]
  | cons field rest ih =>
      obtain ⟨name, slot⟩ := field
      rw [List.map_cons, List.append_cons] at apart
      have new : slot ∉ before := by
        rw [List.append_assoc, List.nodup_append] at apart
        intro member
        exact apart.2.2 slot member slot (by simp) rfl
      rw [List.foldlM_cons]
      have first : Leads (info.Grows before) (fun _ => True)
          (fun info => info.Grows (before ++ [slot])) (declareField info name slot) := by
        refine leads_declareField fun linkage grows fresh => ?_
        refine ⟨grows.alone.withField fresh slot, grows.takes.withField fresh new, ?_,
          grows.catalog⟩
        exact (ClassDef.reserve_kept ClassDef.parent (fun _ _ _ => rfl) _ slot).trans grows.root
      refine first.bind fun next => ?_
      have others := ih (before ++ [slot]) apart next
      rwa [List.append_assoc] at others

theorem leads_declareMethodOnly (slots : List FieldSlot) (id : ClassId) (base : Nat)
    (info : ClassDef) (method : MethodInfo) :
    Leads (info.Grows slots) (fun _ => True) (fun info => info.Grows slots)
      (declareMethod id base info method) := by
  have interns : Leads (info.Grows slots) (fun _ => True) (fun _ => info.Grows slots)
      (intern method.header.name) :=
    Leads.of_modifyGet fun _ grows => ⟨grows.alone, grows.takes, grows.root, grows.catalog⟩
  refine interns.bind fun symbol => leads_declare fun linkage grows => ?_
  apply Leads.of_get_bind
  rintro _ rfl
  apply Leads.of_set_bind
  split
  · exact Leads.of_throw trivial
  · apply Leads.of_pure
    rintro _ rfl
    obtain ⟨⟨unexpanded, instances, statics⟩, ⟨among, apart⟩, root, catalog⟩ := grows
    exact ⟨⟨unexpanded, instances, statics⟩, ⟨among, apart⟩, root, catalog⟩

theorem builds_native : Builds facades ClassDef.GrowsNative where
  names _ grows := ⟨grows.alone, grows.root, grows.catalog⟩
  field slot fresh grows :=
    ⟨grows.alone.withField fresh slot,
      (ClassDef.reserve_kept ClassDef.parent (fun _ _ _ => rfl) _ slot).trans grows.root,
      grows.catalog⟩
  methods methods := by
    rintro ⟨⟨unexpanded, instances, statics⟩, root, catalog⟩
    exact ⟨⟨unexpanded, instances, statics⟩, root, catalog⟩
  native := by
    rintro info linkage facade - ⟨⟨unexpanded, instances, statics⟩, root, catalog⟩
    exact ⟨⟨unexpanded, instances, statics⟩, root, catalog⟩

theorem leads_declareNativeClass (info : ClassDef) (id : ClassId) (facade : Facade) :
    Leads info.GrowsNative (fun _ => True)
      (fun info linkage => info.GrowsNative linkage ∧ info.facade = some facade)
      (declareNative info id facade) := by
  have builds : Builds [facade] ClassDef.GrowsNative := builds_native
  refine (builds.declareFields info _ _).bind fun info => (builds.declareFields info _ _).bind
    fun info => (builds.declareNativeMethods info _ _ _).bind fun info =>
      (builds.declareNativeMethods info _ _ _).bind fun _ => Leads.of_pure fun _ grows => ?_
  exact ⟨builds.native facade List.mem_cons_self grows, rfl⟩

theorem orders_registerClass (moduleName : String) (moduleId : ModuleId) (base : Nat)
    {info : ClassInfo} (positive : ∀ field ∈ info.fields, field.number ≠ 0)
    (apart : (info.fields.toList.map fun field =>
      FieldSlot.mk field.number field.isStatic).Nodup) :
    Orders (registerClass facades moduleName moduleId base info) := by
  refine Leads.of_get_bind fun linkage orderly => ?_
  dsimp only
  split
  · split
    · next facade found =>
        refine Leads.of_start _ ?_ ((leads_declareNativeClass _ _ _).bind fun complete => ?_)
        · rintro _ rfl
          exact ⟨ClassDef.alone_new _ _ _, rfl, orderly⟩
        · refine Leads.of_start _ ?_ leads_registerOrderly
          rintro linkage ⟨grows, native⟩
          refine ⟨⟨grows.alone, fun plain => ?_⟩, grows.root, grows.catalog⟩
          rw [native] at plain
          cases plain
    · exact Leads.of_throw_bind trivial
  · let slot (field : FieldHeader) : String × FieldSlot :=
      (field.name, ⟨field.number, field.isStatic⟩)
    have slots : (info.fields.toList.map slot).map (·.2) =
        info.fields.toList.map fun field => FieldSlot.mk field.number field.isStatic := by
      rw [List.map_map]
      rfl
    have declares := leads_declareEach [] (info.fields.toList.map slot)
      (by rw [slots]; exact apart) (.new info.name moduleName moduleId)
    rw [List.foldlM_map, List.nil_append, slots] at declares
    refine Leads.of_start _ ?_ (declares.bind fun withFields =>
      (Leads.of_foldlM (fun method _ info => leads_declareMethodOnly _ _ base info method)
        withFields).bind fun complete => ?_)
    · rintro _ rfl
      exact ⟨ClassDef.alone_new _ _ _, ClassDef.takes_new _ _ _, rfl, orderly⟩
    · refine Leads.of_start _ (fun linkage grows => ?_) leads_registerOrderly
      refine ⟨⟨grows.alone, fun _ => grows.takes.numbered fun field member => ?_⟩, grows.root,
        grows.catalog⟩
      obtain ⟨header, among, rfl⟩ := List.mem_map.mp member
      exact positive header (Array.mem_toList_iff.mp among)

theorem toNat_ofNat_of_lt {number : Nat} (small : number < UInt32.size) :
    (UInt32.ofNat number).toNat = number := by
  rw [UInt32.toNat_ofNat']
  exact Nat.mod_eq_of_lt small

theorem orders_registerEnum (moduleName : String) (moduleId : ModuleId) {info : EnumInfo}
    (small : info.members.length < UInt32.size) :
    Orders (registerEnum moduleName moduleId info) := by
  let names := info.members.map (·.1)
  let slot (entry : String × Nat) : String × FieldSlot :=
    (entry.1, ⟨UInt32.ofNat entry.2, true⟩)
  have slots : ((names.zipIdx 1).map slot).map (·.2) =
      (List.range' 1 names.length).map fun number => ⟨UInt32.ofNat number, true⟩ := by
    rw [← List.zipIdx_map_snd, List.map_map, List.map_map]
    rfl
  have within {number : Nat} (member : number ∈ List.range' 1 names.length) :
      1 ≤ number ∧ number < UInt32.size := by
    have length : names.length = info.members.length := List.length_map _
    rw [List.mem_range'_1] at member
    omega
  have apart : (([] : List FieldSlot) ++ ((names.zipIdx 1).map slot).map (·.2)).Nodup := by
    rw [List.nil_append, slots]
    refine List.Nodup.map_on (fun number member number' member' same => ?_) List.nodup_range'
    have equal := congrArg (·.slot.toNat) same
    dsimp only at equal
    rwa [toNat_ofNat_of_lt (within member).2, toNat_ofNat_of_lt (within member').2] at equal
  have declares := leads_declareEach [] _ apart (.new info.name moduleName moduleId)
  rw [List.foldlM_map, List.nil_append, slots] at declares
  refine Leads.of_start _ (fun linkage orderly => ?_) (Leads.bind declares fun complete =>
    Leads.of_get_bind fun linkage grows => Leads.of_start _ ?_ leads_registerOrderly)
  · exact ⟨ClassDef.alone_new _ _ _, ClassDef.takes_new _ _ _, rfl, orderly⟩
  · rintro _ rfl
    obtain ⟨⟨unexpanded, instances, statics⟩, takes, root, catalog⟩ := grows
    have numbered : complete.Numbered := by
      refine takes.numbered fun field member zero => ?_
      obtain ⟨number, among, rfl⟩ := List.mem_map.mp member
      have equal := congrArg UInt32.toNat zero
      rw [toNat_ofNat_of_lt (within among).2] at equal
      exact absurd equal (Nat.ne_of_gt (within among).1)
    exact ⟨⟨⟨unexpanded, instances, statics⟩, fun _ => ⟨numbered.positive, numbered.apart⟩⟩, root,
      catalog⟩

theorem orders_registerUnit (moduleId : ModuleId) (base : Nat) {view : Metadata}
    (numbers : view.Numbers) : Orders (registerUnit facades moduleId base view) := by
  refine (Upheld.of_mapM (R := fun _ _ => True) fun info member => ?_).bind fun _ _ =>
    (Upheld.of_forM fun info member => ?_).bind fun _ _ => Upheld.of_pure trivial
  · have among := Array.mem_toList_iff.mp member
    exact (orders_registerClass _ _ _ (numbers.positive info among)
      (numbers.apart info among)).bind fun _ _ => Upheld.of_pure trivial
  · exact (orders_registerEnum _ _ (numbers.constants info (Array.mem_toList_iff.mp member))).bind
      fun _ _ => Upheld.of_pure trivial

theorem orders_setParent (view : Metadata) (id : ClassId) (parentName : String) :
    Orders (setParent view id parentName) := by
  intro linkage orderly
  have resolves : Looks linkage.catalog _ (resolve view parentName) := looks_resolve view parentName
  refine Leads.bind resolves (fun parent => ?_) linkage rfl
  apply Leads.of_get_bind
  rintro next ⟨inside, same⟩
  dsimp only at inside same ⊢
  rw [← same] at inside orderly
  split
  · exact Leads.of_throw_bind trivial
  · rintro _ rfl
    exact ⟨trivial, orderly.setParent id inside⟩

/-- What leaves all classes as they are keeps what holds of them. -/
theorem orders_of_looks {step : Link α} {answers : Catalog → α → Prop}
    (looks : ∀ catalog, Looks catalog (answers catalog) step) : Orders step := by
  intro linkage orderly
  refine Leads.mono (looks linkage.catalog) (fun _ next reached => ⟨trivial, ?_⟩) linkage rfl
  have same : next.catalog = linkage.catalog := reached.2
  show next.catalog.Orderly
  rwa [same]

theorem orders_assemble {units : List LoadedUnit} (numbers : ∀ unit ∈ units, unit.view.Numbers) :
    Orders (assemble facades units) := by
  refine (Upheld.of_mapM (R := fun _ _ => True) fun place member => ?_).bind fun children _ =>
    (Upheld.of_forM fun child _ => ?_).bind fun _ _ =>
      (Upheld.of_mapM (R := fun _ _ => True) fun unit _ => ?_).bind fun records _ =>
        (orders_of_looks fun _ => looks_findMain _).bind fun main _ => Upheld.of_pure trivial
  · have among : place.1.1 ∈ units := (List.of_mem_zip (List.fst_mem_of_mem_zipIdx member)).1
    exact (orders_registerUnit _ _ (numbers _ among)).bind fun _ _ => Upheld.of_pure trivial
  · exact orders_setParent child.1 child.2.1 child.2.2
  · exact orders_of_looks fun _ => looks_moduleRecord unit.view

end Link

/-! ## Programs -/

/-- Whether classes are those that the assembly of units registers, with methods that have moved
perhaps. -/
def Linkage.Stems (facades : List Facade) (units : List LoadedUnit) (assembly : Link.Assembly)
    (later : Linkage) : Prop :=
  ∃ linkage moved, Link.assemble facades units ⟨.empty, .empty⟩ = .ok assembly linkage ∧
    linkage.catalog.Orderly ∧ later.catalog = linkage.catalog.moveMethods moved

namespace Linkage.Stems

variable {facades : List Facade} {units : List LoadedUnit} {assembly : Link.Assembly}
  {later : Linkage}

theorem of_assemble (numbers : ∀ unit ∈ units, unit.view.Numbers) :
    Leads (· = ⟨.empty, .empty⟩) (fun _ => True) (Stems facades units)
      (Link.assemble facades units) := by
  have stays (catalog : Catalog) : catalog.moveMethods id = catalog := by
    simp [Catalog.moveMethods]
  rintro _ rfl
  split
  · next assembly linkage run =>
      have orderly := ((Link.orders_assemble numbers).of_ok Catalog.Orderly.empty run).2
      exact ⟨linkage, id, run, orderly, (stays _).symm⟩
  · trivial

theorem moveMethods (h : later.Stems facades units assembly)
    (next : MethodKey × MethodEntry → MethodKey × MethodEntry) :
    Stems facades units assembly { later with catalog := later.catalog.moveMethods next } := by
  obtain ⟨linkage, moved, run, orderly, same⟩ := h
  refine ⟨linkage, next ∘ moved, run, orderly, ?_⟩
  simp [same, Catalog.moveMethods, Function.comp_def]

end Linkage.Stems

/-- Whether the classes of a program have inherited from each other, after they have been registered
as its units say and their methods have moved perhaps. -/
def Program.Inherits (facades : List Facade) (units : List LoadedUnit) (program : Program) : Prop :=
  ∃ assembly linkage moved symbols,
    Link.assemble facades units ⟨.empty, .empty⟩ = .ok assembly linkage ∧
    linkage.catalog.Orderly ∧
    Catalog.Inherited (Catalog.uninherited symbols) (linkage.catalog.moveMethods moved)
      program.catalog

theorem Program.inherits_of_link {facades : List Facade} {optimize : Bool}
    {units : List LoadedUnit} {program : Program} (numbers : ∀ unit ∈ units, unit.view.Numbers)
    (linked : link facades optimize units = .ok program) : program.Inherits facades units := by
  refine Program.of_link (Linkage.Stems.of_assemble numbers) ?_ ?_ rfl linked
  · intro assembly code entry
    refine Upheld.of_get.bind fun linkage _ => ?_
    dsimp only
    split
    · exact Upheld.of_throw trivial
    · refine (Upheld.of_modify fun _ stems => ?_).bind fun _ _ => Upheld.of_pure trivial
      exact stems.moveMethods _
  · intro assembly code entry
    refine Leads.of_get_bind fun later stems => ?_
    obtain ⟨linkage, moved, run, orderly, same⟩ := stems
    have inherits := Catalog.leads_inheritAll later.catalog later.symbols
    have flattens : Leads (· = later) (fun _ => True) (fun _ last =>
        Catalog.Inherited (Catalog.uninherited later.symbols) later.catalog last.catalog)
        (Link.inCatalog (Catalog.flattenAll later.symbols)) := by
      apply Link.leads_inCatalog
      rintro linkage rfl catalog rfl
      have reached := inherits linkage.catalog rfl
      split at reached
      · exact reached
      · trivial
    refine flattens.bind fun _ => Leads.of_get_bind fun last inherited => ?_
    apply Leads.of_pure
    rintro _ rfl
    exact ⟨assembly, linkage, moved, later.symbols, run, orderly, same ▸ inherited⟩

end ObjectMachine
