import ObjectMachine.Program.Linker
import ObjectMachine.Proofs.Compiled.Relocated
import ObjectMachine.Proofs.Machine.Coupling

/-!
# Linking programs up to addresses

Linking looks at no code address, except where methods are declared and where the code is shrunk.
Everything else does the same to classes that differ in the addresses of their methods at most.
-/

namespace ObjectMachine

variable {Address : Nat → Nat → Prop}

structure Linkage.Similar (Address : Nat → Nat → Prop) (linkage linkage' : Linkage) : Prop where
  symbols : linkage.symbols = linkage'.symbols
  catalog : linkage.catalog.Similar Address linkage'.catalog

/-! ## Classes -/

namespace MethodsSimilar

variable {methods methods' : List (MethodKey × MethodEntry)}
  (h : MethodsSimilar Address methods methods')

include h

theorem any (p : MethodKey → Bool) : methods.any (p ·.1) = methods'.any (p ·.1) := by
  have keys : methods'.map (·.1) = methods.map (·.1) :=
    map_eq_of_forall₂ (h.imp fun _ _ same => same.1.symm)
  have := congrArg (List.any · p) keys
  simpa only [List.any_map, Function.comp_def] using this.symm

theorem append {others others' : List (MethodKey × MethodEntry)}
    (h' : MethodsSimilar Address others others') :
    MethodsSimilar Address (methods ++ others) (methods' ++ others') :=
  List.rel_append h h'

theorem filter {p q : MethodKey × MethodEntry → Bool}
    (same : ∀ method method' : MethodKey × MethodEntry, method.1 = method'.1 →
      p method = q method') :
    MethodsSimilar Address (methods.filter p) (methods'.filter q) := by
  unfold MethodsSimilar at h ⊢
  induction h with
  | nil => exact .nil
  | @cons method method' _ _ here _ ih =>
      rw [List.filter_cons, List.filter_cons, same method method' here.1]
      split
      · exact .cons here ih
      · exact ih

theorem put {key : MethodKey} {entry entry' : MethodEntry} (he : entry.Similar Address entry') :
    MethodsSimilar Address (putEntry methods key entry) (putEntry methods' key entry') := by
  unfold putEntry
  rw [h.any (· == key)]
  split
  · refine List.forall₂_map_left_iff.mpr (List.forall₂_map_right_iff.mpr (h.imp ?_))
    intro method method' same
    rw [same.1]
    split
    · exact ⟨rfl, he⟩
    · exact same
  · exact h.append (.cons ⟨rfl, he⟩ .nil)

end MethodsSimilar

namespace ClassDef.Similar

variable {info info' : ClassDef} (h : info.Similar Address info')

include h

theorem moduleId : info.moduleId = info'.moduleId := by
  simpa using congrArg ClassDef.moduleId h.rest

theorem statics : info.statics = info'.statics := by
  simpa using congrArg ClassDef.statics h.rest

theorem expanded : info.expanded = info'.expanded := by
  simpa using congrArg ClassDef.expanded h.rest

/-- A change that does not look at the methods. -/
theorem change {f : ClassDef → ClassDef}
    (blind : ∀ info, { f info with methods := [] } = f { info with methods := [] })
    (keeps : ∀ info, (f info).methods = info.methods) : (f info).Similar Address (f info') where
  rest := by rw [blind, blind, h.rest]
  methods := by
    rw [keeps, keeps]
    exact h.methods

theorem withMethods {methods methods' : List (MethodKey × MethodEntry)}
    (hm : MethodsSimilar Address methods methods') :
    ClassDef.Similar Address { info with methods } { info' with methods := methods' } where
  rest := by
    have := congrArg (fun info : ClassDef => { info with methods := [] }) h.rest
    exact this
  methods := hm

theorem withEnumValues (enumValues : List (Symbol × Int32)) :
    ClassDef.Similar Address { info with enumValues } { info' with enumValues } :=
  h.change (f := fun info => { info with enumValues }) (fun _ => rfl) fun _ => rfl

theorem isSome_method? (key : MethodKey) :
    (info.method? key).isSome = (info'.method? key).isSome := by
  have method := h.method? key
  generalize info.method? key = found at method ⊢
  generalize info'.method? key = found' at method ⊢
  cases method <;> rfl

end ClassDef.Similar

theorem ClassDef.Similar.reserve {info info' : ClassDef} (h : info.Similar Address info')
    (field : FieldSlot) : (info.reserve field).Similar Address (info'.reserve field) := by
  refine h.change (f := fun info => info.reserve field) (fun info => ?_) fun info => ?_
  · unfold ClassDef.reserve
    split <;> rfl
  · unfold ClassDef.reserve
    split <;> rfl

/-- A class without methods. -/
theorem ClassDef.similar_of_no_methods {info : ClassDef} (h : info.methods = []) :
    info.Similar Address info :=
  ⟨rfl, h ▸ .nil⟩

namespace Catalog.Similar

variable {catalog catalog' : Catalog} (h : catalog.Similar Address catalog')

include h

theorem find? (qualified : String) : catalog.find? qualified = catalog'.find? qualified := by
  have names : catalog'.classes.toList.map (·.qualified) =
      catalog.classes.toList.map (·.qualified) :=
    map_eq_of_forall₂ (List.Forall₂.imp (fun _ _ info => info.qualified.symm) h)
  have found := congrArg (List.findIdx? (· == qualified)) names
  simp only [List.findIdx?_map, Function.comp_def] at found
  obtain ⟨⟨classes⟩⟩ := catalog
  obtain ⟨⟨classes'⟩⟩ := catalog'
  change Option.map _ (classes.toArray.findIdx? _) = Option.map _ (classes'.toArray.findIdx? _)
  rw [List.findIdx?_toArray, List.findIdx?_toArray, found]

theorem ids : catalog.ids = catalog'.ids := by
  rw [Catalog.ids, Catalog.ids, h.size]

theorem modify (id : ClassId) {change change' : ClassDef → ClassDef}
    (hc : ∀ {info info'}, info.Similar Address info' →
      (change info).Similar Address (change' info')) :
    (catalog.modify id change).Similar Address (catalog'.modify id change') := by
  unfold Catalog.Similar Catalog.modify at *
  rw [Array.toList_modify, Array.toList_modify]
  exact forall₂_modify h hc _

theorem push {info info' : ClassDef} (hi : info.Similar Address info') :
    Catalog.Similar Address ⟨catalog.classes.push info⟩ ⟨catalog'.classes.push info'⟩ := by
  unfold Catalog.Similar at h ⊢
  rw [Array.toList_push, Array.toList_push]
  exact List.rel_append h (.cons hi .nil)

end Catalog.Similar

theorem ClassDef.Similar.inherit {info info' parent parent' : ClassDef}
    (h : info.Similar Address info') (hp : parent.Similar Address parent')
    (notInherited : List Symbol) :
    (info.inherit parent notInherited).Similar Address (info'.inherit parent' notInherited) := by
  have shifts : ClassDef.shifted parent = ClassDef.shifted parent' := by
    funext field
    rw [ClassDef.shifted, ClassDef.shifted, hp.statics, hp.instanceFieldCount]
  have inherited := hp.methods.filter (p := fun method => !notInherited.contains method.1.name)
    (q := fun method => !notInherited.contains method.1.name) fun method method' same =>
      congrArg (fun key : MethodKey => !notInherited.contains key.name) same
  have more := inherited.filter (p := fun entry => !info.methods.any (·.1 == entry.1))
    (q := fun entry => !info'.methods.any (·.1 == entry.1)) fun method method' same => by
      rw [same, h.methods.any (· == method'.1)]
  have own := h.change (f := fun info => { info with
    fields := withInherited (info.fields.map fun field => (field.1, parent'.shifted field.2))
      parent'.fields
    statics := { info.statics with
      slots := Array.replicate parent'.statics.slots.size Value.null ++ info.statics.slots }
    instanceFieldCount := info.instanceFieldCount + parent'.instanceFieldCount }) (fun _ => rfl)
    fun _ => rfl
  unfold ClassDef.inherit
  rw [shifts, hp.fields, hp.statics, hp.instanceFieldCount]
  exact own.withMethods (h.methods.append more)

namespace Catalog

theorem expand_similar {catalog catalog' : Catalog} (h : catalog.Similar Address catalog')
    (notInherited : List Symbol) (id : ClassId) :
    (catalog.expand notInherited id).Similar Address (catalog'.expand notInherited id) := by
  refine h.modify id fun {info info'} hi => ?_
  have same := hi.parent
  split
  · next parent own =>
      split
      · next parent' own' =>
          obtain rfl : parent = parent' := Option.some.inj (own.symm.trans (same.trans own'))
          exact (hi.inherit (h.get parent) notInherited).change
            (f := fun info => { info with expanded := true }) (fun _ => rfl) fun _ => rfl
      · next own' => exact nomatch own.symm.trans (same.trans own')
  · next own =>
      split
      · next own' => exact nomatch own.symm.trans (same.trans own')
      · exact hi.change (f := fun info => { info with expanded := true }) (fun _ => rfl)
          fun _ => rfl

theorem flatten_coupled (notInherited : List Symbol) (bound : Nat) (waiting : List ClassId)
    (id : ClassId) :
    Coupled (Similar Address) Eq (flatten notInherited bound waiting id)
      (flatten notInherited bound waiting id) := by
  induction bound generalizing waiting id with
  | zero =>
      refine Coupled.of_get.bindWith fun catalog catalog' h => ?_
      rw [h.name]
      exact .of_throw _
  | succ bound ih =>
      refine Coupled.of_get.bindWith fun catalog catalog' h => ?_
      have info := h.get id
      dsimp only
      rw [info.expanded, info.qualified, info.parent]
      split
      · exact .of_pure rfl
      · split
        · exact .of_throw _
        · have expands : Coupled (Similar Address) Eq
              (modifyGet fun catalog => ((), catalog.expand notInherited id) :
                EStateM LoadError Catalog Unit)
              (modifyGet fun catalog => ((), catalog.expand notInherited id)) :=
            .of_modifyGet fun _ _ h => ⟨rfl, expand_similar h notInherited id⟩
          split
          · exact (ih _ _).bind fun _ => expands
          · exact expands

theorem flattenAll_coupled (symbols : SymbolTable) :
    Coupled (Similar Address) Eq (flattenAll symbols) (flattenAll symbols) := by
  refine Coupled.of_get.bindWith fun catalog catalog' h => ?_
  rw [h.size, h.ids]
  exact .of_forM fun id _ => flatten_coupled _ _ _ id

end Catalog

/-! ## Parts of linking -/

/-- Whether a part of linking does the same to linkages that differ in addresses. -/
abbrev Link.Agree (Address : Nat → Nat → Prop) (tie : α → β → Prop) (step : Link α)
    (step' : Link β) : Prop :=
  Coupled (Linkage.Similar Address) tie step step'

namespace Link.Agree

open Coupled Link

theorem of_intern (name : String) : Agree Address Eq (intern name) (intern name) := by
  refine of_modifyGet fun linkage linkage' h => ?_
  dsimp only
  rw [h.symbols]
  exact ⟨rfl, rfl, h.catalog⟩

theorem of_inCatalog {tie : α → β → Prop} {step : EStateM LoadError Catalog α}
    {step' : EStateM LoadError Catalog β}
    (h : Coupled (Catalog.Similar Address) tie step step') :
    Agree Address tie (inCatalog step) (inCatalog step') := by
  intro linkage linkage' hl
  have results := h linkage.catalog linkage'.catalog hl.catalog
  unfold inCatalog
  generalize step linkage.catalog = result at results ⊢
  generalize step' linkage'.catalog = result' at results ⊢
  cases result with
  | ok value catalog =>
      cases result' with
      | ok value' catalog' => exact ⟨results.1, hl.symbols, results.2⟩
      | error fault' catalog' => exact results.elim
  | error fault catalog =>
      cases result' with
      | ok value' catalog' => exact results.elim
      | error fault' catalog' => exact ⟨results.1, hl.symbols, results.2⟩

theorem of_declare {info info' : ClassDef} (hi : info.Similar Address info')
    {step step' : SymbolTable → EStateM LoadError ClassDef Unit}
    (h : ∀ symbols, Coupled (ClassDef.Similar Address) Eq (step symbols) (step' symbols)) :
    Agree Address (ClassDef.Similar Address) (declare info step) (declare info' step') := by
  refine of_get.bindWith fun linkage linkage' hl => ?_
  rw [hl.symbols]
  have results := h linkage'.symbols info info' hi
  generalize step linkage'.symbols info = result at results ⊢
  generalize step' linkage'.symbols info' = result' at results ⊢
  cases result with
  | ok value changed =>
      cases result' with
      | ok value' changed' => exact of_pure results.2
      | error fault' changed' => exact results.elim
  | error fault changed =>
      cases result' with
      | ok value' changed' => exact results.elim
      | error fault' changed' =>
          obtain ⟨rfl, -⟩ := results
          exact of_throw fault

theorem of_classField (symbols : SymbolTable) (name : Symbol) (field : FieldSlot) :
    Coupled (ClassDef.Similar Address) Eq (ClassDef.declareField symbols name field)
      (ClassDef.declareField symbols name field) := by
  refine of_get.bindWith fun before before' h => ?_
  have changed := h.change
    (f := fun info => { info with fields := putEntry info.fields name field }) (fun _ => rfl)
    fun _ => rfl
  refine (of_set changed).bindWith fun _ _ _ => ?_
  rw [h.field?, h.qualified]
  split
  · exact of_throw_bind _
  · exact of_modify fun info info' hi => hi.reserve field

theorem of_classMethod (symbols : SymbolTable) (key : MethodKey) {entry entry' : MethodEntry}
    (he : entry.Similar Address entry') :
    Coupled (ClassDef.Similar Address) Eq (ClassDef.declareMethod symbols key entry)
      (ClassDef.declareMethod symbols key entry') := by
  refine of_get.bindWith fun before before' h => ?_
  refine (of_set (h.withMethods (h.methods.put he))).bindWith fun _ _ _ => ?_
  rw [h.isSome_method?, h.qualified]
  split
  · exact of_throw _
  · exact of_pure rfl

theorem of_declareField {info info' : ClassDef} (hi : info.Similar Address info') (name : String)
    (slot : FieldSlot) :
    Agree Address (ClassDef.Similar Address) (declareField info name slot)
      (declareField info' name slot) :=
  (of_intern name).bind fun symbol => of_declare hi fun symbols => of_classField symbols symbol slot

theorem of_declareFields {info info' : ClassDef} (hi : info.Similar Address info')
    (names : List String) (isStatic : Bool) :
    Agree Address (ClassDef.Similar Address) (declareFields info names isStatic)
      (declareFields info' names isStatic) :=
  of_foldlM (fun item _ _ _ h => of_declareField h item.1 ⟨UInt32.ofNat item.2, isStatic⟩) hi

theorem of_declareNativeMethods {info info' : ClassDef} (hi : info.Similar Address info')
    (id : ClassId) (methods : List MethodRef) (isStatic : Bool) :
    Agree Address (ClassDef.Similar Address) (declareNativeMethods info id methods isStatic)
      (declareNativeMethods info' id methods isStatic) := by
  refine of_foldlM (fun method _ info info' h => ?_) hi
  refine (of_intern method.name).bind fun name => ?_
  dsimp only
  rw [h.isSome_method?]
  split
  · exact of_pure h
  · refine of_pure (h.withMethods (h.methods.append (.cons ⟨rfl, ?_⟩ .nil)))
    exact ⟨h.moduleId, rfl, rfl, rfl, trivial⟩

theorem of_declareNative {info info' : ClassDef} (hi : info.Similar Address info') (id : ClassId)
    (facade : Facade) :
    Agree Address (ClassDef.Similar Address) (declareNative info id facade)
      (declareNative info' id facade) :=
  (of_declareFields hi _ _).bindWith fun _ _ hi => (of_declareFields hi _ _).bindWith fun _ _ hi =>
    (of_declareNativeMethods hi id _ _).bindWith fun _ _ hi =>
      (of_declareNativeMethods hi id _ _).bindWith fun _ _ hi =>
        of_pure (hi.change (f := fun info => { info with facade := some facade }) (fun _ => rfl)
          fun _ => rfl)

/-- Whether offsets correspond in units that start at addresses. -/
def Within (Address : Nat → Nat → Prop) (base base' : Nat) (offset offset' : UInt32) : Prop :=
  Address (base + offset.toNat) (base' + offset'.toNat)

theorem of_declareMethod {info info' : ClassDef} (hi : info.Similar Address info') (id : ClassId)
    {base base' : Nat} {method method' : MethodInfo}
    (moved : method.header.Relocated (Within Address base base') method'.header) :
    Agree Address (ClassDef.Similar Address) (declareMethod id base info method)
      (declareMethod id base' info' method') := by
  obtain ⟨offset, same⟩ := moved
  rw [declareMethod, declareMethod, same]
  refine (of_intern _).bind fun name => of_declare hi fun symbols => of_classMethod symbols _ ?_
  exact ⟨hi.moduleId, rfl, rfl, rfl, offset, rfl⟩

theorem of_register {info info' : ClassDef} (hi : info.Similar Address info') :
    Agree Address Eq (inCatalog (Catalog.register info)) (inCatalog (Catalog.register info')) := by
  refine of_inCatalog (of_get.bindWith fun catalog catalog' hc => ?_)
  rw [hc.find?, hi.qualified]
  split
  · exact of_throw_bind _
  · refine (of_set (hc.push hi)).bindWith fun _ _ _ => of_pure ?_
    rw [hc.size]

theorem of_registerClass (facades : List Facade) (moduleName : String) (moduleId : ModuleId)
    {base base' : Nat} {info info' : ClassInfo}
    (moved : info.Relocated (Within Address base base') info') :
    Agree Address Eq (registerClass facades moduleName moduleId base info)
      (registerClass facades moduleName moduleId base' info') := by
  obtain ⟨methods, same⟩ := moved
  generalize info'.methods = own at methods same
  subst same
  refine of_get.bindWith fun linkage linkage' hl => ?_
  rw [hl.catalog.size]
  have fresh : (ClassDef.new info.name moduleName moduleId).Similar Address
      (ClassDef.new info.name moduleName moduleId) := ClassDef.similar_of_no_methods rfl
  dsimp only
  cases nativeType? info.kind with
  | some nativeType =>
      dsimp only
      cases Facade.find? facades nativeType with
      | some facade =>
          exact (of_declareNative fresh _ facade).bindWith fun _ _ hi => of_register hi
      | none => exact of_throw_bind _
  | none =>
      refine Coupled.bindWith (of_foldlM ?_ fresh) fun _ _ hi =>
        Coupled.bindWith (of_foldlM₂ (methods.imp ?_) hi) fun _ _ hi => of_register hi
      · exact fun field _ _ _ h => of_declareField h field.name ⟨field.number, field.isStatic⟩
      · exact fun method method' moved _ _ h => of_declareMethod h _ moved.header

theorem of_registerEnum (moduleName : String) (moduleId : ModuleId) (info : EnumInfo) :
    Agree Address Eq (registerEnum moduleName moduleId info)
      (registerEnum moduleName moduleId info) := by
  have fresh : (ClassDef.new info.name moduleName moduleId).Similar Address
      (ClassDef.new info.name moduleName moduleId) := ClassDef.similar_of_no_methods rfl
  refine (of_declareFields fresh _ _).bindWith fun _ _ hi =>
    of_get.bindWith fun linkage linkage' hl => ?_
  rw [hl.symbols]
  exact of_register (hi.withEnumValues _)

theorem of_registerUnit (facades : List Facade) (moduleId : ModuleId) {base base' : Nat}
    {view view' : Metadata} (moved : view.Relocated (Within Address base base') view') :
    Agree Address Eq (registerUnit facades moduleId base view)
      (registerUnit facades moduleId base' view') := by
  obtain ⟨classes, same⟩ := moved
  generalize view'.classes = own at classes same
  subst same
  refine ((of_mapM₂ (classes.imp fun info info' moved => ?_)).mono fun _ _ same =>
    List.forall₂_eq_eq_eq ▸ same).bind fun children => (of_forM fun info _ => ?_).bind
      fun _ => of_pure rfl
  · refine (of_registerClass facades _ _ moved).bind fun id => of_pure ?_
    rw [moved.same]
  · exact (of_registerEnum _ _ info).bind fun _ => of_pure rfl

theorem of_resolve (view : Metadata) (name : String) :
    Agree Address Eq (resolve view name) (resolve view name) := by
  refine of_get.bindWith fun linkage linkage' hl => ?_
  have found : linkage.catalog.find? = linkage'.catalog.find? := funext hl.catalog.find?
  have same : resolveClass linkage.catalog = resolveClass linkage'.catalog := by
    funext moduleName uses name
    simp only [resolveClass, found]
  rw [same]
  split
  · exact of_pure rfl
  · exact of_throw _

theorem of_setParent (view : Metadata) (id : ClassId) (parentName : String) :
    Agree Address Eq (setParent view id parentName) (setParent view id parentName) := by
  refine (of_resolve view parentName).bind fun parent =>
    of_get.bindWith fun linkage linkage' hl => ?_
  dsimp only
  rw [(hl.catalog.get id).facade, (hl.catalog.get parent).facade, (hl.catalog.get id).qualified,
    hl.catalog.name]
  split
  · exact of_throw_bind _
  · refine of_modify fun linkage linkage' hl => ⟨hl.symbols, hl.catalog.modify id fun hi => ?_⟩
    exact hi.change (f := fun info => { info with parent := some parent }) (fun _ => rfl)
      fun _ => rfl

theorem of_moduleRecord (view : Metadata) :
    Agree Address Eq (moduleRecord view) (moduleRecord view) :=
  (of_mapM_eq fun name _ => of_resolve view name).bind fun _ =>
    (of_mapM_eq fun name _ => of_intern name).bind fun _ =>
      (of_mapM_eq fun method _ => (of_intern method.name).bind fun _ => of_pure rfl).bind
        fun _ => of_pure rfl

theorem of_findMain (mainModule : String) :
    Agree Address Eq (findMain mainModule) (findMain mainModule) := by
  refine (of_intern _).bind fun name => of_get.bindWith fun linkage linkage' hl => ?_
  have offers (id : ClassId) (key : MethodKey) :
      offersMain (linkage.catalog.get id) key = offersMain (linkage'.catalog.get id) key := by
    have info := hl.catalog.get id
    have method := info.method? key
    unfold offersMain
    rw [info.moduleId, info.facade]
    generalize (linkage.catalog.get id).method? key = found at method ⊢
    generalize (linkage'.catalog.get id).method? key = found' at method ⊢
    cases method with
    | none => rfl
    | some same => rw [Option.any_some, Option.any_some, same.isStatic]
  dsimp only
  simp only [offers, hl.catalog.ids]
  split
  · exact of_pure rfl
  · exact of_throw _

/-- Whether views differ in their classes at most. Once these are registered nothing looks at them
any more. -/
def SameButClasses (view view' : Metadata) : Prop :=
  view' = { view with classes := view'.classes }

theorem setParent_congr {view view' : Metadata} (same : SameButClasses view view') :
    setParent view' = setParent view := by
  rw [same]
  rfl

theorem moduleRecord_congr {view view' : Metadata} (same : SameButClasses view view') :
    moduleRecord view' = moduleRecord view := by
  rw [same]
  rfl

/-- Whether children of two views are one class with one parent. -/
def SameChild (child child' : Metadata × ClassId × String) : Prop :=
  SameButClasses child.1 child'.1 ∧ child'.2 = child.2

/-- The first part of linking, of units whose methods lie at addresses that correspond. -/
theorem of_assemble (facades : List Facade) {units units' : List LoadedUnit}
    (moved : List.Forall₂
      (fun (place place' : LoadedUnit × Nat) =>
        place.1.view.Relocated (Within Address place.2 place'.2) place'.1.view)
      (units.zip (units.scanl (fun base unit => base + unit.code.length) 0))
      (units'.zip (units'.scanl (fun base unit => base + unit.code.length) 0))) :
    Agree Address Eq (assemble facades units) (assemble facades units') := by
  have same : List.Forall₂ (fun unit unit' : LoadedUnit => SameButClasses unit.view unit'.view)
      units units' := by
    have firsts (units : List LoadedUnit) :
        (units.zip (units.scanl (fun base unit => base + unit.code.length) 0)).map (·.1) = units :=
      List.map_fst_zip (by simp)
    rw [← firsts units, ← firsts units', List.forall₂_map_left_iff, List.forall₂_map_right_iff]
    exact moved.imp fun _ _ both => both.same
  have main : units'.head?.map (·.view.moduleName) = units.head?.map (·.view.moduleName) := by
    cases same with
    | nil => rfl
    | @cons unit unit' _ _ here _ =>
        rw [List.head?_cons, List.head?_cons, Option.map_some, Option.map_some, here]
  unfold assemble
  dsimp only
  rw [main]
  refine Coupled.bindWith (of_mapM₂ ((forall₂_zipIdx moved 0).imp ?_) :
      Agree Address (List.Forall₂ (List.Forall₂ SameChild)) _ _) fun children children' related =>
    (of_forM₂ ((List.rel_flatten related).imp ?_)).bind fun _ =>
      ((of_mapM₂ (same.imp ?_)).mono fun _ _ equal => List.forall₂_eq_eq_eq ▸ equal).bind
        fun records => (of_findMain _).bind fun main => of_pure rfl
  · rintro ⟨⟨unit, base⟩, index⟩ ⟨⟨unit', base'⟩, index'⟩ ⟨moved, indices⟩
    obtain rfl : index = index' := indices
    refine (of_registerUnit facades _ moved).bind fun children => of_pure ?_
    rw [List.forall₂_map_left_iff, List.forall₂_map_right_iff, List.forall₂_same]
    exact fun child _ => ⟨moved.same, rfl⟩
  · rintro ⟨view, id, parent⟩ ⟨view', id', parent'⟩ ⟨same, others⟩
    cases others
    rw [setParent_congr same]
    exact of_setParent view id parent
  · intro unit unit' same
    rw [moduleRecord_congr same]
    exact of_moduleRecord unit.view

end Link.Agree

end ObjectMachine
