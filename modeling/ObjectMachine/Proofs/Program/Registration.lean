import ObjectMachine.Proofs.Program.Fresh
import ObjectMachine.Proofs.Program.Names
import ObjectMachine.Proofs.Program.Symbols

/-!
# Which units can be registered

The classes of units can be registered exactly if each of them can be declared by itself and no two
have one qualified name. So the order of the units decides about nothing but the numbers of the
classes, and a name means the same in whatever order the units are loaded.
-/

namespace ObjectMachine

/-! ## Declarations -/

/-- Whether the members of a class have names of their own, and its native class is known. -/
def ClassInfo.Declarable (facades : List Facade) (info : ClassInfo) : Prop :=
  match Link.nativeType? info.kind with
  | some nativeType => ∃ facade, Facade.find? facades nativeType = some facade ∧
      (facade.staticFields ++ facade.instanceFields).Nodup
  | none => (info.fields.toList.map (·.name)).Nodup ∧
      (info.methods.toList.map fun method => (method.header.name, method.header.argCount)).Nodup

namespace Metadata

/-- Whether each class and enumeration of a module can be declared by itself. -/
def Declarable (facades : List Facade) (view : Metadata) : Prop :=
  (∀ info ∈ view.classes.toList, info.Declarable facades) ∧
    ∀ info ∈ view.enums.toList, (info.members.map (·.1)).Nodup

def declaredNames (view : Metadata) : List String :=
  view.classes.toList.map (qualify view.moduleName ·.name) ++
    view.enums.toList.map (qualify view.moduleName ·.name)

end Metadata

/-- What is known while classes are registered: the names of those that are. -/
structure Linkage.Enlists (names : List String) (linkage : Linkage) : Prop where
  symbols : linkage.symbols.Distinct
  catalog : linkage.catalog.qualifiedNames = names
  apart : names.Nodup

/-- What is known of a class before it is registered beside others. -/
structure Linkage.Opens (names : List String) (qualified : String) (info : ClassDef)
    (linkage : Linkage) : Prop extends linkage.Enlists names where
  named : info.qualified = qualified

/-- What is known of a class that has been declared members so far. -/
structure Linkage.Declares (names : List String) (qualified : String) (fields : List String)
    (methods : List (String × UInt16)) (info : ClassDef) (linkage : Linkage) : Prop
    extends linkage.Opens names qualified info where
  listed : List.Forall₂ (fun name field => linkage.symbols.Knows field.1 name) fields info.fields
  fieldsApart : fields.Nodup
  offered : List.Forall₂ (fun method entry =>
    linkage.symbols.Knows entry.1.name method.1 ∧ entry.1.arity = method.2) methods info.methods
  methodsApart : methods.Nodup

theorem nodup_snoc {items : List α} {item : α} :
    (items ++ [item]).Nodup ↔ item ∉ items ∧ items.Nodup := by
  rw [← List.concat_eq_append, List.nodup_concat]

/-- A key is found among entries that are known by names exactly if its name is among these. -/
theorem lookup_ne_none_iff_of_forall₂ [BEq κ] [LawfulBEq κ] (Known : κ → α → Prop) {names : List α}
    {entries : List (κ × ν)} (h : List.Forall₂ (fun name entry => Known entry.1 name) names entries)
    {key : κ} {name : α} (known : Known key name)
    (unique : ∀ other, Known key other → other = name)
    (unique' : ∀ other, Known other name → other = key) :
    entries.lookup key ≠ none ↔ name ∈ names := by
  induction h with
  | nil => simp
  | @cons first entry names entries here _ ih =>
      rw [List.lookup_cons, List.mem_cons, ← ih]
      by_cases same : key = entry.1
      · subst same
        simp [unique first here]
      · have other : name ≠ first := by
          rintro rfl
          exact same (unique' _ here).symm
        simp [beq_false_of_ne same, other]

theorem SymbolTable.Distinct.eq {symbols : SymbolTable} (h : symbols.Distinct)
    {symbol other : Symbol} {name : String} (known : symbols.Knows symbol name)
    (known' : symbols.Knows other name) :
    other = symbol :=
  Option.some.inj ((h _ _ known').symm.trans (h _ _ known))

theorem SymbolTable.Knows.unique {symbols : SymbolTable} {symbol : Symbol} {name other : String}
    (known : symbols.Knows symbol name) (known' : symbols.Knows symbol other) : other = name :=
  Option.some.inj (known'.symm.trans known)

namespace Linkage

variable {names : List String} {qualified : String} {fields : List String}
  {methods : List (String × UInt16)} {info : ClassDef} {linkage : Linkage}

theorem Enlists.intern (h : linkage.Enlists names) (name : String) :
    Enlists names { linkage with symbols := (linkage.symbols.intern name).2 } :=
  ⟨h.symbols.intern name, h.catalog, h.apart⟩

theorem Opens.intern (h : linkage.Opens names qualified info) (name : String) :
    Opens names qualified info { linkage with symbols := (linkage.symbols.intern name).2 } :=
  ⟨h.toEnlists.intern name, h.named⟩

namespace Declares

theorem new (h : linkage.Enlists names) (name moduleName : String) (moduleId : ModuleId) :
    linkage.Declares names (qualify moduleName name) [] [] (.new name moduleName moduleId) :=
  ⟨⟨h, rfl⟩, .nil, List.nodup_nil, .nil, List.nodup_nil⟩

variable (h : linkage.Declares names qualified fields methods info)

include h

theorem intern (name : String) : Declares names qualified fields methods info
    { linkage with symbols := (linkage.symbols.intern name).2 } where
  toOpens := h.toOpens.intern name
  listed := h.listed.imp fun _ _ known => known.intern name
  fieldsApart := h.fieldsApart
  offered := h.offered.imp fun _ _ known => ⟨known.1.intern name, known.2⟩
  methodsApart := h.methodsApart

theorem field?_ne_none_iff {symbol : Symbol} {name : String}
    (known : linkage.symbols.Knows symbol name) :
    info.field? symbol ≠ none ↔ name ∈ fields :=
  lookup_ne_none_iff_of_forall₂ linkage.symbols.Knows h.listed known
    (fun _ => known.unique) fun _ => h.symbols.eq known

theorem method?_ne_none_iff {symbol : Symbol} {name : String} (arity : UInt16)
    (known : linkage.symbols.Knows symbol name) :
    info.method? ⟨symbol, arity⟩ ≠ none ↔ (name, arity) ∈ methods := by
  refine lookup_ne_none_iff_of_forall₂
    (fun key method => linkage.symbols.Knows key.name method.1 ∧ key.arity = method.2)
    h.offered ⟨known, rfl⟩ ?_ ?_
  · rintro ⟨other, _⟩ ⟨known', rfl⟩
    obtain rfl : other = name := known.unique known'
    rfl
  · rintro ⟨other, _⟩ ⟨known', rfl⟩
    obtain rfl : other = symbol := h.symbols.eq known known'
    rfl

theorem withField {symbol : Symbol} {name : String} (known : linkage.symbols.Knows symbol name)
    (fresh : info.field? symbol = none) (slot : FieldSlot) :
    linkage.Declares names qualified (fields ++ [name]) methods (info.withField symbol slot) := by
  have new : name ∉ fields := fun member => (h.field?_ne_none_iff known).mpr member fresh
  have named := ClassDef.reserve_kept ClassDef.qualified (fun _ _ _ => rfl)
    { info with fields := putEntry info.fields symbol slot } slot
  refine ⟨⟨h.toEnlists, named.trans h.named⟩, ?_, nodup_snoc.mpr ⟨new, h.fieldsApart⟩, ?_,
    h.methodsApart⟩
  · rw [ClassDef.withField, ClassDef.reserve_kept ClassDef.fields fun _ _ _ => rfl,
      putEntry_of_lookup_eq_none fresh]
    exact List.rel_append h.listed (.cons known .nil)
  · rw [ClassDef.withField, ClassDef.reserve_kept ClassDef.methods fun _ _ _ => rfl]
    exact h.offered

theorem withMethod {symbol : Symbol} {name : String} {arity : UInt16}
    (known : linkage.symbols.Knows symbol name) (fresh : info.method? ⟨symbol, arity⟩ = none)
    (entry : MethodEntry) :
    linkage.Declares names qualified fields (methods ++ [(name, arity)])
      { info with methods := putEntry info.methods ⟨symbol, arity⟩ entry } := by
  have new : (name, arity) ∉ methods :=
    fun member => (h.method?_ne_none_iff arity known).mpr member fresh
  refine ⟨⟨h.toEnlists, h.named⟩, h.listed, h.fieldsApart, ?_,
    nodup_snoc.mpr ⟨new, h.methodsApart⟩⟩
  rw [putEntry_of_lookup_eq_none fresh]
  exact List.rel_append h.offered (.cons ⟨known, rfl⟩ .nil)

end Declares

theorem Opens.register (h : linkage.Opens names qualified info) (new : qualified ∉ names) :
    Enlists (names ++ [qualified])
      { linkage with catalog := ⟨linkage.catalog.classes.push info⟩ } where
  symbols := h.symbols
  catalog := by
    rw [Catalog.qualifiedNames, Array.toList_push, List.map_append, List.map_singleton, h.named,
      ← h.catalog]
    rfl
  apart := nodup_snoc.mpr ⟨new, h.apart⟩

end Linkage

namespace Link

open Linkage

variable {names : List String} {qualified : String} {fields : List String}
  {methods : List (String × UInt16)}

/-- Items with keys of their own are added one after the other. -/
theorem leads_foldlM_distinct (kept : List κ → α → Linkage → Prop) (key : γ → κ)
    {step : α → γ → Link α}
    (adds : ∀ before answer item, Leads (kept before answer)
      (fun _ => ¬ (before ++ [key item]).Nodup) (kept (before ++ [key item])) (step answer item))
    (before : List κ) (items : List γ) (answer : α) :
    Leads (kept before answer) (fun _ => ¬ (before ++ items.map key).Nodup)
      (kept (before ++ items.map key)) (items.foldlM step answer) := by
  induction items generalizing before answer with
  | nil => exact Leads.of_pure fun _ here => by rwa [List.map_nil, List.append_nil]
  | cons item rest ih =>
      rw [List.foldlM_cons, List.map_cons, List.append_cons]
      refine ((adds before answer item).allow fun _ repeated apart => ?_).bind fun next => ih _ next
      exact repeated (List.Nodup.of_append_left apart)

theorem declares_declareField (info : ClassDef) (name : String) (slot : FieldSlot) :
    Leads (Declares names qualified fields methods info) (fun _ => ¬ (fields ++ [name]).Nodup)
      (Declares names qualified (fields ++ [name]) methods) (declareField info name slot) := by
  apply leads_declareField_of
  · intro linkage declares fresh
    exact (declares.intern name).withField (linkage.symbols.knows_intern name) fresh slot
  · intro linkage declares taken _ apart
    have declares := declares.intern name
    have member := (declares.field?_ne_none_iff (linkage.symbols.knows_intern name)).mp taken
    exact (nodup_snoc.mp apart).1 member

theorem declares_declareMethod (id : ClassId) (base : Nat) (info : ClassDef) (method : MethodInfo) :
    Leads (Declares names qualified fields methods info)
      (fun _ => ¬ (methods ++ [(method.header.name, method.header.argCount)]).Nodup)
      (Declares names qualified fields
        (methods ++ [(method.header.name, method.header.argCount)]))
      (declareMethod id base info method) := by
  have interns : Leads (Declares names qualified fields methods info)
      (fun _ => ¬ (methods ++ [(method.header.name, method.header.argCount)]).Nodup)
      (fun symbol linkage => linkage.Declares names qualified fields methods info ∧
        linkage.symbols.Knows symbol method.header.name) (intern method.header.name) :=
    Leads.of_modifyGet fun linkage declares =>
      ⟨declares.intern _, linkage.symbols.knows_intern _⟩
  refine interns.bind fun symbol => leads_declare fun linkage ⟨declares, known⟩ => ?_
  apply Leads.of_get_bind
  rintro _ rfl
  apply Leads.of_set_bind
  split
  · next taken =>
      refine Leads.of_throw fun apart => ?_
      have member := (declares.method?_ne_none_iff method.header.argCount known).mp
        (Option.isSome_iff_ne_none.mp taken)
      exact (nodup_snoc.mp apart).1 member
  · next fresh =>
      apply Leads.of_pure
      rintro _ rfl
      exact declares.withMethod known (Option.not_isSome_iff_eq_none.mp fresh) _

theorem declares_declareFields (info : ClassDef) (more : List String) (isStatic : Bool) :
    Leads (Declares names qualified fields methods info) (fun _ => ¬ (fields ++ more).Nodup)
      (Declares names qualified (fields ++ more) methods) (declareFields info more isStatic) := by
  have each := leads_foldlM_distinct (fun fields => Declares names qualified fields methods)
    Prod.fst (fun fields info field => declares_declareField info field.1
      ⟨UInt32.ofNat field.2, isStatic⟩) fields (more.zipIdx 1) info
  rwa [List.zipIdx_map_fst] at each

/-! ## Units -/

/-- Whether classes of given names are registered beside others, if a condition holds and no two
names are equal; otherwise this fails. -/
def Admits (condition : Prop) (added : List String) (step : Link α) : Prop :=
  ∀ names, Leads (Enlists names) (fun _ => ¬ (condition ∧ (names ++ added).Nodup))
    (fun _ linkage => condition ∧ linkage.Enlists (names ++ added)) step

namespace Admits

variable {condition condition' : Prop} {added more : List String}

theorem of_pure (answer : α) : Admits True [] (pure answer : Link α) :=
  fun _ => Leads.of_pure fun _ enlists => ⟨trivial, by rwa [List.append_nil]⟩

theorem bind {step : Link α} {next : α → Link β} (h : Admits condition added step)
    (hn : ∀ answer, Admits condition' more (next answer)) :
    Admits (condition ∧ condition') (added ++ more) (step >>= next) := by
  intro names
  rw [← List.append_assoc]
  refine ((h names).allow fun _ fails all => ?_).bind fun answer => ?_
  · exact fails ⟨all.1.1, all.2.of_append_left⟩
  · rintro linkage ⟨holds, enlists⟩
    refine ((hn answer (names ++ added)).allow fun _ fails all => ?_).mono ?_ linkage enlists
    · exact fails ⟨all.1.2, all.2⟩
    · rintro _ _ ⟨holds', enlists'⟩
      exact ⟨⟨holds, holds'⟩, enlists'⟩

theorem congr {step : Link α} (h : Admits condition added step) (same : condition ↔ condition')
    (equal : added = more) : Admits condition' more step := by
  subst equal
  rwa [← propext same]

theorem mapM {items : List γ} {step : γ → Link α} {holds : γ → Prop} {adds : γ → List String}
    (h : ∀ item, Admits (holds item) (adds item) (step item)) :
    Admits (∀ item ∈ items, holds item) (items.flatMap adds) (items.mapM step) := by
  induction items with
  | nil => exact (of_pure _).congr (by simp) rfl
  | cons item rest ih =>
      rw [List.mapM_cons]
      have behind (answer : α) := ih.bind fun answers => of_pure (answer :: answers)
      refine ((h item).bind behind).congr ?_ ?_
      · rw [List.forall_mem_cons, and_true]
      · rw [List.append_nil, List.flatMap_cons]

theorem forM {items : List γ} {step : γ → Link PUnit} {holds : γ → Prop} {adds : γ → List String}
    (h : ∀ item, Admits (holds item) (adds item) (step item)) :
    Admits (∀ item ∈ items, holds item) (items.flatMap adds) (items.forM step) := by
  induction items with
  | nil => exact (of_pure _).congr (by simp) rfl
  | cons item rest ih =>
      exact ((h item).bind fun _ => ih).congr List.forall_mem_cons.symm List.flatMap_cons.symm

end Admits

theorem leads_registerOpened (info : ClassDef) :
    Leads (Opens names qualified info) (fun _ => ¬ (names ++ [qualified]).Nodup)
      (fun _ => Enlists (names ++ [qualified])) (inCatalog (Catalog.register info)) := by
  refine leads_inCatalog fun linkage opens => ?_
  apply Leads.of_get_bind
  rintro _ rfl
  have known : (linkage.catalog.find? info.qualified).isSome ↔ qualified ∈ names := by
    rw [← opens.catalog, ← opens.named, Option.isSome_iff_ne_none, ne_eq,
      Catalog.find?_eq_none_iff, not_not]
  split
  · next taken =>
      exact Leads.of_throw_bind fun apart => (nodup_snoc.mp apart).1 (known.mp taken)
  · next new => exact fun _ _ => opens.register (known.not.mp new)

theorem builds_opens (facades : List Facade) : Builds facades (Opens names qualified) where
  names name opens := opens.intern name
  field {info _ name} slot fresh opens := by
    refine ⟨opens.toEnlists, ?_⟩
    exact (ClassDef.reserve_kept ClassDef.qualified (fun _ _ _ => rfl) _ slot).trans opens.named
  methods _ opens := ⟨opens.toEnlists, opens.named⟩
  native _ _ opens := ⟨opens.toEnlists, opens.named⟩

/-- A native class can be declared if its fields have names of their own. -/
theorem leads_declareNative (info : ClassDef) (id : ClassId) (facade : Facade) :
    Leads (Declares names qualified [] [] info)
      (fun _ => ¬ (facade.staticFields ++ facade.instanceFields).Nodup)
      (fun info linkage => (facade.staticFields ++ facade.instanceFields).Nodup ∧
        linkage.Opens names qualified info) (declareNative info id facade) := by
  refine ((declares_declareFields info _ true).allow fun _ repeated apart => ?_).bind fun info =>
    (declares_declareFields info _ false).bind fun info => ?_
  · exact repeated apart.of_append_left
  · intro linkage declares
    have builds : Builds [facade] (Opens names qualified) := builds_opens [facade]
    refine ((builds.declareNativeMethods info _ _ _).bind fun info =>
      (builds.declareNativeMethods info _ _ _).bind fun info => Leads.of_pure ?_)
      linkage declares.toOpens
    exact fun _ opens =>
      ⟨declares.fieldsApart, builds.native facade List.mem_cons_self opens⟩

/-- A class with methods of its own can be declared if its members have names of their own. -/
theorem leads_declareMembers (id : ClassId) (base : Nat) (info : ClassDef)
    (newFields : List FieldHeader) (newMethods : List MethodInfo) :
    Leads (Declares names qualified [] [] info)
      (fun _ => ¬ ((newFields.map (·.name)).Nodup ∧
        (newMethods.map fun method => (method.header.name, method.header.argCount)).Nodup))
      (fun info linkage => ((newFields.map (·.name)).Nodup ∧
          (newMethods.map fun method => (method.header.name, method.header.argCount)).Nodup) ∧
        linkage.Opens names qualified info)
      (do
        let withFields ← newFields.foldlM
          (fun info field => declareField info field.name ⟨field.number, field.isStatic⟩) info
        newMethods.foldlM (declareMethod id base) withFields) := by
  have declares := leads_foldlM_distinct (fun fields => Declares names qualified fields [])
    FieldHeader.name (fun _ info field => declares_declareField info field.name
      ⟨field.number, field.isStatic⟩) [] newFields info
  refine (declares.allow fun _ repeated all => repeated all.1).bind fun withFields => ?_
  have offers := leads_foldlM_distinct
    (fun methods => Declares names qualified (newFields.map (·.name)) methods)
    (fun method : MethodInfo => (method.header.name, method.header.argCount))
    (fun _ => declares_declareMethod id base) [] newMethods withFields
  refine (offers.allow fun _ repeated all => repeated all.2).mono fun _ _ declares => ?_
  exact ⟨⟨declares.fieldsApart, declares.methodsApart⟩, declares.toOpens⟩

theorem admits_registerClass (facades : List Facade) (moduleName : String) (moduleId : ModuleId)
    (base : Nat) (info : ClassInfo) :
    Admits (info.Declarable facades) [qualify moduleName info.name]
      (registerClass facades moduleName moduleId base info) := by
  intro names
  -- Whatever the members are, the class is registered last.
  have complete {condition : Prop} {declare : Link ClassDef}
      (declares : Leads
        (Declares names (qualify moduleName info.name) [] [] (.new info.name moduleName moduleId))
        (fun _ => ¬ condition)
        (fun info' linkage => condition ∧
          linkage.Opens names (qualify moduleName info.name) info') declare) :
      Leads (Enlists names)
        (fun _ => ¬ (condition ∧ (names ++ [qualify moduleName info.name]).Nodup))
        (fun _ linkage => condition ∧ linkage.Enlists (names ++ [qualify moduleName info.name]))
        (declare >>= fun complete => inCatalog (Catalog.register complete)) := by
    refine (Leads.of_start _ (fun _ enlists => .new enlists info.name moduleName moduleId)
      (declares.allow fun _ fails all => fails all.1)).bind fun complete => ?_
    rintro linkage ⟨holds, opens⟩
    exact ((leads_registerOpened complete).allow fun _ fails all => fails all.2).mono
      (fun _ _ enlists => ⟨holds, enlists⟩) linkage opens
  refine Leads.of_get_bind fun linkage enlists => Leads.of_start (Enlists names) ?_ ?_
  · rintro _ rfl
    exact enlists
  · dsimp only
    unfold ClassInfo.Declarable
    generalize nativeType? info.kind = native
    cases native with
    | some nativeType =>
        dsimp only
        cases found : Facade.find? facades nativeType with
        | some facade =>
            simp only [Option.some.injEq, exists_eq_left']
            exact complete (leads_declareNative _ _ facade)
        | none => exact Leads.of_throw_bind (by simp)
    | none =>
        dsimp only
        rw [← bind_assoc]
        exact complete (leads_declareMembers _ base _ info.fields.toList info.methods.toList)

theorem admits_registerEnum (moduleName : String) (moduleId : ModuleId) (info : EnumInfo) :
    Admits (info.members.map (·.1)).Nodup [qualify moduleName info.name]
      (registerEnum moduleName moduleId info) := by
  intro names
  have opened := Leads.of_start _
    (fun _ (enlists : Enlists names _) => Declares.new enlists info.name moduleName moduleId)
    (declares_declareFields _ (info.members.map (·.1)) true)
  refine (opened.allow fun _ fails all => fails all.1).bind fun complete => ?_
  refine Leads.of_get_bind fun _ declares => ?_
  rintro linkage rfl
  exact ((leads_registerOpened _).allow fun _ fails all => fails all.2).mono
    (fun _ _ enlists => ⟨declares.fieldsApart, enlists⟩) linkage
    ⟨declares.toEnlists, declares.named⟩

theorem admits_registerUnit (facades : List Facade) (moduleId : ModuleId) (base : Nat)
    (view : Metadata) :
    Admits (view.Declarable facades) view.declaredNames
      (registerUnit facades moduleId base view) := by
  have classes : Admits (∀ info ∈ view.classes.toList, info.Declarable facades)
      (view.classes.toList.flatMap fun info => [qualify view.moduleName info.name])
      (view.classes.toList.mapM fun info => do
        let id ← registerClass facades view.moduleName moduleId base info
        pure (info.parent.map fun parent => (id, parent))) :=
    Admits.mapM fun info =>
      ((admits_registerClass facades view.moduleName moduleId base info).bind fun _ =>
        Admits.of_pure _).congr (iff_of_eq (and_true _)) (List.append_nil _)
  have enums : Admits (∀ info ∈ view.enums.toList, (info.members.map (·.1)).Nodup)
      (view.enums.toList.flatMap fun info => [qualify view.moduleName info.name])
      (view.enums.toList.forM fun info => do
        let _ ← registerEnum view.moduleName moduleId info) :=
    Admits.forM fun info =>
      ((admits_registerEnum view.moduleName moduleId info).bind fun _ =>
        Admits.of_pure _).congr (iff_of_eq (and_true _)) (List.append_nil _)
  refine (classes.bind fun _ => enums.bind fun _ => Admits.of_pure _).congr ?_ ?_
  · rw [and_true]
    rfl
  · rw [List.append_nil, Metadata.declaredNames, List.map_eq_flatMap, List.map_eq_flatMap]

/-- The first part of linking: the classes of units are registered, one unit after the other. The
answer are those that have a parent. -/
def registerUnits (facades : List Facade) (units : List LoadedUnit) :
    Link (List (List (Metadata × ClassId × String))) :=
  let bases := units.scanl (fun base unit => base + unit.code.length) 0
  (units.zip bases).zipIdx.mapM fun ((unit, base), index) => do
    let children ← registerUnit facades ⟨index⟩ base unit.view
    pure (children.map fun (id, parent) => (unit.view, id, parent))

theorem admits_registerUnits (facades : List Facade) (units : List LoadedUnit) :
    Admits (∀ unit ∈ units, unit.view.Declarable facades)
      (units.flatMap (·.view.declaredNames)) (registerUnits facades units) := by
  have places : (units.zip (units.scanl (fun base unit => base + unit.code.length) 0)).zipIdx.map
      (Prod.fst ∘ Prod.fst) = units := by
    rw [← List.map_map, List.zipIdx_map_fst, List.map_fst_zip]
    rw [List.length_scanl]
    exact Nat.le_succ _
  have each : Admits _ _ (registerUnits facades units) := Admits.mapM fun place =>
    (admits_registerUnit facades ⟨place.2⟩ place.1.2 place.1.1.view).bind fun _ => Admits.of_pure _
  refine each.congr ?_ ?_
  · conv_rhs => rw [← places]
    simp only [List.forall_mem_map, and_true, Function.comp_apply]
  · conv_rhs => rw [← places, List.flatMap_map]
    simp only [List.append_nil, Function.comp_apply]

theorem enlists_empty : Enlists [] ⟨.empty, .empty⟩ :=
  ⟨SymbolTable.distinct_empty, rfl, List.nodup_nil⟩

/-- Units can be registered exactly if each of their classes can be declared by itself and no two
have one qualified name. -/
theorem exists_registerUnits_iff (facades : List Facade) (units : List LoadedUnit) :
    (∃ children linkage, registerUnits facades units ⟨.empty, .empty⟩ = .ok children linkage) ↔
      (∀ unit ∈ units, unit.view.Declarable facades) ∧
        (units.flatMap (·.view.declaredNames)).Nodup := by
  have admits := admits_registerUnits facades units []
  constructor
  · rintro ⟨children, linkage, registered⟩
    obtain ⟨declarable, enlists⟩ := admits.of_ok enlists_empty registered
    exact ⟨declarable, enlists.apart⟩
  · intro fits
    cases registered : registerUnits facades units ⟨.empty, .empty⟩ with
    | ok children linkage => exact ⟨children, linkage, rfl⟩
    | error fault linkage => exact absurd fits (admits.of_error enlists_empty registered)

theorem qualifiedNames_of_registerUnits {facades : List Facade} {units : List LoadedUnit}
    {children : List (List (Metadata × ClassId × String))} {linkage : Linkage}
    (registered : registerUnits facades units ⟨.empty, .empty⟩ = .ok children linkage) :
    linkage.catalog.qualifiedNames = units.flatMap (·.view.declaredNames) :=
  ((admits_registerUnits facades units []).of_ok enlists_empty registered).2.catalog

/-- Units that can be registered can be in every other order, and what is registered has the same
names. -/
theorem exists_registerUnits_of_perm {facades : List Facade} {units units' : List LoadedUnit}
    (reordered : units.Perm units') {children : List (List (Metadata × ClassId × String))}
    {linkage : Linkage}
    (registered : registerUnits facades units ⟨.empty, .empty⟩ = .ok children linkage) :
    ∃ children' linkage', registerUnits facades units' ⟨.empty, .empty⟩ = .ok children' linkage' ∧
      linkage.catalog.qualifiedNames.Perm linkage'.catalog.qualifiedNames := by
  have names := reordered.flatMap_right (·.view.declaredNames)
  obtain ⟨declarable, apart⟩ :=
    (exists_registerUnits_iff facades units).mp ⟨children, linkage, registered⟩
  obtain ⟨children', linkage', registered'⟩ := (exists_registerUnits_iff facades units').mpr
    ⟨fun unit member => declarable unit (reordered.mem_iff.mpr member), names.nodup_iff.mp apart⟩
  refine ⟨children', linkage', registered', ?_⟩
  rwa [qualifiedNames_of_registerUnits registered, qualifiedNames_of_registerUnits registered']

/-! ## Resolving -/

/-- Whether a catalog is one in which linking resolves names: the classes of units have been
registered, and some of them may have been given parents since. -/
def Resolving (facades : List Facade) (units : List LoadedUnit) (catalog : Catalog) : Prop :=
  ∃ children linkage given middle,
    registerUnits facades units ⟨.empty, .empty⟩ = .ok children linkage ∧
      given <+: children.flatten ∧
      (given.forM fun (view, id, parent) => setParent view id parent : Link PUnit) linkage =
        .ok ⟨⟩ middle ∧
      middle.catalog = catalog

theorem qualifiedNames_modify (catalog : Catalog) (id : ClassId) {change : ClassDef → ClassDef}
    (named : ∀ info, (change info).qualified = info.qualified) :
    (catalog.modify id change).qualifiedNames = catalog.qualifiedNames := by
  apply List.ext_getElem?
  intro place
  unfold Catalog.qualifiedNames Catalog.modify
  rw [Array.toList_modify, List.getElem?_map, List.getElem?_map, List.getElem?_modify,
    Option.map_eq_map, Option.map_map]
  congr 1
  funext info
  simp only [Function.comp_apply]
  split
  · exact named info
  · rfl

theorem keepsNames_setParent {names : List String} (view : Metadata) (id : ClassId)
    (parentName : String) :
    Upheld (fun linkage => linkage.catalog.qualifiedNames = names) (fun _ => True) (fun _ => True)
      (setParent view id parentName) := by
  have resolves : Upheld (fun linkage => linkage.catalog.qualifiedNames = names) (fun _ => True)
      (fun _ => True) (resolve view parentName) := by
    refine Upheld.of_get.bind fun linkage _ => ?_
    split
    · exact Upheld.of_pure trivial
    · exact Upheld.of_throw trivial
  refine resolves.bind fun parent _ => Upheld.of_get.bind fun linkage _ => ?_
  dsimp only
  split
  · exact Upheld.of_throw_bind trivial
  · refine Upheld.of_modify fun linkage same => ?_
    rw [← same]
    exact qualifiedNames_modify _ _ fun _ => rfl

theorem Resolving.qualifiedNames_eq {facades : List Facade} {units : List LoadedUnit}
    {catalog : Catalog} (h : Resolving facades units catalog) :
    catalog.qualifiedNames = units.flatMap (·.view.declaredNames) ∧
      catalog.qualifiedNames.Nodup := by
  obtain ⟨children, linkage, given, middle, registered, -, parented, rfl⟩ := h
  obtain ⟨-, enlists⟩ :=
    (admits_registerUnits facades units []).of_ok enlists_empty registered
  have keeps : Upheld (fun linkage => linkage.catalog.qualifiedNames =
      units.flatMap (·.view.declaredNames)) (fun _ => True) (fun _ => True)
      (given.forM fun (view, id, parent) => setParent view id parent) :=
    Upheld.of_forM fun child _ => keepsNames_setParent child.1 child.2.1 child.2.2
  have same := (keeps.of_ok enlists.catalog parented).2
  exact ⟨same, same ▸ enlists.apart⟩

/-- **Names of classes resolve alike in any order.** Among classes of different names, a name
resolves to what it means. The outcome does not change, but for the order of the candidates and how
often each of them is listed, when the classes are numbered differently and the same modules are
used in another order and any number of times. Units that can be registered in one order can be in
any other, and names resolve alike whenever linking resolves them. -/
theorem names_resolve_alike {catalog catalog' : Catalog} {uses uses' : List String}
    (distinct : catalog.qualifiedNames.Nodup)
    (reordered : catalog.qualifiedNames.Perm catalog'.qualifiedNames)
    (used : ∀ used, used ∈ uses ↔ used ∈ uses') (moduleName name : String) :
    (∀ outcome, resolveClass catalog moduleName uses name = outcome ↔
        Means catalog moduleName uses name outcome) ∧
      Alike catalog catalog' uses uses' (resolveClass catalog moduleName uses name)
        (resolveClass catalog' moduleName uses' name) ∧
      ∀ facades units units', units.Perm units' → ∀ catalog, Resolving facades units catalog →
        catalog.qualifiedNames.Nodup ∧ (∃ catalog', Resolving facades units' catalog') ∧
          ∀ catalog', Resolving facades units' catalog' →
            Alike catalog catalog' uses uses' (resolveClass catalog moduleName uses name)
              (resolveClass catalog' moduleName uses' name) := by
  refine ⟨fun _ => resolveClass_eq_iff distinct,
    resolveClass_alike distinct reordered used moduleName name, ?_⟩
  intro facades units units' reordered catalog resolving
  obtain ⟨names, distinct⟩ := resolving.qualifiedNames_eq
  refine ⟨distinct, ?_, fun catalog' resolving' => ?_⟩
  · obtain ⟨children, linkage, -, -, registered, -⟩ := resolving
    obtain ⟨children', linkage', registered', -⟩ :=
      exists_registerUnits_of_perm reordered registered
    exact ⟨linkage'.catalog, children', linkage', [], linkage', registered', List.nil_prefix, rfl,
      rfl⟩
  · have names' := resolving'.qualifiedNames_eq.1
    refine resolveClass_alike distinct ?_ used moduleName name
    rw [names, names']
    exact reordered.flatMap_right _

/-- Two modules that both have a class of one name. -/
def sharedNames : Catalog :=
  ⟨#[.new "Main" "app" ⟨0⟩, .new "Util" "lib" ⟨1⟩, .new "Util" "other" ⟨2⟩]⟩

/-- The same classes, loaded the other way round. -/
def sharedNamesReversed : Catalog :=
  ⟨#[.new "Util" "other" ⟨0⟩, .new "Util" "lib" ⟨1⟩, .new "Main" "app" ⟨2⟩]⟩

/-- Both modules are used, in one order and in the other, and then one of them again. -/
theorem names_resolve_alike_sharedNames :
    resolveClass sharedNames "app" ["lib", "other"] "Util" =
        .error (.ambiguousClass "Util" ["lib.Util", "other.Util"]) ∧
      Alike sharedNames sharedNamesReversed ["lib", "other"] ["other", "lib", "lib"]
        (resolveClass sharedNames "app" ["lib", "other"] "Util")
        (resolveClass sharedNamesReversed "app" ["other", "lib", "lib"] "Util") :=
  ⟨by decide +kernel, (names_resolve_alike (by decide +kernel) (by decide +kernel)
    (fun _ => by simp [or_comm]) "app" "Util").2.1⟩

/-- A module that is used again after another one is a candidate again. -/
theorem candidate_listed_again :
    (∀ used, used ∈ ["lib", "other"] ↔ used ∈ ["lib", "other", "lib"]) ∧
      resolveClass sharedNames "app" ["lib", "other"] "Util" =
        .error (.ambiguousClass "Util" ["lib.Util", "other.Util"]) ∧
      resolveClass sharedNames "app" ["lib", "other", "lib"] "Util" =
        .error (.ambiguousClass "Util" ["lib.Util", "other.Util", "lib.Util"]) ∧
      ¬ ["lib.Util", "other.Util"].Perm ["lib.Util", "other.Util", "lib.Util"] :=
  ⟨fun _ => by simp; tauto, by decide +kernel, by decide +kernel, by decide⟩

end Link

end ObjectMachine
