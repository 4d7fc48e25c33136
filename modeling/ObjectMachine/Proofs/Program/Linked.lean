import ObjectMachine.Program.Linker
import ObjectMachine.Proofs.Upheld

/-!
# What linking keeps

A method is declared in a class, under its name and with an address in the code of its unit, and
stays what it is: registering, resolving and flattening only copy methods, and numbers of names and
classes do not change. The tables of a module are as long as those of its unit. Nothing but the
shrinking of branches fails for reasons of the code's layout.
-/

namespace ObjectMachine

namespace LoadError

def isOptimize : LoadError → Bool
  | optimize _ => true
  | _ => false

end LoadError

/-! ## Tables -/

/-- Whether the tables of a module have the sizes that its unit declares. -/
def ModuleRecord.Fits (record : ModuleRecord) (view : Metadata) : Prop :=
  record.classRefs.size = view.classRefs.length ∧
    record.fieldNames.size = view.fieldAccesses.length ∧
    record.methodCalls.size = view.methodCalls.length ∧
    record.strings.size = view.strings.length

/-! ## Names -/

namespace SymbolTable

/-- Whether a number is that of a name. -/
def Knows (symbols : SymbolTable) (symbol : Symbol) (name : String) : Prop :=
  symbols.names[symbol.index]? = some name

theorem knows_intern (symbols : SymbolTable) (name : String) :
    (symbols.intern name).2.Knows (symbols.intern name).1 name := by
  unfold intern
  split
  · next symbol found =>
      obtain ⟨_, here, rfl⟩ := Option.map_eq_some_iff.mp found
      obtain ⟨place, first, rfl⟩ := Option.map_eq_some_iff.mp here
      have same := (Array.finIdxOf?_eq_some_iff.mp first).1
      exact Array.getElem?_eq_some_iff.mpr ⟨place.isLt, same⟩
  · exact Array.getElem?_push_size

/-- New names leave the numbers of the others as they are. -/
theorem Knows.intern {symbols : SymbolTable} {symbol : Symbol} {name : String}
    (h : symbols.Knows symbol name) (other : String) :
    (symbols.intern other).2.Knows symbol name := by
  unfold SymbolTable.intern
  split
  · exact h
  · have inside := (Array.getElem?_eq_some_iff.mp h).1
    exact (Array.getElem?_push_lt inside).trans (Array.getElem?_eq_getElem inside ▸ h)

/-- Whether a method is that of a header, under its name. -/
structure Describes (symbols : SymbolTable) (header : MethodHeader) (key : MethodKey)
    (entry : MethodEntry) : Prop where
  name : symbols.Knows key.name header.name
  arity : key.arity = header.argCount
  argCount : entry.argCount = header.argCount
  isStatic : entry.isStatic = header.isStatic

end SymbolTable

namespace Catalog

/-- Whether a number is that of the class of a qualified name. -/
def Knows (catalog : Catalog) (id : ClassId) (qualified : String) : Prop :=
  (catalog.classes[id.index]?).map (·.qualified) = some qualified

def methods (catalog : Catalog) : List (MethodKey × MethodEntry) :=
  catalog.classes.toList.flatMap (·.methods)

variable {catalog : Catalog}

theorem mem_methods_of_get {id : ClassId} {method : MethodKey × MethodEntry}
    (h : method ∈ (catalog.get id).methods) : method ∈ catalog.methods := by
  unfold Catalog.get at h
  rw [Array.getD_eq_getD_getElem?] at h
  cases found : catalog.classes[id.index]? with
  | none =>
      rw [found] at h
      cases h
  | some info =>
      rw [found] at h
      exact List.mem_flatMap.mpr ⟨info, Array.mem_toList_iff.mpr (Array.mem_of_getElem? found), h⟩

theorem Knows.push {id : ClassId} {qualified : String} (h : catalog.Knows id qualified)
    (info : ClassDef) : Catalog.Knows ⟨catalog.classes.push info⟩ id qualified := by
  obtain ⟨other, found, rfl⟩ := Option.map_eq_some_iff.mp h
  obtain ⟨inside, rfl⟩ := Array.getElem?_eq_some_iff.mp found
  exact congrArg _ (Array.getElem?_push_lt inside)

theorem mem_methods_push {info : ClassDef} {method : MethodKey × MethodEntry}
    (h : method ∈ Catalog.methods ⟨catalog.classes.push info⟩) :
    method ∈ catalog.methods ∨ method ∈ info.methods := by
  rw [methods, Array.toList_push, List.flatMap_append, List.flatMap_singleton] at h
  exact List.mem_append.mp h

theorem Knows.modify {id : ClassId} {qualified : String} (h : catalog.Knows id qualified)
    (other : ClassId) {change : ClassDef → ClassDef}
    (named : ∀ info, (change info).qualified = info.qualified) :
    (catalog.modify other change).Knows id qualified := by
  unfold Knows Catalog.modify at *
  rw [Array.getElem?_modify]
  split
  · rw [Option.map_map, ← h]
    exact congrArg (Option.map · _) (funext named)
  · exact h

theorem mem_methods_modify {id : ClassId} {change : ClassDef → ClassDef}
    (own : ∀ info, ∀ method ∈ (change info).methods,
      method ∈ info.methods ∨ method ∈ catalog.methods)
    {method : MethodKey × MethodEntry} (h : method ∈ (catalog.modify id change).methods) :
    method ∈ catalog.methods := by
  unfold Catalog.modify methods at h
  rw [Array.toList_modify] at h
  obtain ⟨other, listed, member⟩ := List.mem_flatMap.mp h
  obtain ⟨place, found⟩ := List.getElem?_of_mem listed
  rw [List.getElem?_modify] at found
  obtain ⟨info, here, rfl⟩ := Option.map_eq_some_iff.mp found
  have before (old : method ∈ info.methods) : method ∈ catalog.methods :=
    List.mem_flatMap.mpr ⟨info, List.mem_of_getElem? here, old⟩
  split at member
  · rcases own info method member with old | old
    · exact before old
    · exact old
  · exact before member

end Catalog

namespace Catalog

variable {kept : Catalog → Prop} {allowed : LoadError → Prop}
  (cycles : ∀ name, allowed (.inheritanceCycle name))

include cycles

/-- Flattening keeps what is kept when one class is given the members of its parent. -/
theorem upheld_flatten {notInherited : List Symbol}
    (expands : ∀ catalog id, kept catalog → kept (catalog.expand notInherited id)) (bound : Nat)
    (waiting : List ClassId) (id : ClassId) :
    Upheld kept allowed (fun _ => True) (flatten notInherited bound waiting id) := by
  induction bound generalizing waiting id with
  | zero => exact Upheld.of_get.bind fun _ _ => Upheld.of_throw (cycles _)
  | succ bound ih =>
      have last : Upheld kept allowed (fun _ => True)
          (modifyGet fun catalog => ((), catalog.expand notInherited id) :
            EStateM LoadError Catalog Unit) :=
        Upheld.of_modifyGet fun _ h => ⟨trivial, expands _ id h⟩
      refine Upheld.of_get.bind fun catalog _ => ?_
      dsimp only
      split
      · exact Upheld.of_pure trivial
      · split
        · exact Upheld.of_throw (cycles _)
        · split
          · exact (ih _ _).bind fun _ _ => last
          · exact last

theorem upheld_flattenAll
    (expands : ∀ {notInherited} catalog id, kept catalog → kept (catalog.expand notInherited id))
    (symbols : SymbolTable) : Upheld kept allowed (fun _ => True) (flattenAll symbols) :=
  Upheld.of_get.bind fun _ _ => Upheld.of_forM fun id _ =>
    upheld_flatten cycles expands _ [] id

end Catalog

/-! ## Declarations -/

section

variable (Given : ModuleId → Nat → String → MethodHeader → Prop)

/-- Whether a method is a native one or a given one of a module: one that a class of a qualified
name declares, the unit of the module being at an address. -/
def Listed (symbols : SymbolTable) (Named : ClassId → String → Prop) (key : MethodKey)
    (entry : MethodEntry) : Prop :=
  entry.body = .native ∨ ∃ base qualified header, Given entry.moduleId base qualified header ∧
    Named entry.declaring qualified ∧ symbols.Describes header key entry ∧
    entry.body = .bytecode (base + header.codeOffset.toNat) header.localCount

def Linkage.Declared (linkage : Linkage) : Prop :=
  ∀ method ∈ linkage.catalog.methods,
    Listed Given linkage.symbols linkage.catalog.Knows method.1 method.2

/-- Whether a class that will be registered under the next number has native and given methods
only. -/
structure Linkage.Prepares (moduleId : ModuleId) (qualified : String) (id : ClassId)
    (info : ClassDef) (linkage : Linkage) : Prop where
  declared : linkage.Declared Given
  size : linkage.catalog.classes.size = id.index
  module : info.moduleId = moduleId
  named : info.qualified = qualified
  methods : ∀ method ∈ info.methods, Listed Given linkage.symbols
    (fun declaring name => declaring = id ∧ name = qualified) method.1 method.2

/-- Whether a part of linking keeps to given methods, and does not fail over the layout of the
code. -/
abbrev Link.Keeps (answers : α → Prop) (step : Link α) : Prop :=
  Upheld (Linkage.Declared Given) (·.isOptimize = false) answers step

/-- Whether a part of linking, where it does not fail over the layout of the code, has results of a
kind. -/
abbrev Link.Makes (start : Linkage → Prop) (results : α → Linkage → Prop) (step : Link α) : Prop :=
  Leads start (fun fault : LoadError => fault.isOptimize = false) results step

end

variable {Given : ModuleId → Nat → String → MethodHeader → Prop}

theorem Listed.imp {symbols symbols' : SymbolTable} {Named Named' : ClassId → String → Prop}
    {key : MethodKey} {entry : MethodEntry} (h : Listed Given symbols Named key entry)
    (names : ∀ symbol name, symbols.Knows symbol name → symbols'.Knows symbol name)
    (classes : ∀ id qualified, Named id qualified → Named' id qualified) :
    Listed Given symbols' Named' key entry := by
  rcases h with native | ⟨base, qualified, header, given, named, described, body⟩
  · exact .inl native
  · exact .inr ⟨base, qualified, header, given, classes _ _ named,
      { described with name := names _ _ described.name }, body⟩

namespace Linkage

theorem declared_empty : Declared Given ⟨.empty, .empty⟩ :=
  fun _ none => absurd none List.not_mem_nil

theorem Declared.intern {linkage : Linkage} (h : linkage.Declared Given) (name : String) :
    Declared Given { linkage with symbols := (linkage.symbols.intern name).2 } :=
  fun method member => (h method member).imp (fun _ _ known => known.intern name)
    fun _ _ same => same

theorem Declared.modify {linkage : Linkage} (h : linkage.Declared Given) (id : ClassId)
    {change : ClassDef → ClassDef} (named : ∀ info, (change info).qualified = info.qualified)
    (own : ∀ info, ∀ method ∈ (change info).methods,
      method ∈ info.methods ∨ method ∈ linkage.catalog.methods) :
    Declared Given { linkage with catalog := linkage.catalog.modify id change } :=
  fun method member => (h method (Catalog.mem_methods_modify own member)).imp (fun _ _ same => same)
    fun _ _ known => known.modify _ named

theorem Declared.expand {linkage : Linkage} (h : linkage.Declared Given)
    (notInherited : List Symbol) (id : ClassId) :
    Declared Given { linkage with catalog := linkage.catalog.expand notInherited id } := by
  refine h.modify id (fun info => ?_) fun info method member => ?_
  · split
    · rfl
    · rfl
  · split at member
    · rcases List.mem_append.mp member with own | inherited
      · exact .inl own
      · exact .inr (Catalog.mem_methods_of_get
          (List.mem_of_mem_filter (List.mem_of_mem_filter inherited)))
    · exact .inl member

theorem Declared.prepares {linkage : Linkage} (h : linkage.Declared Given)
    (name moduleName : String) (moduleId : ModuleId) :
    linkage.Prepares Given moduleId (moduleName ++ "." ++ name) ⟨linkage.catalog.classes.size⟩
      (.new name moduleName moduleId) :=
  ⟨h, rfl, rfl, rfl, fun _ none => absurd none List.not_mem_nil⟩

namespace Prepares

variable {moduleId : ModuleId} {qualified : String} {id : ClassId} {info : ClassDef}
  {linkage : Linkage} (h : linkage.Prepares Given moduleId qualified id info)

include h

theorem intern (name : String) :
    Prepares Given moduleId qualified id info
      { linkage with symbols := (linkage.symbols.intern name).2 } where
  declared := h.declared.intern name
  size := h.size
  module := h.module
  named := h.named
  methods method member :=
    (h.methods method member).imp (fun _ _ known => known.intern name) fun _ _ own => own

theorem reserve (field : FieldSlot) :
    linkage.Prepares Given moduleId qualified id (info.reserve field) := by
  unfold ClassDef.reserve
  split
  · exact ⟨h.declared, h.size, h.module, h.named, h.methods⟩
  · exact ⟨h.declared, h.size, h.module, h.named, h.methods⟩

theorem withMethods {methods : List (MethodKey × MethodEntry)}
    (listed : ∀ method ∈ methods, method ∈ info.methods ∨ Listed Given linkage.symbols
      (fun declaring name => declaring = id ∧ name = qualified) method.1 method.2) :
    linkage.Prepares Given moduleId qualified id { info with methods } := by
  refine ⟨h.declared, h.size, h.module, h.named, fun method member => ?_⟩
  rcases listed method member with old | new
  · exact h.methods method old
  · exact new

theorem register :
    Declared Given { linkage with catalog := ⟨linkage.catalog.classes.push info⟩ } := by
  intro method member
  rcases Catalog.mem_methods_push member with old | new
  · exact (h.declared method old).imp (fun _ _ same => same) fun _ _ known => known.push info
  · refine (h.methods method new).imp (fun _ _ same => same) ?_
    rintro _ _ ⟨rfl, rfl⟩
    rw [Catalog.Knows, ← h.size, Array.getElem?_push_size, Option.map_some, h.named]

end Prepares

end Linkage

theorem mem_putEntry [BEq κ] {entries : List (κ × ν)} {key : κ} {value : ν} {entry : κ × ν}
    (h : entry ∈ putEntry entries key value) : entry ∈ entries ∨ entry = (key, value) := by
  unfold putEntry at h
  split at h
  · obtain ⟨old, member, same⟩ := List.mem_map.mp h
    split at same
    · exact .inr same.symm
    · exact .inl (same ▸ member)
  · rcases List.mem_append.mp h with member | member
    · exact .inl member
    · exact .inr (List.mem_singleton.mp member)

namespace Link

open Linkage

section

variable {allowed : LoadError → Prop}

theorem leads_inCatalog {start : Linkage → Prop} {results : α → Linkage → Prop}
    {step : EStateM LoadError Catalog α}
    (h : ∀ linkage, start linkage → Leads (· = linkage.catalog) allowed
      (fun answer catalog => results answer { linkage with catalog }) step) :
    Leads start allowed results (inCatalog step) := by
  intro linkage hl
  have reached := h linkage hl linkage.catalog rfl
  unfold inCatalog
  cases hr : step linkage.catalog with
  | ok value catalog =>
      rw [hr] at reached
      exact reached
  | error fault catalog =>
      rw [hr] at reached
      exact reached

theorem leads_declare {info : ClassDef} {start : Linkage → Prop}
    {results : ClassDef → Linkage → Prop} {step : SymbolTable → EStateM LoadError ClassDef Unit}
    (h : ∀ linkage, start linkage → Leads (· = info) allowed (fun _ info => results info linkage)
      (step linkage.symbols)) : Leads start allowed results (declare info step) := by
  refine Leads.of_get_bind fun linkage hl => ?_
  split
  · next declared =>
      refine Leads.of_pure fun state same => ?_
      rw [same]
      exact (h linkage hl).of_ok rfl declared
  · next failed => exact Leads.of_throw ((h linkage hl).of_error rfl failed)

end

theorem makes_declare {info : ClassDef} {start : Linkage → Prop}
    {results : ClassDef → Linkage → Prop} {step : SymbolTable → EStateM LoadError ClassDef Unit}
    (before : ∀ linkage, start linkage → results info linkage)
    (h : ∀ linkage, start linkage → Upheld (results · linkage) (·.isOptimize = false)
      (fun _ => True) (step linkage.symbols)) : Makes start results (declare info step) :=
  leads_declare fun linkage hl => Leads.of_start _ (fun _ same => same ▸ before linkage hl)
    (Leads.mono (h linkage hl) fun _ _ => And.right)

section

variable {moduleId : ModuleId} {qualified : String} {id : ClassId}

theorem makes_intern (info : ClassDef) (name : String) :
    Makes (Prepares Given moduleId qualified id info)
      (fun symbol linkage => linkage.Prepares Given moduleId qualified id info ∧
        linkage.symbols.Knows symbol name) (intern name) :=
  Leads.of_modifyGet fun linkage h => ⟨h.intern name, linkage.symbols.knows_intern name⟩

theorem makes_declareField (info : ClassDef) (name : String) (slot : FieldSlot) :
    Makes (Prepares Given moduleId qualified id info) (Prepares Given moduleId qualified id)
      (declareField info name slot) := by
  refine (makes_intern info name).bind fun symbol => makes_declare (fun _ h => h.1)
    fun linkage _ => Upheld.of_get.bind fun before h => (Upheld.of_set ?_).bind fun _ _ => ?_
  · exact ⟨h.declared, h.size, h.module, h.named, h.methods⟩
  · split
    · exact .of_throw_bind (by rfl)
    · exact .of_modify fun _ h => h.reserve slot

theorem makes_declareFields (info : ClassDef) (names : List String) (isStatic : Bool) :
    Makes (Prepares Given moduleId qualified id info) (Prepares Given moduleId qualified id)
      (declareFields info names isStatic) :=
  Leads.of_foldlM (fun _ _ info => makes_declareField info _ _) info

theorem makes_declareNativeMethods (info : ClassDef) (methods : List MethodRef)
    (isStatic : Bool) :
    Makes (Prepares Given moduleId qualified id info) (Prepares Given moduleId qualified id)
      (declareNativeMethods info id methods isStatic) := by
  refine Leads.of_foldlM (fun method _ info => (makes_intern info method.name).bind fun name => ?_)
    info
  dsimp only
  split
  · exact Leads.of_pure fun _ h => h.1
  · refine Leads.of_pure fun linkage h => h.1.withMethods fun other member => ?_
    rcases List.mem_append.mp member with old | new
    · exact .inl old
    · obtain rfl := List.mem_singleton.mp new
      exact .inr (.inl rfl)

theorem makes_declareNative (info : ClassDef) (facade : Facade) :
    Makes (Prepares Given moduleId qualified id info) (Prepares Given moduleId qualified id)
      (declareNative info id facade) :=
  (makes_declareFields info _ _).bind fun info => (makes_declareFields info _ _).bind fun info =>
    (makes_declareNativeMethods info _ _).bind fun info =>
      (makes_declareNativeMethods info _ _).bind fun _ => Leads.of_pure fun _ h =>
        ⟨h.declared, h.size, h.module, h.named, h.methods⟩

theorem makes_declareMethod {base : Nat} {method : MethodInfo}
    (given : Given moduleId base qualified method.header) (info : ClassDef) :
    Makes (Prepares Given moduleId qualified id info) (Prepares Given moduleId qualified id)
      (declareMethod id base info method) := by
  refine (makes_intern info _).bind fun name => makes_declare (fun _ h => h.1)
    fun linkage known => Upheld.of_get.bind fun before h => (Upheld.of_set ?_).bind fun _ _ => ?_
  · refine h.withMethods fun other member => (mem_putEntry member).imp_right ?_
    rintro rfl
    refine .inr ⟨base, qualified, method.header, ?_, ⟨rfl, rfl⟩, ⟨known.2, rfl, rfl, rfl⟩, rfl⟩
    exact known.1.module.symm ▸ given
  · split
    · exact .of_throw (by rfl)
    · exact .of_pure trivial

theorem makes_register (info : ClassDef) :
    Makes (Prepares Given moduleId qualified id info) (fun _ => Declared Given)
      (inCatalog (Catalog.register info)) := by
  refine leads_inCatalog fun linkage h => Leads.of_get_bind ?_
  rintro _ rfl
  split
  · exact Leads.of_throw_bind (by rfl)
  · exact fun _ _ => h.register

end

end Link

namespace Link.Keeps

open Link Linkage Upheld

theorem of_intern (name : String) : Keeps Given (fun _ => True) (intern name) :=
  of_modifyGet fun _ h => ⟨trivial, h.intern name⟩

/-- The given methods are those that a class of a module declares, if its unit starts at an
address. -/
def Placed (Given : ModuleId → Nat → String → MethodHeader → Prop) (moduleName : String)
    (moduleId : ModuleId) (base : Nat) (info : ClassInfo) : Prop :=
  ∀ method ∈ info.methods.toList,
    Given moduleId base (moduleName ++ "." ++ info.name) method.header

theorem of_registerClass (facades : List Facade) {moduleName : String} {moduleId : ModuleId}
    {base : Nat} {info : ClassInfo} (placed : Placed Given moduleName moduleId base info) :
    Keeps Given (fun _ => True) (registerClass facades moduleName moduleId base info) := by
  have whole : Makes (Declared Given) (fun _ => Declared Given)
      (registerClass facades moduleName moduleId base info) := by
    refine Leads.of_get_bind fun linkage hl => Leads.of_start (Prepares Given moduleId
      (moduleName ++ "." ++ info.name) ⟨linkage.catalog.classes.size⟩
      (.new info.name moduleName moduleId)) ?_ ?_
    · rintro _ rfl
      exact hl.prepares info.name moduleName moduleId
    · dsimp only
      split
      · split
        · exact (makes_declareNative _ _).bind makes_register
        · exact Leads.of_throw_bind (by rfl)
      · refine (Leads.of_foldlM (fun field _ info => ?_) _).bind fun withFields =>
          (Leads.of_foldlM (fun method member info => ?_) _).bind makes_register
        · exact makes_declareField info field.name ⟨field.number, field.isStatic⟩
        · exact makes_declareMethod (placed method member) info
  exact whole.mono fun _ _ h => ⟨trivial, h⟩

theorem of_registerEnum (moduleName : String) (moduleId : ModuleId) (info : EnumInfo) :
    Keeps Given (fun _ => True) (registerEnum moduleName moduleId info) := by
  have whole : Makes (Declared Given) (fun _ => Declared Given)
      (registerEnum moduleName moduleId info) := by
    intro begun hl
    have fresh := hl.prepares info.name moduleName moduleId
    refine ((makes_declareFields _ _ _).bind fun complete => ?_) begun fresh
    refine Leads.of_get_bind fun linkage h => Leads.of_start (Prepares Given moduleId
      (moduleName ++ "." ++ info.name) ⟨begun.catalog.classes.size⟩ _) ?_ (makes_register _)
    rintro _ rfl
    exact ⟨h.declared, h.size, h.module, h.named, h.methods⟩
  exact whole.mono fun _ _ h => ⟨trivial, h⟩

theorem of_registerUnit (facades : List Facade) {moduleId : ModuleId} {base : Nat}
    {view : Metadata} (placed : ∀ info ∈ view.classes.toList,
      Placed Given view.moduleName moduleId base info) :
    Keeps Given (fun _ => True) (registerUnit facades moduleId base view) := by
  refine (of_mapM (R := fun _ _ => True) fun info member => ?_).bind fun _ _ =>
    (of_forM fun info _ => ?_).bind fun _ _ => of_pure trivial
  · exact (of_registerClass facades (placed info member)).bind fun _ _ => of_pure trivial
  · exact (of_registerEnum _ _ info).bind fun _ _ => of_pure trivial

/-! ## References -/

theorem of_resolve (view : Metadata) (name : String) :
    Keeps Given (fun _ => True) (resolve view name) := by
  refine of_get.bind fun linkage _ => ?_
  split
  · exact of_pure trivial
  · next fault failed =>
      refine of_throw ?_
      unfold resolveClass at failed
      split at failed
      · cases failed
      · dsimp only at failed
        split at failed
        · cases failed
          rfl
        · cases failed
        · cases failed
          rfl

theorem of_setParent (view : Metadata) (id : ClassId) (parentName : String) :
    Keeps Given (fun _ => True) (setParent view id parentName) := by
  refine (of_resolve view parentName).bind fun parent _ => of_get.bind fun linkage _ => ?_
  dsimp only
  split
  · exact of_throw_bind (by rfl)
  · exact of_modify fun linkage hl => hl.modify id (fun _ => rfl) fun _ _ => .inl

theorem of_moduleRecord (view : Metadata) :
    Keeps Given (·.Fits view) (moduleRecord view) := by
  refine (of_mapM (R := fun _ _ => True) fun name _ => of_resolve view name).bind
    fun classRefs classes => (of_mapM (R := fun _ _ => True) fun name _ =>
      of_intern name).bind fun fieldNames fields => (of_mapM (R := fun _ _ => True)
        fun method _ => (of_intern method.name).bind fun _ _ => of_pure trivial).bind
          fun methodCalls methods => of_pure ?_
  exact ⟨classes.length_eq.symm, fields.length_eq.symm, methods.length_eq.symm, rfl⟩

theorem of_findMain (mainModule : String) :
    Keeps Given (fun _ => True) (findMain mainModule) := by
  refine (of_intern _).bind fun name _ => of_get.bind fun linkage _ => ?_
  dsimp only
  split
  · exact of_pure trivial
  · exact of_throw (by rfl)

/-! ## Programs -/

/-- The first part of linking, of units whose methods are given ones where they lie. -/
theorem of_assemble (facades : List Facade) {units : List LoadedUnit}
    (placed : ∀ place ∈
        (units.zip (units.scanl (fun base unit => base + unit.code.length) 0)).zipIdx,
      ∀ info ∈ place.1.1.view.classes.toList,
        Placed Given place.1.1.view.moduleName ⟨place.2⟩ place.1.2 info) :
    Keeps Given (fun assembly => List.Forall₂ (fun unit record => record.Fits unit.view) units
      assembly.records) (assemble facades units) := by
  refine (of_mapM (R := fun _ _ => True) fun place member => ?_).bind fun children _ =>
    (of_forM fun child _ => ?_).bind fun _ _ =>
      (of_mapM fun unit _ => of_moduleRecord unit.view).bind fun records fit =>
        (of_findMain _).bind fun main _ => of_pure fit
  · obtain ⟨⟨unit, base⟩, index⟩ := place
    exact (of_registerUnit facades (placed _ member)).bind fun _ _ => of_pure trivial
  · exact of_setParent child.1 child.2.1 child.2.2

theorem makes_flattenAll {linkage : Linkage} (hl : linkage.Declared Given) :
    Makes (· = linkage) (fun _ next => next.symbols = linkage.symbols ∧ next.Declared Given)
      (inCatalog (Catalog.flattenAll linkage.symbols)) := by
  have flattens : Upheld (fun catalog => Declared Given ⟨linkage.symbols, catalog⟩)
      (·.isOptimize = false) (fun _ => True) (Catalog.flattenAll linkage.symbols) :=
    Catalog.upheld_flattenAll (fun _ => rfl) (fun _ _ h => h.expand _ _) _
  refine leads_inCatalog ?_
  rintro next rfl
  exact Leads.of_start _ (fun _ same => same ▸ hl) (Leads.mono flattens fun _ _ h => ⟨rfl, h.2⟩)

/-- A program that has been put together. Behind the tables of its units it has those of the entry
sequence. -/
structure Whole (Given : ModuleId → Nat → String → MethodHeader → Prop) (assembly : Assembly)
    (code : Bytes) (entry : Nat) (program : Program) : Prop where
  code : program.code = .ofBytes code
  entry : program.entry = entry
  entryModule : program.entryModule = ⟨assembly.records.length⟩
  mainTakesArgs : program.mainTakesArgs = (assembly.mainKey.arity == 1)
  modules : ∃ record : ModuleRecord, program.modules = (assembly.records ++ [record]).toArray ∧
    record.classRefs.size = 1 ∧ record.fieldNames.size = 0 ∧ record.methodCalls.size = 1 ∧
      record.strings.size = 0
  declared : Declared Given ⟨program.symbols, program.catalog⟩

theorem of_complete (assembly : Assembly) (code : Bytes) (entry : Nat) :
    Keeps Given (Whole Given assembly code entry) (complete assembly code entry) := by
  refine Leads.of_get_bind fun linkage hl => (makes_flattenAll hl).bind fun _ =>
    Leads.of_get_bind ?_
  rintro last ⟨same, declared⟩
  refine Leads.of_pure ?_
  rintro _ rfl
  exact ⟨⟨rfl, rfl, rfl, rfl, ⟨_, rfl, rfl, rfl, rfl, rfl⟩, same ▸ declared⟩, declared⟩

/-- Linking without shrinking, of units whose methods are given ones where they lie. -/
theorem of_link (facades : List Facade) {units : List LoadedUnit}
    (placed : ∀ place ∈
        (units.zip (units.scanl (fun base unit => base + unit.code.length) 0)).zipIdx,
      ∀ info ∈ place.1.1.view.classes.toList,
        Placed Given place.1.1.view.moduleName ⟨place.2⟩ place.1.2 info) :
    Keeps Given (fun program => ∃ assembly : Assembly,
        List.Forall₂ (fun unit record => record.Fits unit.view) units assembly.records ∧
        Whole Given assembly (wholeCode units (assembly.mainKey.arity == 1))
          (units.flatMap (·.code)).length program) (link facades false units) :=
  (of_assemble facades placed).bind fun assembly fits =>
    (of_complete assembly _ _).mono fun _ whole => ⟨assembly, fits, whole⟩

end Link.Keeps

end ObjectMachine
