import ObjectMachine.Proofs.Program.Linked

/-!
# Declaring classes

A class is made in a few ways only: it is given a field under a name that it has none for yet, it is
given methods, and it is made a native one. What these keep, and what new names do not change, holds
of every class when it is registered.
-/

namespace ObjectMachine

def ClassDef.withField (info : ClassDef) (name : Symbol) (slot : FieldSlot) : ClassDef :=
  reserve { info with fields := putEntry info.fields name slot } slot

namespace SymbolTable

variable {symbols : SymbolTable} {name : String}

theorem find?_eq (symbols : SymbolTable) (name : String) :
    symbols.find? name = (symbols.names.findIdx? (· == name)).map Symbol.mk := by
  obtain ⟨names⟩ := symbols
  obtain ⟨names⟩ := names
  unfold find?
  rw [List.idxOf?_toArray, List.findIdx?_toArray]
  rfl

theorem find?_intern_self (symbols : SymbolTable) (name : String) :
    (symbols.intern name).2.find? name = some (symbols.intern name).1 := by
  unfold intern
  split
  · next symbol found => exact found
  · next unknown =>
      have none : symbols.names.findIdx? (· == name) = none :=
        Option.map_eq_none_iff.mp (symbols.find?_eq name ▸ unknown)
      rw [find?_eq, Array.findIdx?_push, none]
      simp

/-- New names leave the numbers of the others as they are. -/
theorem find?_intern_of_some {symbol : Symbol} (h : symbols.find? name = some symbol)
    (other : String) : (symbols.intern other).2.find? name = some symbol := by
  unfold intern
  split
  · exact h
  · rw [find?_eq] at h ⊢
    obtain ⟨place, found, rfl⟩ := Option.map_eq_some_iff.mp h
    rw [Array.findIdx?_push, found]
    rfl

end SymbolTable

namespace Link

variable {start : Linkage → Prop}

/-! ## Parts -/

/-- A field is declared under the number of its name, if the class has none under that name. -/
theorem leads_declareField_of {allowed : LoadError → Prop} {results : ClassDef → Linkage → Prop}
    {info : ClassDef} {name : String} {slot : FieldSlot}
    (fresh : ∀ linkage, start linkage →
      info.field? (linkage.symbols.intern name).1 = none →
        results (info.withField (linkage.symbols.intern name).1 slot)
          { linkage with symbols := (linkage.symbols.intern name).2 })
    (taken : ∀ linkage, start linkage →
      info.field? (linkage.symbols.intern name).1 ≠ none → ∀ fault, allowed fault) :
    Leads start allowed results (declareField info name slot) := by
  have interns : Leads start allowed (fun symbol linkage =>
      (info.field? symbol = none → results (info.withField symbol slot) linkage) ∧
        (info.field? symbol ≠ none → ∀ fault, allowed fault)) (intern name) :=
    Leads.of_modifyGet fun linkage started => ⟨fresh linkage started, taken linkage started⟩
  refine interns.bind fun symbol => leads_declare fun linkage declares => ?_
  apply Leads.of_get_bind
  rintro _ rfl
  apply Leads.of_set_bind
  split
  · next found => exact Leads.of_throw_bind (declares.2 (Option.isSome_iff_ne_none.mp found) _)
  · next new =>
      rintro _ rfl
      exact declares.1 (Option.not_isSome_iff_eq_none.mp new)

theorem leads_declareField {results : ClassDef → Linkage → Prop} {info : ClassDef} {name : String}
    {slot : FieldSlot}
    (h : ∀ linkage, start linkage →
      info.field? (linkage.symbols.intern name).1 = none →
        results (info.withField (linkage.symbols.intern name).1 slot)
          { linkage with symbols := (linkage.symbols.intern name).2 }) :
    Leads start (fun _ => True) results (declareField info name slot) :=
  leads_declareField_of h fun _ _ _ _ => trivial

/-- Whether something that holds of a class among other classes goes on to hold when names are seen
and members are declared. -/
structure Builds (facades : List Facade) (Ready : ClassDef → Linkage → Prop) : Prop where
  names : ∀ {info linkage} (name : String), Ready info linkage →
    Ready info { linkage with symbols := (linkage.symbols.intern name).2 }
  field : ∀ {info linkage name} (slot : FieldSlot), info.field? name = none →
    Ready info linkage → Ready (info.withField name slot) linkage
  methods : ∀ {info linkage} (methods : List (MethodKey × MethodEntry)), Ready info linkage →
    Ready { info with methods } linkage
  native : ∀ {info linkage}, ∀ facade ∈ facades, Ready info linkage →
    Ready { info with facade := some facade } linkage

namespace Builds

variable {facades : List Facade} {Ready : ClassDef → Linkage → Prop} (h : Builds facades Ready)

include h

theorem declareField (info : ClassDef) (name : String) (slot : FieldSlot) :
    Leads (Ready info) (fun _ => True) Ready (declareField info name slot) :=
  leads_declareField fun _ ready fresh => h.field slot fresh (h.names name ready)

theorem declareFields (info : ClassDef) (names : List String) (isStatic : Bool) :
    Leads (Ready info) (fun _ => True) Ready (declareFields info names isStatic) :=
  Leads.of_foldlM (fun _ _ info => h.declareField info _ _) info

theorem interned {allowed : LoadError → Prop} {info : ClassDef} (name : String) :
    Leads (Ready info) allowed (fun _ => Ready info) (intern name) :=
  Leads.of_modifyGet fun _ => h.names name

/-- Nothing stands against the methods of a native class. -/
theorem declareNativeMethods {allowed : LoadError → Prop} (info : ClassDef) (id : ClassId)
    (methods : List MethodRef) (isStatic : Bool) :
    Leads (Ready info) allowed Ready (declareNativeMethods info id methods isStatic) := by
  refine Leads.of_foldlM ?_ info
  intro method _ info
  refine (h.interned _).bind fun symbol => ?_
  dsimp only
  split
  · exact Leads.of_pure fun _ ready => ready
  · exact Leads.of_pure fun _ => h.methods _

theorem declareNative {facade : Facade} (given : facade ∈ facades) (info : ClassDef)
    (id : ClassId) :
    Leads (Ready info) (fun _ => True) Ready (declareNative info id facade) :=
  (h.declareFields info _ _).bind fun info => (h.declareFields info _ _).bind fun info =>
    (h.declareNativeMethods info _ _ _).bind fun info =>
      (h.declareNativeMethods info _ _ _).bind fun _ =>
        Leads.of_pure fun _ => h.native facade given

theorem declareMethod (id : ClassId) (base : Nat) (info : ClassDef) (method : MethodInfo) :
    Leads (Ready info) (fun _ => True) Ready (declareMethod id base info method) := by
  refine (h.interned _).bind fun symbol => leads_declare fun linkage ready => ?_
  apply Leads.of_get_bind
  rintro _ rfl
  apply Leads.of_set_bind
  split
  · exact Leads.of_throw trivial
  · apply Leads.of_pure
    rintro _ rfl
    exact h.methods _ ready

/-- A class is registered with what holds of it from the beginning. -/
theorem registerClass {results : ClassId → Linkage → Prop} (moduleName : String)
    (moduleId : ModuleId) (base : Nat) (info : ClassInfo)
    (begins : ∀ linkage, start linkage → Ready (.new info.name moduleName moduleId) linkage)
    (registers : ∀ complete, Leads (Ready complete) (fun _ => True) results
      (inCatalog (Catalog.register complete))) :
    Leads start (fun _ => True) results
      (registerClass facades moduleName moduleId base info) := by
  refine Leads.of_get_bind fun linkage started => ?_
  apply Leads.of_start (Ready (.new info.name moduleName moduleId))
  · rintro _ rfl
    exact begins _ started
  · dsimp only
    split
    · split
      · next facade found =>
          have given : facade ∈ facades := List.mem_of_find?_eq_some found
          exact (h.declareNative given _ _).bind registers
      · exact Leads.of_throw_bind trivial
    · refine (Leads.of_foldlM (fun field _ info => ?_) _).bind fun withFields =>
        (Leads.of_foldlM (fun method _ info => ?_) withFields).bind registers
      · exact h.declareField info field.name ⟨field.number, field.isStatic⟩
      · exact h.declareMethod _ base info method

end Builds

end Link

/-- A linked program has what its parts lead to: units are assembled, and the program is put
together from them, the branches of its code having been shrunk or not. -/
theorem Program.of_link {facades : List Facade} {optimize : Bool} {units : List LoadedUnit}
    {start : Linkage → Prop} {Assembled : Link.Assembly → Linkage → Prop}
    {results : Program → Prop}
    (assembles : Leads start (fun _ => True) Assembled (Link.assemble facades units))
    (shrinks : ∀ assembly code entry, Upheld (Assembled assembly) (fun _ => True) (fun _ => True)
      (Link.shrinkSegment code entry))
    (completes : ∀ assembly code entry, Leads (Assembled assembly) (fun _ => True)
      (fun program _ => results program) (Link.complete assembly code entry))
    (begins : start ⟨.empty, .empty⟩) {program : Program}
    (linked : link facades optimize units = .ok program) : results program := by
  have whole : Leads start (fun _ => True) (fun program _ => results program)
      (Link.link facades optimize units) := by
    refine assembles.bind fun assembly => ?_
    dsimp only
    split
    · refine Leads.bind (shrinks assembly _ _) fun placed => ?_
      exact Leads.of_start _ (fun _ reached => reached.2) (completes assembly _ _)
    · exact completes assembly _ _
  unfold link at linked
  split at linked
  · next found =>
      cases linked
      exact whole.of_ok begins found
  · cases linked

end ObjectMachine
