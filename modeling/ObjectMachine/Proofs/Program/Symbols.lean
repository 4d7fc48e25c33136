import ObjectMachine.Proofs.Program.Declarations

/-!
# Symbols

Linking only adds names to the table of symbols, and it adds none that the table has already. So
each symbol is found under its name, and the methods that the tables of modules name can be named
by texts as well.
-/

namespace ObjectMachine

namespace SymbolTable

def Distinct (symbols : SymbolTable) : Prop :=
  ∀ symbol name, symbols.Knows symbol name → symbols.find? name = some symbol

theorem distinct_empty : empty.Distinct :=
  fun _ _ known => by simp [Knows, empty] at known

theorem Distinct.intern {symbols : SymbolTable} (h : symbols.Distinct) (name : String) :
    (symbols.intern name).2.Distinct := by
  intro symbol other known
  cases seen : symbols.find? name with
  | some old =>
      have same : (symbols.intern name).2 = symbols := by
        unfold SymbolTable.intern
        rw [seen]
      rw [same] at known ⊢
      exact h symbol other known
  | none =>
      have added : symbols.intern name = (⟨symbols.names.size⟩, ⟨symbols.names.push name⟩) := by
        unfold SymbolTable.intern
        rw [seen]
      have self := symbols.find?_intern_self name
      rw [added] at known self ⊢
      rcases Nat.lt_trichotomy symbol.index symbols.names.size with old | new | beyond
      · have before : symbols.Knows symbol other := by
          rw [Knows, Array.getElem?_push_lt old] at known
          rwa [Knows, Array.getElem?_eq_getElem old]
        have found := find?_intern_of_some (h symbol other before) name
        rwa [added] at found
      · obtain ⟨index⟩ := symbol
        obtain rfl : index = symbols.names.size := new
        rw [Knows, Array.getElem?_push_size] at known
        obtain rfl := Option.some.inj known
        exact self
      · rw [Knows, Array.getElem?_eq_none (by rw [Array.size_push]; exact beyond)] at known
        cases known

theorem name_of_knows {symbols : SymbolTable} {symbol : Symbol} {name : String}
    (h : symbols.Knows symbol name) : symbols.name symbol = name := by
  rw [SymbolTable.name, Array.getD_eq_getD_getElem?, h]
  rfl

end SymbolTable

/-- Whether the names of methods are known, and every symbol is found under its name. -/
structure Linkage.Lists (keys : List MethodKey) (linkage : Linkage) : Prop where
  distinct : linkage.symbols.Distinct
  known : ∀ key ∈ keys, ∃ name, linkage.symbols.Knows key.name name

namespace Linkage.Lists

variable {keys : List MethodKey} {linkage : Linkage}

theorem empty : Lists [] ⟨.empty, .empty⟩ :=
  ⟨SymbolTable.distinct_empty, fun _ none => absurd none List.not_mem_nil⟩

theorem intern (h : linkage.Lists keys) (name : String) :
    Lists keys { linkage with symbols := (linkage.symbols.intern name).2 } :=
  ⟨h.distinct.intern name, fun key member =>
    (h.known key member).imp fun _ known => known.intern name⟩

theorem snoc (h : linkage.Lists keys) (name : String) (arity : UInt16) :
    Lists (keys ++ [⟨(linkage.symbols.intern name).1, arity⟩])
      { linkage with symbols := (linkage.symbols.intern name).2 } := by
  refine ⟨h.distinct.intern name, fun key member => ?_⟩
  rcases List.mem_append.mp member with old | new
  · exact (h.intern name).known key old
  · obtain rfl := List.mem_singleton.mp new
    exact ⟨name, linkage.symbols.knows_intern name⟩

theorem find? (h : linkage.Lists keys) {key : MethodKey} (member : key ∈ keys) :
    linkage.symbols.find? (linkage.symbols.name key.name) = some key.name := by
  obtain ⟨name, known⟩ := h.known key member
  rw [SymbolTable.name_of_knows known]
  exact h.distinct _ _ known

end Linkage.Lists

namespace Link

variable {facades : List Facade} {keys : List MethodKey}

/-- Whether a part of linking keeps what is known of names. -/
abbrev Names (keys : List MethodKey) (step : Link α) : Prop :=
  Upheld (Linkage.Lists keys) (fun _ => True) (fun _ => True) step

theorem names_intern (name : String) : Names keys (intern name) :=
  Upheld.of_modifyGet fun _ lists => ⟨trivial, lists.intern name⟩

theorem names_inCatalog {step : EStateM LoadError Catalog α} : Names keys (inCatalog step) := by
  refine leads_inCatalog fun linkage lists catalog _ => ?_
  split
  · exact ⟨trivial, lists.distinct, lists.known⟩
  · trivial

theorem builds_names : Builds facades fun _ linkage => linkage.Lists keys where
  names name lists := lists.intern name
  field _ _ := id
  methods _ := id
  native _ _ := id

theorem names_registerUnit (moduleId : ModuleId) (base : Nat) (view : Metadata) :
    Names keys (registerUnit facades moduleId base view) := by
  refine (Upheld.of_mapM (R := fun _ _ => True) fun info _ => ?_).bind fun _ _ =>
    (Upheld.of_forM fun info _ => ?_).bind fun _ _ => Upheld.of_pure trivial
  · have registers : Names keys (registerClass facades view.moduleName moduleId base info) :=
      builds_names.registerClass _ _ base info (fun _ lists => lists) fun _ => names_inCatalog
    exact registers.bind fun _ _ => Upheld.of_pure trivial
  · have builds : Builds [] fun _ linkage => linkage.Lists keys := builds_names
    have declares := builds.declareFields (.new info.name view.moduleName moduleId)
      (info.members.map (·.1)) true
    have registers : Names keys (registerEnum view.moduleName moduleId info) :=
      Leads.bind declares fun _ => Upheld.of_get.bind fun _ _ => names_inCatalog
    exact registers.bind fun _ _ => Upheld.of_pure trivial

theorem names_resolve (view : Metadata) (name : String) : Names keys (resolve view name) := by
  refine Upheld.of_get.bind fun linkage _ => ?_
  split
  · exact Upheld.of_pure trivial
  · exact Upheld.of_throw trivial

theorem names_setParent (view : Metadata) (id : ClassId) (parentName : String) :
    Names keys (setParent view id parentName) := by
  refine (names_resolve view parentName).bind fun parent _ => Upheld.of_get.bind fun linkage _ => ?_
  dsimp only
  split
  · exact Upheld.of_throw_bind trivial
  · exact Upheld.of_modify fun _ lists => ⟨lists.distinct, lists.known⟩

/-- The tables of a module name methods of known names. -/
theorem leads_moduleRecord_lists (view : Metadata) :
    Leads (Linkage.Lists keys) (fun _ => True)
      (fun record linkage => linkage.Lists (keys ++ record.methodCalls.toList))
      (moduleRecord view) := by
  have methods : Leads (Linkage.Lists keys) (fun _ => True)
      (fun calls linkage => linkage.Lists (keys ++ calls))
      (view.methodCalls.mapM fun method => do
        pure (MethodKey.mk (← intern method.name) method.arity)) := by
    refine Leads.of_start _ (fun _ lists => ?_) (Leads.of_mapM fun method _ before => ?_)
    · rwa [List.append_nil]
    · have interns : Leads (Linkage.Lists (keys ++ before)) (fun _ => True)
          (fun symbol => Linkage.Lists (keys ++ (before ++ [⟨symbol, method.arity⟩])))
          (intern method.name) :=
        Leads.of_modifyGet fun _ lists => by
          rw [← List.append_assoc]
          exact lists.snoc method.name method.arity
      exact interns.bind fun _ => Leads.of_pure fun _ lists => lists
  refine Leads.bind (Upheld.of_mapM (R := fun _ _ => True) fun name _ => names_resolve view name)
    fun _ => Leads.bind (Leads.of_start _ (fun _ => And.right)
      (Upheld.of_mapM (R := fun _ _ => True) fun name _ => names_intern name)) fun _ =>
        (Leads.of_start _ (fun _ => And.right) methods).bind fun _ => Leads.of_pure ?_
  exact fun _ lists => lists

theorem leads_findMain_lists (mainModule : String) :
    Leads (Linkage.Lists keys) (fun _ => True)
      (fun main linkage => linkage.Lists (keys ++ [main.2])) (findMain mainModule) := by
  have interns : Leads (Linkage.Lists keys) (fun _ => True)
      (fun symbol linkage => ∀ arity, linkage.Lists (keys ++ [⟨symbol, arity⟩]))
      (intern mainName) :=
    Leads.of_modifyGet fun _ lists => lists.snoc mainName
  refine interns.bind fun name => Leads.of_get_bind fun linkage lists => ?_
  dsimp only
  split
  · next main found =>
      refine Leads.of_pure fun _ same => ?_
      subst same
      have keyed {id? : Option ClassId} {arity : UInt16}
          (h : id?.map (fun id => (id, MethodKey.mk name arity)) = some main) :
          main.2 = ⟨name, arity⟩ := by
        obtain ⟨id, -, rfl⟩ := Option.map_eq_some_iff.mp h
        rfl
      rcases Option.or_eq_some_iff.mp found with one | ⟨-, zero⟩
      · exact keyed one ▸ lists 1
      · exact keyed zero ▸ lists 0
  · exact Leads.of_throw trivial

/-- The methods that the tables of units name, and the one that their program starts with. -/
def Assembly.calls (assembly : Assembly) : List MethodKey :=
  assembly.records.flatMap (·.methodCalls.toList) ++ [assembly.mainKey]

theorem leads_assemble_lists (facades : List Facade) (units : List LoadedUnit) :
    Leads (Linkage.Lists []) (fun _ => True)
      (fun assembly linkage => linkage.Lists assembly.calls) (assemble facades units) := by
  have records : Leads (Linkage.Lists []) (fun _ => True)
      (fun records linkage => linkage.Lists (records.flatMap (·.methodCalls.toList)))
      (units.mapM fun unit : LoadedUnit => moduleRecord unit.view) := by
    refine Leads.of_start _ (fun _ lists => ?_) (Leads.of_mapM fun unit _ before => ?_)
    · exact lists
    · refine (leads_moduleRecord_lists unit.view).mono fun record _ lists => ?_
      rwa [List.flatMap_append, List.flatMap_singleton]
  refine Leads.bind (Upheld.of_mapM (R := fun _ _ => True) fun _ _ =>
    (names_registerUnit _ _ _).bind fun _ _ => Upheld.of_pure trivial) fun _ => Leads.bind
      (Leads.of_start _ (fun _ => And.right) (Upheld.of_forM fun _ _ => names_setParent _ _ _))
      fun _ =>
      (Leads.of_start _ (fun _ => And.right) records).bind fun records =>
        (leads_findMain_lists _).bind fun main => Leads.of_pure fun _ lists => ?_
  exact lists

theorem names_shrinkSegment (assembly : Assembly) (code : Bytes) (entry : Nat) :
    Names assembly.calls (shrinkSegment code entry) := by
  refine Upheld.of_get.bind fun linkage _ => ?_
  dsimp only
  split
  · exact Upheld.of_throw trivial
  · exact (Upheld.of_modify fun _ lists => ⟨lists.distinct, lists.known⟩).bind fun _ _ =>
      Upheld.of_pure trivial

/-- The table of symbols is the one of the units, and so are the tables of modules, with that of the
entry sequence behind them. -/
theorem leads_complete_lists (assembly : Assembly) (code : Bytes) (entry : Nat) :
    Leads (Linkage.Lists assembly.calls) (fun _ => True)
      (fun program _ => ∀ record ∈ program.modules, ∀ key ∈ record.methodCalls,
        program.symbols.find? (program.symbols.name key.name) = some key.name)
      (complete assembly code entry) := by
  refine Leads.of_get_bind fun linkage lists => ?_
  have flattens : Leads (· = linkage) (fun _ => True) (fun _ _ => True)
      (inCatalog (Catalog.flattenAll linkage.symbols)) :=
    leads_inCatalog fun _ _ _ _ => by split <;> trivial
  refine flattens.bind fun _ => Leads.of_get_bind fun last _ => Leads.of_pure ?_
  intro _ _ record member key called
  apply lists.find?
  rcases List.mem_append.mp (List.mem_toArray.mp member) with own | entry
  · exact List.mem_append_left _
      (List.mem_flatMap.mpr ⟨record, own, Array.mem_toList_iff.mpr called⟩)
  · obtain rfl := List.mem_singleton.mp entry
    exact List.mem_append_right _ (by simpa using called)

end Link

/-- In a linked program the name of a method that a module calls leads back to the method. -/
theorem Program.find?_name_of_link {facades : List Facade} {optimize : Bool}
    {units : List LoadedUnit} {program : Program}
    (linked : link facades optimize units = .ok program) {id : ModuleId} {index : UInt32}
    {key : MethodKey} (called : (program.moduleOf id).methodCall index = .ok key) :
    program.symbols.find? (program.symbols.name key.name) = some key.name := by
  have known := Program.of_link (Link.leads_assemble_lists facades units) Link.names_shrinkSegment
    Link.leads_complete_lists Linkage.Lists.empty linked
  unfold moduleOf at called
  rw [Array.getD_eq_getD_getElem?] at called
  unfold ModuleRecord.methodCall ModuleRecord.entry at called
  split at called
  · next found there =>
      cases called
      obtain ⟨place, -, there⟩ := Option.bind_eq_some_iff.mp there
      cases here : program.modules[id.index]? with
      | none =>
          rw [here] at there
          cases there
      | some record =>
          rw [here] at there
          exact known record (Array.mem_of_getElem? here) key (Array.mem_of_getElem? there)
  · cases called

end ObjectMachine
