import ObjectMachine.Proofs.Machine.Comparisons
import ObjectMachine.Proofs.Program.Placement

/-!
# Ancestry

Among classes of which none is its own ancestor, `hierarchy` lists the whole way to the root, and
being a subclass is a partial order in which the classes above any one form a chain. Flattening only
succeeds on such classes, unless a cycle goes through a class that has been flattened before: it is
not looked at again, so a parent that it has been given since then may close a cycle.
-/

namespace ObjectMachine

namespace Catalog

/-- What is said of classes of which none is its own ancestor. -/
structure Ordered (catalog : Catalog) : Prop where
  /-- A hierarchy begins with the class, goes on with the parent of each one listed, and ends with a
  class that has none. -/
  way (id : ClassId) : catalog.Lineage id (catalog.hierarchy id)
  once (id : ClassId) : (catalog.hierarchy id).Nodup
  mem_iff (id other : ClassId) :
    other ∈ catalog.hierarchy id ↔ Relation.ReflTransGen catalog.HasParent id other
  tail (id parent : ClassId) : catalog.HasParent id parent →
    catalog.hierarchy id = id :: catalog.hierarchy parent
  refl (id : ClassId) : catalog.isSubclass id id = true
  trans (one two three : ClassId) : catalog.isSubclass one two = true →
    catalog.isSubclass two three = true → catalog.isSubclass one three = true
  antisymm (one two : ClassId) : catalog.isSubclass one two = true →
    catalog.isSubclass two one = true → one = two
  /-- Of two super classes of a class one is a subclass of the other. -/
  chain (id one two : ClassId) : catalog.isSubclass id one = true →
    catalog.isSubclass id two = true →
      catalog.isSubclass one two = true ∨ catalog.isSubclass two one = true

variable {catalog start flat : Catalog} {id other : ClassId} {chain : List ClassId}

/-! ## Ways to the root -/

/-- The way goes on as long as there are parents, and it does not come back to a class below. -/
theorem exists_lineage_above (acyclic : ¬ catalog.Cyclic) (bound : Nat) {below : List ClassId}
    (distinct : below.Nodup)
    (descend : ∀ other ∈ below, Relation.TransGen catalog.HasParent other id)
    (enough : catalog.classes.size < bound + below.length) :
    ∃ chain, catalog.Lineage id chain := by
  induction bound generalizing id below with
  | zero =>
      have few := length_le_size distinct fun other member =>
        lt_size_of_transGen (descend other member)
      omega
  | succ bound ih =>
      cases own : (catalog.get id).parent with
      | none => exact ⟨[id], .root own⟩
      | some parent =>
          have next : catalog.HasParent id parent := own
          have fresh : id ∉ below := fun member => acyclic ⟨id, descend id member⟩
          obtain ⟨above, lineage⟩ := ih (List.nodup_cons.mpr ⟨fresh, distinct⟩)
            (List.forall_mem_cons.mpr ⟨.single next, fun other member =>
              (descend other member).tail next⟩)
            (by rw [List.length_cons]; omega)
          exact ⟨id :: above, .child next lineage⟩

theorem exists_lineage (acyclic : ¬ catalog.Cyclic) (id : ClassId) :
    ∃ chain, catalog.Lineage id chain :=
  exists_lineage_above acyclic (catalog.classes.size + 1) List.nodup_nil nofun (by simp)

theorem eq_of_reflTransGen (acyclic : ¬ catalog.Cyclic)
    (above : Relation.ReflTransGen catalog.HasParent id other)
    (below : Relation.ReflTransGen catalog.HasParent other id) : id = other := by
  rcases Relation.reflTransGen_iff_eq_or_transGen.mp above with same | strictly
  · exact same.symm
  · exact absurd ⟨id, strictly.trans_left below⟩ acyclic

theorem ordered_of_acyclic (acyclic : ¬ catalog.Cyclic) : catalog.Ordered := by
  have way (id : ClassId) : catalog.Lineage id (catalog.hierarchy id) := by
    obtain ⟨chain, lineage⟩ := exists_lineage acyclic id
    rwa [lineage.hierarchy_eq]
  have mem_iff (id other : ClassId) :
      other ∈ catalog.hierarchy id ↔ Relation.ReflTransGen catalog.HasParent id other :=
    ⟨(way id).descends_of_mem, (way id).mem_of_descends⟩
  have subclass (id other : ClassId) : catalog.isSubclass id other = true ↔
      Relation.ReflTransGen catalog.HasParent id other :=
    List.contains_iff_mem.trans (mem_iff id other)
  refine ⟨way, fun id => (way id).nodup, mem_iff, fun id parent next => ?_, fun id => ?_,
    fun one two three => ?_, fun one two => ?_, fun id one two => ?_⟩
  · exact (Lineage.child next (way parent)).hierarchy_eq
  · rw [subclass]
  · simp only [subclass]
    exact Relation.ReflTransGen.trans
  · simp only [subclass]
    exact eq_of_reflTransGen acyclic
  · simp only [subclass]
    intro above above'
    have member := (way id).mem_of_descends above
    have member' := (way id).mem_of_descends above'
    rcases (way id).above_or_above member member' with
      rfl | ⟨rest, lineage, higher⟩ | ⟨rest, lineage, higher⟩
    · exact .inl .refl
    · exact .inl (lineage.descends_of_mem (List.mem_cons_of_mem _ higher))
    · exact .inr (lineage.descends_of_mem (List.mem_cons_of_mem _ higher))

/-! ## Flattening -/

/-- Flattened classes are in order unless one that had been flattened before is on a cycle. -/
theorem ordered_of_flattenAll {symbols : SymbolTable}
    (apart : ∀ id, (start.get id).expanded = true → ¬ Relation.TransGen start.HasParent id id)
    (run : flattenAll symbols start = .ok () flat) : flat.Ordered := by
  have inherited := (leads_inheritAll start symbols).of_ok rfl run
  apply ordered_of_acyclic
  rw [Cyclic, inherited.hasParent_eq]
  exact inherited.not_cyclic apart

end Catalog

/-! ## Linked programs -/

/-- Nothing has been flattened before a program is linked. -/
theorem Link.leads_ordered {facades : List Facade} (assembly : Assembly) (code : Bytes)
    (entry : Nat) :
    Leads (fun linkage => linkage.catalog.Drafted facades) (fun _ => True)
      (fun program _ => program.catalog.Ordered) (complete assembly code entry) := by
  refine Leads.of_get_bind fun linkage drafted => ?_
  have flattens : Leads (· = linkage) (fun _ => True) (fun _ last => last.catalog.Ordered)
      (inCatalog (Catalog.flattenAll linkage.symbols)) := by
    apply leads_inCatalog
    rintro _ rfl catalog rfl
    split
    · next run =>
        exact Catalog.ordered_of_flattenAll (fun id => by simp [drafted.unexpanded]) run
    · trivial
  refine flattens.bind fun _ => Leads.of_get_bind fun last ordered => ?_
  exact Leads.of_pure fun _ _ => ordered

/-- Classes of a linked program are in order. -/
theorem Program.ordered_of_link {facades : List Facade} {optimize : Bool} {units : List LoadedUnit}
    {program : Program} (linked : link facades optimize units = .ok program) :
    program.catalog.Ordered :=
  Program.of_link (Leads.mono (Link.drafts_assemble units) fun _ _ => And.right)
    (fun _ => Link.drafts_shrinkSegment) Link.leads_ordered Catalog.drafted_empty linked

/-! ## Objects -/

/-- An object is asked about the class that it is seen as. -/
theorem Step.instanceOf_object {setup : Setup} {scene : Scene} {index : UInt32} {view id : ClassId}
    {object : ObjectId} (top : scene.thread.stack.slots.back? = some (.object view object))
    (known : (setup.program.moduleOf scene.thread.moduleId).classRef index = .ok id) :
    Step.instanceOf index setup scene =
      Step.push (.bool (setup.program.catalog.isSubclass view id)) setup
        { scene with thread := scene.thread.popped } := by
  have found : require ((setup.program.moduleOf scene.thread.moduleId).classRef index) setup scene =
      .ok id scene := by
    rw [known]
    rfl
  unfold instanceOf
  rw [bind_of_ok moduleRecord_eq_ok, bind_of_ok found, bind_of_ok (pop_of_back? top)]
  rfl

namespace Catalog

variable {start flat : Catalog}

/-- **The class hierarchy is a partial order.** After flattening, every class and its ancestors are
listed once each by its hierarchy, and being a subclass is a partial order in which the super
classes of a class form a chain, if and only if no class that had been flattened before is among its
own ancestors. Classes of a linked program are always so. An object is an instance of the classes
that the one it is seen as is a subclass of. -/
theorem flattenAll_ordered_iff {symbols : SymbolTable}
    (run : flattenAll symbols start = .ok () flat) :
    (flat.Ordered ↔ ∀ id, (start.get id).expanded = true →
      ¬ Relation.TransGen start.HasParent id id) ∧
    (∀ (facades : List Facade) (optimize : Bool) (units : List LoadedUnit) (program : Program),
      Program.link facades optimize units = .ok program → program.catalog.Ordered) ∧
    ∀ (setup : Setup) (scene : Scene) (index : UInt32) (view id : ClassId) (object : ObjectId),
      setup.program.catalog = flat →
      scene.thread.stack.slots.back? = some (.object view object) →
      (setup.program.moduleOf scene.thread.moduleId).classRef index = .ok id →
      Step.instanceOf index setup scene = Step.push (.bool (flat.isSubclass view id)) setup
        { scene with thread := scene.thread.popped } := by
  refine ⟨⟨fun ordered id _ cycle => ?_, fun apart => ordered_of_flattenAll apart run⟩,
    fun facades optimize units program => Program.ordered_of_link, ?_⟩
  · rw [← ((leads_inheritAll start symbols).of_ok rfl run).hasParent_eq] at cycle
    exact (ordered.way id).not_transGen cycle
  · rintro setup scene index view id object rfl top known
    exact Step.instanceOf_object top known

/-- A class that has been flattened, and one that inherits from it and has not. -/
def extended : Catalog where
  classes := #[
    { ClassDef.new "Base" "sample" ⟨0⟩ with expanded := true },
    { ClassDef.new "Child" "sample" ⟨0⟩ with parent := some ⟨0⟩ }]

theorem flattenAll_ordered_extended : ∃ flat, flattenAll ⟨#[]⟩ extended = .ok () flat ∧
    flat.Ordered := by
  obtain ⟨flat, run⟩ : ∃ flat, flattenAll ⟨#[]⟩ extended = .ok () flat := ⟨_, rfl⟩
  refine ⟨flat, run, (flattenAll_ordered_iff run).1.mpr ?_⟩
  rintro ⟨index⟩ expanded cycle
  obtain ⟨above, next, -⟩ := Relation.TransGen.head'_iff.mp cycle
  match index with
  | 0 => cases next
  | 1 => cases expanded
  | _ + 2 => cases expanded

/-- Two classes that have been flattened can be given each other as parents. -/
theorem flattenAll_unordered : ∃ first last,
    flattenAll ⟨#[]⟩ pair = .ok () first ∧
    flattenAll ⟨#[]⟩
      ((first.modify ⟨0⟩ fun info => { info with parent := some ⟨1⟩ }).modify ⟨1⟩
        fun info => { info with parent := some ⟨0⟩ }) = .ok () last ∧
    last.isSubclass ⟨0⟩ ⟨1⟩ = true ∧ last.isSubclass ⟨1⟩ ⟨0⟩ = true ∧ ¬ last.Ordered := by
  refine ⟨_, _, rfl, rfl, by decide, by decide, fun ordered => ?_⟩
  cases ordered.antisymm ⟨0⟩ ⟨1⟩ (by decide) (by decide)

end Catalog

end ObjectMachine
