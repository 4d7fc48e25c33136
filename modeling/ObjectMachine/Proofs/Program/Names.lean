import Mathlib.Data.List.Destutter
import ObjectMachine.Proofs.Program.Slots

/-!
# What names of classes mean

A name of a class means the class of that qualified name, else the one of the module itself, else
the one of a used module if no other used module has such a class. Which class it is does not depend
on the order in which modules are used or classes are registered, nor on how often a module is used.
-/

namespace ObjectMachine

def qualify (moduleName name : String) : String :=
  moduleName ++ "." ++ name

theorem qualify_inj {moduleName other name : String} :
    qualify moduleName name = qualify other name ↔ moduleName = other := by
  unfold qualify
  rw [String.append_left_inj, String.append_left_inj]

/-! ## Lists without adjacent repeats -/

section

variable [DecidableEq α]

theorem mem_destutter'_ne {items : List α} {first item : α} :
    item ∈ items.destutter' (· ≠ ·) first ↔ item = first ∨ item ∈ items := by
  induction items generalizing first with
  | nil => simp
  | cons second rest ih =>
      rw [List.destutter'_cons]
      by_cases same : first = second
      · subst same
        rw [if_neg (by simp), ih, List.mem_cons, or_self_left]
      · rw [if_pos same, List.mem_cons, ih, List.mem_cons]

theorem mem_destutter_ne {items : List α} {item : α} :
    item ∈ items.destutter (· ≠ ·) ↔ item ∈ items := by
  cases items with
  | nil => rfl
  | cons first rest => rw [List.destutter_cons', mem_destutter'_ne, List.mem_cons]

/-- Two entries that are left are not the same one. -/
theorem exists_ne_of_destutter {items rest : List α} {first second : α}
    (h : items.destutter (· ≠ ·) = first :: second :: rest) :
    first ∈ items ∧ second ∈ items ∧ first ≠ second := by
  have apart := items.isChain_destutter (· ≠ ·)
  rw [h, List.isChain_cons_cons] at apart
  have member (item : α) (listed : item ∈ first :: second :: rest) : item ∈ items :=
    mem_destutter_ne.mp (h ▸ listed)
  exact ⟨member first (by simp), member second (by simp), apart.1⟩

end

/-! ## Qualified names -/

namespace Catalog

variable {catalog catalog' : Catalog} {qualified : String} {id : ClassId}

def qualifiedNames (catalog : Catalog) : List String :=
  catalog.classes.toList.map (·.qualified)

theorem knows_iff : catalog.Knows id qualified ↔
    catalog.qualifiedNames[id.index]? = some qualified := by
  rw [Knows, qualifiedNames, List.getElem?_map, Array.getElem?_toList]

theorem exists_knows_iff : (∃ id, catalog.Knows id qualified) ↔
    qualified ∈ catalog.qualifiedNames := by
  simp only [knows_iff, List.mem_iff_getElem?]
  exact ⟨fun ⟨id, known⟩ => ⟨id.index, known⟩, fun ⟨place, known⟩ => ⟨⟨place⟩, known⟩⟩

theorem Knows.mem (h : catalog.Knows id qualified) : qualified ∈ catalog.qualifiedNames :=
  exists_knows_iff.mp ⟨id, h⟩

theorem Knows.unique {other : String} (h : catalog.Knows id qualified)
    (h' : catalog.Knows id other) : qualified = other :=
  Option.some.inj (h.symm.trans h')

/-- A name is that of one class only if no two classes have one name. -/
theorem Knows.eq {other : ClassId} (h : catalog.Knows id qualified)
    (h' : catalog.Knows other qualified) (distinct : catalog.qualifiedNames.Nodup) :
    id = other := by
  rw [knows_iff] at h h'
  have inside := (List.getElem?_eq_some_iff.mp h).1
  have same := (List.getElem?_inj inside distinct).mp (h.trans h'.symm)
  cases id
  cases other
  exact congrArg _ same

theorem knows_of_find? (h : catalog.find? qualified = some id) : catalog.Knows id qualified := by
  obtain ⟨place, found, rfl⟩ := Option.map_eq_some_iff.mp h
  obtain ⟨inside, same, -⟩ := Array.findIdx?_eq_some_iff_getElem.mp found
  rw [Knows, Array.getElem?_eq_getElem inside, Option.map_some, eq_of_beq same]

theorem find?_eq_none_iff :
    catalog.find? qualified = none ↔ qualified ∉ catalog.qualifiedNames := by
  rw [find?, Option.map_eq_none_iff, Array.findIdx?_eq_none_iff, qualifiedNames, List.mem_map]
  constructor
  · rintro none ⟨info, member, rfl⟩
    simpa using none info (Array.mem_toList_iff.mp member)
  · intro none info member
    rw [beq_eq_false_iff_ne]
    rintro rfl
    exact none ⟨info, Array.mem_toList_iff.mpr member, rfl⟩

/-- Some class is found under each of the names, though another one may have the name as well. -/
theorem exists_find? (member : qualified ∈ catalog.qualifiedNames) :
    ∃ id, catalog.find? qualified = some id ∧ catalog.Knows id qualified := by
  cases found : catalog.find? qualified with
  | none => exact absurd member (find?_eq_none_iff.mp found)
  | some id => exact ⟨id, rfl, knows_of_find? found⟩

end Catalog

/-! ## Meanings -/

namespace Link

open Catalog

/-- The used modules that have a class of a name, as often as they are used. -/
def offering (catalog : Catalog) (uses : List String) (name : String) : List String :=
  uses.filter fun used => qualify used name ∈ catalog.qualifiedNames

/-- What a name of a class means in a module: a class, or why there is none. -/
inductive Means (catalog : Catalog) (moduleName : String) (uses : List String) (name : String) :
    Except LoadError ClassId → Prop
  | qualified {id : ClassId} (known : catalog.Knows id name) :
      Means catalog moduleName uses name (.ok id)
  /-- A class of the module itself. -/
  | own {id : ClassId} (unknown : name ∉ catalog.qualifiedNames)
      (known : catalog.Knows id (qualify moduleName name)) :
      Means catalog moduleName uses name (.ok id)
  /-- The class of the only used module that has one. -/
  | used {used : String} {id : ClassId} (unknown : name ∉ catalog.qualifiedNames)
      (foreign : qualify moduleName name ∉ catalog.qualifiedNames) (member : used ∈ uses)
      (known : catalog.Knows id (qualify used name))
      (only : ∀ other ∈ uses, qualify other name ∈ catalog.qualifiedNames → other = used) :
      Means catalog moduleName uses name (.ok id)
  /-- At least two used modules have one. They are listed in the order in which they are used, once
  for each time that one is used right after another one. -/
  | ambiguous {one other : String} (unknown : name ∉ catalog.qualifiedNames)
      (foreign : qualify moduleName name ∉ catalog.qualifiedNames)
      (first : one ∈ uses) (offers : qualify one name ∈ catalog.qualifiedNames)
      (second : other ∈ uses) (offers' : qualify other name ∈ catalog.qualifiedNames)
      (apart : one ≠ other) :
      Means catalog moduleName uses name (.error (.ambiguousClass name
        (((offering catalog uses name).destutter (· ≠ ·)).map (qualify · name))))
  | unresolved (unknown : name ∉ catalog.qualifiedNames)
      (foreign : qualify moduleName name ∉ catalog.qualifiedNames)
      (none : ∀ used ∈ uses, qualify used name ∉ catalog.qualifiedNames) :
      Means catalog moduleName uses name (.error (.unresolvedClass moduleName name))

variable {catalog : Catalog} {moduleName name : String} {uses : List String}

theorem mem_offering {used : String} : used ∈ offering catalog uses name ↔
    used ∈ uses ∧ qualify used name ∈ catalog.qualifiedNames := by
  rw [offering, List.mem_filter, decide_eq_true_iff]

theorem withoutRepeats_eq_destutter (candidates : List (String × ClassId)) :
    withoutRepeats candidates = candidates.destutter fun a b => a.2 ≠ b.2 := by
  fun_induction withoutRepeats candidates with
  | case1 first second rest same ih =>
      rw [ih, List.destutter_cons_cons, if_neg (not_not_intro same)]
      rfl
  | case2 first second rest other ih =>
      rw [ih, List.destutter_cons_cons, if_pos other]
      rfl
  | case3 short apart =>
      cases short with
      | nil => rfl
      | cons first rest =>
          cases rest with
          | nil => rfl
          | cons second rest => exact absurd rfl (apart first second rest)

/-- The candidates are the names of the modules that offer a class. -/
theorem map_candidates :
    (uses.filterMap fun used =>
        (catalog.find? (used ++ "." ++ name)).map fun id => (used ++ "." ++ name, id)).map (·.1) =
      (offering catalog uses name).map (qualify · name) := by
  induction uses with
  | nil => rfl
  | cons used rest ih =>
      rw [List.filterMap_cons, offering, List.filter_cons]
      by_cases member : qualify used name ∈ catalog.qualifiedNames
      · obtain ⟨id, found, -⟩ := exists_find? member
        have here : catalog.find? (used ++ "." ++ name) = some id := found
        rw [here, if_pos (decide_eq_true member)]
        exact congrArg (qualify used name :: ·) ih
      · have missing : catalog.find? (used ++ "." ++ name) = none := find?_eq_none_iff.mpr member
        rw [missing, if_neg (by simpa using member)]
        exact ih

/-- Two candidates are for one class exactly if they are for one module. -/
theorem map_withoutRepeats_candidates :
    (withoutRepeats (uses.filterMap fun used =>
        (catalog.find? (used ++ "." ++ name)).map fun id => (used ++ "." ++ name, id))).map (·.1) =
      ((offering catalog uses name).destutter (· ≠ ·)).map (qualify · name) := by
  have found {candidate : String × ClassId} (member : candidate ∈ uses.filterMap fun used =>
      (catalog.find? (used ++ "." ++ name)).map fun id => (used ++ "." ++ name, id)) :
      catalog.find? candidate.1 = some candidate.2 := by
    obtain ⟨used, -, candidate⟩ := List.mem_filterMap.mp member
    obtain ⟨id, known, rfl⟩ := Option.map_eq_some_iff.mp candidate
    exact known
  have injective : Function.Injective (qualify · name) := fun _ _ => qualify_inj.mp
  rw [withoutRepeats_eq_destutter, List.map_destutter_ne _ injective, ← map_candidates]
  apply List.map_destutter
  intro one first other second
  refine not_congr ⟨fun same => ?_, fun same => ?_⟩
  · exact (knows_of_find? (found first)).unique (same ▸ knows_of_find? (found second))
  · exact Option.some.inj ((found first).symm.trans (same ▸ found second))

/-- Where neither the name nor that of an own class is known, the used modules decide. -/
theorem means_of_unknown (unknown : name ∉ catalog.qualifiedNames)
    (foreign : qualify moduleName name ∉ catalog.qualifiedNames) :
    Means catalog moduleName uses name (resolveClass catalog moduleName uses name) := by
  have missing : catalog.find? (moduleName ++ "." ++ name) = none := find?_eq_none_iff.mpr foreign
  have listed : _ = ((offering catalog uses name).destutter (· ≠ ·)).map (qualify · name) :=
    map_withoutRepeats_candidates
  unfold resolveClass
  rw [find?_eq_none_iff.mpr unknown, missing]
  dsimp only [Option.or_none]
  generalize candidates : withoutRepeats (uses.filterMap _) = found at listed ⊢
  match found with
  | [] =>
      refine .unresolved unknown foreign fun used member offers => ?_
      have left := mem_destutter_ne.mpr (mem_offering.mpr ⟨member, offers⟩)
      have empty := List.map_eq_nil_iff.mp listed.symm
      rw [empty] at left
      cases left
  | [(qualified, id)] =>
      obtain ⟨used, only, same⟩ := List.map_eq_singleton_iff.mp listed.symm
      have each {other : String} (offers : other ∈ offering catalog uses name) : other = used := by
        have left := mem_destutter_ne.mpr offers
        rw [only] at left
        exact List.mem_singleton.mp left
      have here : used ∈ offering catalog uses name := mem_destutter_ne.mp (only ▸ by simp)
      have single : (qualified, id) ∈ withoutRepeats (uses.filterMap _) :=
        candidates ▸ List.mem_singleton_self _
      obtain ⟨other, member, candidate⟩ :=
        List.mem_filterMap.mp (mem_of_withoutRepeats _ single)
      obtain ⟨_, known, pair⟩ := Option.map_eq_some_iff.mp candidate
      cases pair
      have known := knows_of_find? known
      obtain rfl := each (mem_offering.mpr ⟨member, known.mem⟩)
      exact .used unknown foreign member known fun another uses offers =>
        each (mem_offering.mpr ⟨uses, offers⟩)
  | first :: second :: rest =>
      dsimp only
      rw [listed]
      obtain ⟨one, others, shape, -, behind⟩ := List.map_eq_cons_iff.mp listed.symm
      obtain ⟨other, _, rfl, -, -⟩ := List.map_eq_cons_iff.mp behind
      obtain ⟨here, there, apart⟩ := exists_ne_of_destutter shape
      obtain ⟨firstMember, firstOffers⟩ := mem_offering.mp here
      obtain ⟨secondMember, secondOffers⟩ := mem_offering.mp there
      exact .ambiguous unknown foreign firstMember firstOffers secondMember secondOffers apart

/-- What a name resolves to is what it means. -/
theorem means_resolveClass (catalog : Catalog) (moduleName : String) (uses : List String)
    (name : String) :
    Means catalog moduleName uses name (resolveClass catalog moduleName uses name) := by
  by_cases known : name ∈ catalog.qualifiedNames
  · obtain ⟨id, found, known⟩ := exists_find? known
    unfold resolveClass
    rw [found, Option.some_or]
    exact .qualified known
  · by_cases own : qualify moduleName name ∈ catalog.qualifiedNames
    · obtain ⟨id, found, here⟩ := exists_find? own
      have found : catalog.find? (moduleName ++ "." ++ name) = some id := found
      unfold resolveClass
      rw [find?_eq_none_iff.mpr known, found, Option.none_or]
      exact .own known here
    · exact means_of_unknown known own

theorem Means.unique {outcome outcome' : Except LoadError ClassId}
    (h : Means catalog moduleName uses name outcome)
    (h' : Means catalog moduleName uses name outcome') (distinct : catalog.qualifiedNames.Nodup) :
    outcome = outcome' := by
  cases h with
  | qualified known =>
      cases h' with
      | qualified known' => rw [known.eq known' distinct]
      | own unknown => exact absurd known.mem unknown
      | used unknown => exact absurd known.mem unknown
      | ambiguous unknown => exact absurd known.mem unknown
      | unresolved unknown => exact absurd known.mem unknown
  | own unknown known =>
      cases h' with
      | qualified known' => exact absurd known'.mem unknown
      | own _ known' => rw [known.eq known' distinct]
      | used _ foreign => exact absurd known.mem foreign
      | ambiguous _ foreign => exact absurd known.mem foreign
      | unresolved _ foreign => exact absurd known.mem foreign
  | used unknown foreign member known only =>
      cases h' with
      | qualified known' => exact absurd known'.mem unknown
      | own _ known' => exact absurd known'.mem foreign
      | used _ _ member' known' _ =>
          obtain rfl := only _ member' known'.mem
          rw [known.eq known' distinct]
      | ambiguous _ _ first offers second offers' apart =>
          exact absurd ((only _ first offers).trans (only _ second offers').symm) apart
      | unresolved _ _ none => exact absurd known.mem (none _ member)
  | ambiguous unknown foreign first offers second offers' apart =>
      cases h' with
      | qualified known' => exact absurd known'.mem unknown
      | own _ known' => exact absurd known'.mem foreign
      | used _ _ _ _ only =>
          exact absurd ((only _ first offers).trans (only _ second offers').symm) apart
      | ambiguous => rfl
      | unresolved _ _ none => exact absurd offers (none _ first)
  | unresolved unknown foreign none =>
      cases h' with
      | qualified known' => exact absurd known'.mem unknown
      | own _ known' => exact absurd known'.mem foreign
      | used _ _ member' known' _ => exact absurd known'.mem (none _ member')
      | ambiguous _ _ first offers => exact absurd offers (none _ first)
      | unresolved => rfl

theorem resolveClass_eq_iff (distinct : catalog.qualifiedNames.Nodup)
    {outcome : Except LoadError ClassId} :
    resolveClass catalog moduleName uses name = outcome ↔
      Means catalog moduleName uses name outcome := by
  constructor
  · rintro rfl
    exact means_resolveClass catalog moduleName uses name
  · intro means
    exact (means_resolveClass catalog moduleName uses name).unique means distinct

/-! ## Orders -/

/-- Whether two outcomes are the same but for the numbers of classes and for the order of the
candidates. How often a candidate is listed may differ only where a module is used repeatedly. -/
inductive Alike (catalog catalog' : Catalog) (uses uses' : List String) :
    Except LoadError ClassId → Except LoadError ClassId → Prop
  | resolved {qualified : String} {id id' : ClassId} (known : catalog.Knows id qualified)
      (known' : catalog'.Knows id' qualified) : Alike catalog catalog' uses uses' (.ok id) (.ok id')
  | ambiguous {name : String} {candidates candidates' : List String}
      (same : ∀ candidate, candidate ∈ candidates ↔ candidate ∈ candidates')
      (once : uses.Nodup → uses'.Nodup → candidates.Perm candidates') :
      Alike catalog catalog' uses uses' (.error (.ambiguousClass name candidates))
        (.error (.ambiguousClass name candidates'))
  | unresolved {moduleName name : String} :
      Alike catalog catalog' uses uses' (.error (.unresolvedClass moduleName name))
        (.error (.unresolvedClass moduleName name))

/-- Where modules are used once, each candidate is listed once. -/
theorem nodup_candidates (once : uses.Nodup) :
    (((offering catalog uses name).destutter (· ≠ ·)).map (qualify · name)).Nodup :=
  (((List.destutter_sublist _ _).nodup (once.filter _))).map fun _ _ => qualify_inj.mp

/-- Among the same names and used modules a name means the same. -/
theorem Means.exists_alike {catalog' : Catalog} {uses' : List String}
    {outcome : Except LoadError ClassId} (h : Means catalog moduleName uses name outcome)
    (names : ∀ qualified, qualified ∈ catalog.qualifiedNames ↔ qualified ∈ catalog'.qualifiedNames)
    (used : ∀ used, used ∈ uses ↔ used ∈ uses') :
    ∃ outcome', Means catalog' moduleName uses' name outcome' ∧
      Alike catalog catalog' uses uses' outcome outcome' := by
  have exists_knows {id : ClassId} {qualified : String} (known : catalog.Knows id qualified) :
      ∃ id', catalog'.Knows id' qualified :=
    exists_knows_iff.mpr ((names qualified).mp known.mem)
  cases h with
  | qualified known =>
      obtain ⟨id', known'⟩ := exists_knows known
      exact ⟨_, .qualified known', .resolved known known'⟩
  | own unknown known =>
      obtain ⟨id', known'⟩ := exists_knows known
      exact ⟨_, .own ((names _).not.mp unknown) known', .resolved known known'⟩
  | used unknown foreign member known only =>
      obtain ⟨id', known'⟩ := exists_knows known
      refine ⟨_, .used ((names _).not.mp unknown) ((names _).not.mp foreign) ((used _).mp member)
        known' fun other listed offers => ?_, .resolved known known'⟩
      exact only other ((used _).mpr listed) ((names _).mpr offers)
  | ambiguous unknown foreign first offers second offers' apart =>
      have same (candidate : String) :
          candidate ∈ ((offering catalog uses name).destutter (· ≠ ·)).map (qualify · name) ↔
            candidate ∈
              ((offering catalog' uses' name).destutter (· ≠ ·)).map (qualify · name) := by
        simp only [List.mem_map, mem_destutter_ne, mem_offering, names, used]
      refine ⟨_, .ambiguous ((names _).not.mp unknown) ((names _).not.mp foreign)
        ((used _).mp first) ((names _).mp offers) ((used _).mp second) ((names _).mp offers') apart,
        .ambiguous same fun once once' => ?_⟩
      exact (List.perm_ext_iff_of_nodup (nodup_candidates once) (nodup_candidates once')).mpr same
  | unresolved unknown foreign none =>
      refine ⟨_, .unresolved ((names _).not.mp unknown) ((names _).not.mp foreign)
        fun other listed => ?_, .unresolved⟩
      exact (names _).not.mp (none other ((used _).mpr listed))

theorem resolveClass_alike {catalog' : Catalog} {uses' : List String}
    (distinct : catalog.qualifiedNames.Nodup)
    (names : catalog.qualifiedNames.Perm catalog'.qualifiedNames)
    (used : ∀ used, used ∈ uses ↔ used ∈ uses') (moduleName name : String) :
    Alike catalog catalog' uses uses' (resolveClass catalog moduleName uses name)
      (resolveClass catalog' moduleName uses' name) := by
  obtain ⟨outcome', means, alike⟩ :=
    (means_resolveClass catalog moduleName uses name).exists_alike (fun _ => names.mem_iff) used
  rwa [(resolveClass_eq_iff (names.nodup_iff.mp distinct)).mpr means]

end Link

end ObjectMachine
