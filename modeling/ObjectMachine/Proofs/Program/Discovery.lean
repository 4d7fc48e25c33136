import Mathlib.Data.List.Nodup
import Mathlib.Data.List.Perm.Subperm
import Mathlib.Logic.Relation
import ObjectMachine.Proofs.Program.Checked

/-!
# Which modules are loaded

The names that a program's modules use are a graph, in which a module that cannot be had uses
nothing. Loading goes through the names that the main module reaches, in the order of their
distance, and names of one distance in the order in which they are mentioned. It ends with the first
module that cannot be had, or links them all.
-/

namespace ObjectMachine

namespace Except

theorem bind_congr_of_ok {step : Except ε α} {next next' : α → Except ε β}
    (h : ∀ result, step = .ok result → next result = next' result) :
    step >>= next = step >>= next' := by
  cases step with
  | error fault => rfl
  | ok result => exact h result rfl

theorem exists_of_mapM_eq_error {step : α → Except ε β} {items : List α} {fault : ε}
    (h : items.mapM step = .error fault) :
    ∃ before item after, items = before ++ item :: after ∧
      (∀ earlier ∈ before, ∃ result, step earlier = .ok result) ∧ step item = .error fault := by
  induction items with
  | nil => cases h
  | cons item rest ih =>
      rw [List.mapM_cons, bind_eq_error_iff] at h
      rcases h with here | ⟨result, here, later⟩
      · exact ⟨[], item, rest, rfl, nofun, here⟩
      · rcases bind_eq_error_iff.mp later with later | ⟨_, -, none⟩
        · obtain ⟨before, item', after, rfl, fine, fails⟩ := ih later
          exact ⟨item :: before, item', after, rfl,
            List.forall_mem_cons.mpr ⟨⟨result, here⟩, fine⟩, fails⟩
        · cases none

end Except

/-! ## First mentions -/

/-- Those of several names that are not among known ones, at their first mention. -/
def firstMentions (known names : List String) : List String :=
  (names.filter (· ∉ known)).eraseDups

theorem firstMentions_nil (known : List String) : firstMentions known [] = [] :=
  rfl

theorem firstMentions_cons_of_mem {known : List String} {name : String} (h : name ∈ known)
    (names : List String) : firstMentions known (name :: names) = firstMentions known names := by
  simp [firstMentions, h]

theorem firstMentions_cons_of_not_mem {known : List String} {name : String} (h : name ∉ known)
    (names : List String) :
    firstMentions known (name :: names) = name :: firstMentions (name :: known) names := by
  have kept : (name :: names).filter (· ∉ known) = name :: names.filter (· ∉ known) :=
    List.filter_cons_of_pos (by simpa using h)
  have others : (names.filter (· ∉ known)).filter (fun other => !other == name) =
      names.filter (· ∉ name :: known) := by
    rw [List.filter_filter]
    congr 1
    funext other
    by_cases same : other = name <;> simp [same]
  rw [firstMentions, kept, List.eraseDups_cons, others]
  rfl

theorem firstMentions_congr {known known' : List String}
    (same : ∀ name, name ∈ known ↔ name ∈ known') (names : List String) :
    firstMentions known names = firstMentions known' names := by
  simp only [firstMentions, same]

theorem mem_firstMentions {known names : List String} {name : String} :
    name ∈ firstMentions known names ↔ name ∈ names ∧ name ∉ known := by
  induction names generalizing known with
  | nil => simp [firstMentions_nil]
  | cons first names ih =>
      by_cases h : first ∈ known
      · rw [firstMentions_cons_of_mem h, ih, List.mem_cons]
        constructor
        · exact fun ⟨member, new⟩ => ⟨.inr member, new⟩
        · rintro ⟨rfl | member, new⟩
          · exact absurd h new
          · exact ⟨member, new⟩
      · rw [firstMentions_cons_of_not_mem h, List.mem_cons, ih, List.mem_cons, List.mem_cons,
          not_or]
        constructor
        · rintro (rfl | ⟨member, -, new⟩)
          · exact ⟨.inl rfl, h⟩
          · exact ⟨.inr member, new⟩
        · rintro ⟨rfl | member, new⟩
          · exact .inl rfl
          · by_cases same : name = first
            · exact .inl same
            · exact .inr ⟨member, same, new⟩

theorem nodup_firstMentions (known names : List String) : (firstMentions known names).Nodup := by
  induction names generalizing known with
  | nil => exact List.nodup_nil
  | cons first names ih =>
      by_cases h : first ∈ known
      · rw [firstMentions_cons_of_mem h]
        exact ih known
      · rw [firstMentions_cons_of_not_mem h, List.nodup_cons]
        refine ⟨fun member => ?_, ih _⟩
        exact (mem_firstMentions.mp member).2 List.mem_cons_self

theorem firstMentions_append_of_subset {known names : List String} (h : names ⊆ known)
    (more : List String) : firstMentions known (names ++ more) = firstMentions known more := by
  have none : names.filter (· ∉ known) = [] := by
    rw [List.filter_eq_nil_iff]
    intro name member
    simpa using h member
  rw [firstMentions, List.filter_append, none]
  rfl

namespace Library

section

variable (library : Library) (options : LoadOptions) (main : LoadedUnit)

/-- The module of a name, if it can be found and is acceptable under that name. -/
def module (name : String) : Except LoadError LoadedUnit :=
  library.find name >>= LoadedUnit.checkNamed options name

/-- The names that a module of a program uses, in the order of their mention. A module that cannot
be had uses none. -/
def uses (name : String) : List String :=
  if name = main.view.moduleName then main.view.uses.toList
  else
    match library.module options name with
    | .ok unit => unit.view.uses.toList
    | .error _ => []

def newUses (names : List String) : List String :=
  firstMentions names (names.flatMap (library.uses options main))

/-- The names that are at most so many uses away from the main module, the nearer ones first, and
those of one distance in the order of their mention. -/
def within : Nat → List String
  | 0 => [main.view.moduleName]
  | distance + 1 =>
    within distance ++ library.newUses options main (within distance)

def atDistance : Nat → List String
  | 0 => [main.view.moduleName]
  | distance + 1 => library.newUses options main (library.within options main distance)

def Uses (name used : String) : Prop :=
  used ∈ library.uses options main name

/-- Whether so many uses lead from the main module to a name. -/
inductive Away : Nat → String → Prop
  | main : Away 0 main.view.moduleName
  | uses {length : Nat} {user name : String} :
    Away length user → library.Uses options main user name → Away (length + 1) name

/-- Whether names are those that the main module reaches, itself included, each of them once and in
breadth-first order. -/
structure BreadthFirst (names : List String) : Prop where
  nodup : names.Nodup
  mem_iff : ∀ name, name ∈ names ↔
    Relation.ReflTransGen (library.Uses options main) main.view.moduleName name
  nearestFirst : ∀ distance, library.within options main distance <+: names

end

variable {library : Library} {options : LoadOptions} {main : LoadedUnit}

/-! ## Names by distance -/

theorem within_succ (distance : Nat) :
    library.within options main (distance + 1) =
      library.within options main distance ++ library.atDistance options main (distance + 1) :=
  rfl

theorem nodup_within (distance : Nat) : (library.within options main distance).Nodup := by
  induction distance with
  | zero => exact List.nodup_singleton _
  | succ distance ih =>
      refine ih.append (nodup_firstMentions _ _) fun name member new => ?_
      exact (mem_firstMentions.mp new).2 member

theorem head?_within (distance : Nat) :
    (library.within options main distance).head? = some main.view.moduleName := by
  induction distance with
  | zero => rfl
  | succ distance ih => rw [within_succ, List.head?_append, ih, Option.some_or]

theorem mem_within_succ {distance : Nat} {name : String} :
    name ∈ library.within options main (distance + 1) ↔
      name ∈ library.within options main distance ∨
        ∃ user ∈ library.within options main distance, library.Uses options main user name := by
  rw [within, List.mem_append, newUses, mem_firstMentions, List.mem_flatMap]
  by_cases known : name ∈ library.within options main distance
  · simp [known]
  · simp [known, Uses]

theorem within_isPrefix_within {distance further : Nat} (le : distance ≤ further) :
    library.within options main distance <+: library.within options main further := by
  induction le with
  | refl => exact List.prefix_refl _
  | step _ ih => exact ih.trans (List.prefix_append _ _)

theorem within_subset_within {distance further : Nat} (le : distance ≤ further) :
    library.within options main distance ⊆ library.within options main further :=
  (within_isPrefix_within le).subset

/-- The names within a distance are those that some number of uses up to it leads to. -/
theorem mem_within_iff {distance : Nat} {name : String} :
    name ∈ library.within options main distance ↔
      ∃ length ≤ distance, library.Away options main length name := by
  constructor
  · intro member
    induction distance generalizing name with
    | zero =>
        obtain rfl := List.mem_singleton.mp member
        exact ⟨0, Nat.le_refl _, .main⟩
    | succ distance ih =>
        rcases mem_within_succ.mp member with near | ⟨user, known, uses⟩
        · obtain ⟨length, le, away⟩ := ih near
          exact ⟨length, Nat.le_succ_of_le le, away⟩
        · obtain ⟨length, le, away⟩ := ih known
          exact ⟨length + 1, Nat.succ_le_succ le, .uses away uses⟩
  · rintro ⟨length, le, away⟩
    refine within_subset_within le ?_
    clear le
    induction away with
    | main => exact List.mem_singleton_self _
    | uses _ uses ih => exact mem_within_succ.mpr (.inr ⟨_, ih, uses⟩)

theorem reaches_iff_exists_away {name : String} :
    Relation.ReflTransGen (library.Uses options main) main.view.moduleName name ↔
      ∃ length, library.Away options main length name := by
  constructor
  · intro reaches
    induction reaches with
    | refl => exact ⟨0, .main⟩
    | tail _ uses ih =>
        obtain ⟨length, away⟩ := ih
        exact ⟨length + 1, .uses away uses⟩
  · rintro ⟨length, away⟩
    induction away with
    | main => exact .refl
    | uses _ uses ih => exact ih.tail uses

/-! ## The last distance -/

theorem lookup_of_module {name : String} {unit : LoadedUnit}
    (h : library.module options name = .ok unit) : ∃ file, library.lookup name = some file := by
  obtain ⟨file, found, -⟩ := Except.bind_eq_ok_iff.mp h
  unfold find at found
  split at found
  · next file there => exact ⟨file, there⟩
  · cases found

/-- Only the main module and modules of the library use something. -/
theorem Uses.mem_library {user name : String} (uses : library.Uses options main user name) :
    user ∈ main.view.moduleName :: library.map (·.1) := by
  unfold Uses Library.uses at uses
  split at uses
  · next same => exact List.mem_cons.mpr (.inl same)
  · split at uses
    · next unit accepted =>
        obtain ⟨file, there⟩ := lookup_of_module accepted
        obtain ⟨front, back, rfl, -⟩ := List.lookup_eq_some_iff.mp there
        exact List.mem_cons_of_mem _ (List.mem_map.mpr ⟨(user, file), by simp, rfl⟩)
    · cases uses

/-- The names of a program are finitely many, so that they all lie within some distance. -/
theorem exists_newUses_eq_nil (library : Library) (options : LoadOptions) (main : LoadedUnit) :
    ∃ distance, library.newUses options main (library.within options main distance) = [] := by
  by_contra more
  rw [not_exists] at more
  let mentioned := main.view.moduleName ::
    (main.view.moduleName :: library.map (·.1)).flatMap (library.uses options main)
  have grows (distance : Nat) : distance < (library.within options main distance).length := by
    induction distance with
    | zero => exact Nat.one_pos
    | succ distance ih =>
        have new := List.length_pos_iff.mpr (more distance)
        rw [within, List.length_append]
        omega
  have bounded (distance : Nat) : library.within options main distance ⊆ mentioned := by
    intro name member
    obtain ⟨_, -, away⟩ := mem_within_iff.mp member
    cases away with
    | main => exact List.mem_cons_self
    | uses _ uses =>
        exact List.mem_cons_of_mem _ (List.mem_flatMap.mpr ⟨_, uses.mem_library, uses⟩)
  have le := (List.subperm_of_subset (nodup_within mentioned.length) (bounded _)).length_le
  have lt := grows mentioned.length
  omega

/-- Nothing is beyond a distance at which nothing new is used. -/
theorem within_eq_of_closed {distance : Nat}
    (closed : library.newUses options main (library.within options main distance) = [])
    {further : Nat} (le : distance ≤ further) :
    library.within options main further = library.within options main distance := by
  induction le with
  | refl => rfl
  | step _ ih => rw [within, ih, closed, List.append_nil]

theorem breadthFirst_of_closed {distance : Nat}
    (closed : library.newUses options main (library.within options main distance) = []) :
    library.BreadthFirst options main (library.within options main distance) where
  nodup := nodup_within distance
  mem_iff name := by
    rw [reaches_iff_exists_away]
    constructor
    · intro member
      obtain ⟨length, -, away⟩ := mem_within_iff.mp member
      exact ⟨length, away⟩
    · rintro ⟨length, away⟩
      have member := mem_within_iff.mpr ⟨length, Nat.le_max_left length distance, away⟩
      rwa [within_eq_of_closed closed (Nat.le_max_right length distance)] at member
  nearestFirst other := by
    rcases Nat.le_total other distance with le | le
    · exact within_isPrefix_within le
    · simp only [within_eq_of_closed closed le, List.prefix_rfl]

/-! ## Loading -/

theorem moduleName_of_module {name : String} {unit : LoadedUnit}
    (h : library.module options name = .ok unit) : unit.view.moduleName = name := by
  obtain ⟨file, -, accepted⟩ := Except.bind_eq_ok_iff.mp h
  unfold LoadedUnit.checkNamed at accepted
  obtain ⟨loaded, -, named⟩ := Except.bind_eq_ok_iff.mp accepted
  split at named
  · next same =>
      cases named
      exact same
  · cases named

/-- Names that have been seen are passed over. -/
theorem reachable_cons_of_mem {found : List LoadedUnit} {seen queue : List String} {name : String}
    (known : name ∈ seen) :
    library.reachable options ⟨found, seen, name :: queue⟩ =
      library.reachable options ⟨found, seen, queue⟩ := by
  have same : Discovery.next ⟨found, seen, name :: queue⟩ =
      Discovery.next ⟨found, seen, queue⟩ := by
    simp [Discovery.next, Discovery.firstUnseen, known]
  rw [reachable_eq, reachable_eq, same]

/-- The first name that has not been seen is loaded, and what it uses is put behind all others, but
for what has been seen by then. -/
theorem reachable_cons_of_new {found : List LoadedUnit} {seen queue : List String}
    {name : String} (new : name ∉ seen) :
    library.reachable options ⟨found, seen, name :: queue⟩ =
      library.module options name >>= fun unit =>
        library.reachable options ⟨found ++ [unit], name :: seen,
          queue ++ unit.view.uses.toList.filter (!(name :: seen).contains ·)⟩ := by
  have next : Discovery.next ⟨found, seen, name :: queue⟩ =
      some (name, ⟨found, name :: seen, queue⟩) := by
    simp [Discovery.next, Discovery.firstUnseen, new]
  rw [reachable_eq, next]
  rfl

/-- Names that have been seen may as well be left out of the queue. -/
theorem reachable_filter (found : List LoadedUnit) (seen queue : List String) :
    library.reachable options ⟨found, seen, queue.filter (!seen.contains ·)⟩ =
      library.reachable options ⟨found, seen, queue⟩ := by
  induction queue with
  | nil => rfl
  | cons name rest ih =>
      by_cases known : name ∈ seen
      · rw [List.filter_cons_of_neg (by simpa using known), reachable_cons_of_mem known, ih]
      · rw [List.filter_cons_of_pos (by simpa using known), reachable_cons_of_new known,
          reachable_cons_of_new known]
        refine Except.bind_congr_of_ok fun unit accepted => ?_
        obtain ⟨file, there⟩ := lookup_of_module accepted
        -- There is one name less to see, which makes the recursion end.
        have fewer := unseen_lt there known
        have narrower (other : String) : (!(name :: seen).contains other && !seen.contains other) =
            !(name :: seen).contains other := by
          rw [List.contains_cons]
          cases other == name <;> simp
        rw [← reachable_filter _ (name :: seen), ← reachable_filter _ (name :: seen) (rest ++ _),
          List.filter_append, List.filter_append, List.filter_filter,
          List.filter_congr fun other _ => narrower other]
termination_by library.unseen seen

/-- What a module uses may as well be queued whether or not it has been seen. -/
theorem reachable_cons_of_not_mem {found : List LoadedUnit} {seen queue : List String}
    {name : String} (new : name ∉ seen) :
    library.reachable options ⟨found, seen, name :: queue⟩ =
      library.module options name >>= fun unit =>
        library.reachable options
          ⟨found ++ [unit], name :: seen, queue ++ unit.view.uses.toList⟩ := by
  rw [reachable_cons_of_new new]
  congr 1
  funext unit
  rw [← reachable_filter, List.filter_append, List.filter_filter]
  simp only [Bool.and_self]
  rw [← List.filter_append, reachable_filter]

/-- All names of a queue are gone through before what they use. -/
theorem reachable_append (library : Library) (options : LoadOptions) (found : List LoadedUnit)
    (seen front back : List String) :
    library.reachable options ⟨found, seen, front ++ back⟩ =
      (firstMentions seen front).mapM (library.module options) >>= fun units =>
        library.reachable options ⟨found ++ units, (firstMentions seen front).reverse ++ seen,
          back ++ units.flatMap fun unit => unit.view.uses.toList⟩ := by
  induction front generalizing found seen back with
  | nil => simp [firstMentions_nil]
  | cons name front ih =>
      rw [List.cons_append]
      by_cases known : name ∈ seen
      · rw [reachable_cons_of_mem known, firstMentions_cons_of_mem known, ih]
      · rw [reachable_cons_of_not_mem known, firstMentions_cons_of_not_mem known]
        simp only [List.mapM_cons, bind_assoc, pure_bind, List.append_assoc, ih]
        simp

theorem uses_of_modules {names : List String} {units : List LoadedUnit}
    (others : main.view.moduleName ∉ names)
    (loaded : names.mapM (library.module options) = .ok units) :
    (units.flatMap fun unit => unit.view.uses.toList) =
      names.flatMap (library.uses options main) := by
  have each := Except.mapM_eq_ok_iff.mp loaded
  clear loaded
  induction each with
  | nil => rfl
  | @cons name unit names units here _ ih =>
      rw [List.mem_cons, not_or] at others
      have uses : library.uses options main name = unit.view.uses.toList := by
        rw [Library.uses, if_neg (Ne.symm others.1), here]
      rw [List.flatMap_cons, List.flatMap_cons, ih others.2, uses]

theorem firstMentions_atDistance (distance : Nat) :
    firstMentions (library.within options main distance)
        ((library.atDistance options main distance).flatMap (library.uses options main)) =
      library.atDistance options main (distance + 1) := by
  cases distance with
  | zero => rfl
  | succ distance =>
      have split : library.atDistance options main (distance + 1 + 1) =
          firstMentions (library.within options main (distance + 1))
            ((library.within options main distance).flatMap (library.uses options main) ++
              (library.atDistance options main (distance + 1)).flatMap
                (library.uses options main)) := by
        rw [← List.flatMap_append]
        rfl
      rw [split, firstMentions_append_of_subset]
      intro used mentioned
      obtain ⟨user, known, uses⟩ := List.mem_flatMap.mp mentioned
      exact mem_within_succ.mpr (.inr ⟨user, known, uses⟩)

theorem within_eq_cons (distance : Nat) :
    library.within options main distance =
      main.view.moduleName :: (library.within options main distance).tail :=
  (List.cons_head?_tail (head?_within distance)).symm

/-- The search when it has come to a distance: the modules within it have been loaded, and what the
farthest of them use is in the queue. -/
theorem reachable_start (distance : Nat) :
    library.reachable options (Discovery.start main) =
      (library.within options main distance).tail.mapM (library.module options) >>= fun others =>
        library.reachable options
          ⟨main :: others, (library.within options main distance).reverse,
            (library.atDistance options main distance).flatMap (library.uses options main)⟩ := by
  induction distance with
  | zero =>
      have own : library.uses options main main.view.moduleName = main.view.uses.toList :=
        if_pos rfl
      simp [within, atDistance, own, Discovery.start]
  | succ distance ih =>
      have others : main.view.moduleName ∉ library.atDistance options main (distance + 1) := by
        intro member
        apply (mem_firstMentions.mp member).2
        rw [within_eq_cons]
        exact List.mem_cons_self
      have behind : library.within options main distance = _ := within_eq_cons distance
      have tail : (library.within options main (distance + 1)).tail =
          (library.within options main distance).tail ++
            library.atDistance options main (distance + 1) := by
        rw [within_succ, behind]
        rfl
      have seen (name : String) : name ∈ (library.within options main distance).reverse ↔
          name ∈ library.within options main distance := List.mem_reverse
      rw [ih, tail, List.mapM_append, bind_assoc]
      congr 1
      funext loaded
      have next := reachable_append library options (main :: loaded)
        (library.within options main distance).reverse
        ((library.atDistance options main distance).flatMap (library.uses options main)) []
      rw [List.append_nil, firstMentions_congr seen, firstMentions_atDistance] at next
      rw [next, bind_assoc]
      refine Except.bind_congr_of_ok fun units modules => ?_
      rw [pure_bind, within_succ, List.reverse_append, uses_of_modules others modules]
      rfl

/-- Loading links the main module with the others that it reaches, if these can all be had. -/
theorem loadFrom_eq (library : Library) (facades : List Facade) (options : LoadOptions)
    (main : LoadedUnit) :
    ∃ names, library.BreadthFirst options main (main.view.moduleName :: names) ∧
      library.loadFrom facades options main =
        names.mapM (library.module options) >>= fun others =>
          Program.link facades options.optimize (main :: others) := by
  obtain ⟨distance, closed⟩ := exists_newUses_eq_nil library options main
  refine ⟨(library.within options main distance).tail, ?_, ?_⟩
  · rw [← within_eq_cons]
    exact breadthFirst_of_closed closed
  · have ends (others : List LoadedUnit) : library.reachable options
        ⟨main :: others, (library.within options main distance).reverse,
          (library.atDistance options main distance).flatMap (library.uses options main)⟩ =
        .ok (main :: others) := by
      have next := reachable_append library options (main :: others)
        (library.within options main distance).reverse
        ((library.atDistance options main distance).flatMap (library.uses options main)) []
      rw [List.append_nil, firstMentions_congr (fun _ => List.mem_reverse),
        firstMentions_atDistance, atDistance, closed] at next
      rw [next, List.mapM_nil, pure_bind, reachable_eq]
      simp [Discovery.next, Discovery.firstUnseen]
    rw [loadFrom, reachable_start distance, bind_assoc]
    simp only [ends]
    rfl

/-- **Loading covers what is reachable.** The modules that the main module reaches, itself included,
stand in one breadth-first order. If all of them can be had, they are linked in that order, each of
them once and the main module first; otherwise loading fails for the reason that the first of them
cannot be had. -/
theorem loadFrom_covers_reachable (library : Library) (facades : List Facade)
    (options : LoadOptions) (main : LoadedUnit) :
    ∃ names, library.BreadthFirst options main (main.view.moduleName :: names) ∧
      ((∃ others, List.Forall₂ (fun name unit =>
            library.module options name = .ok unit ∧ unit.view.moduleName = name) names others ∧
          library.loadFrom facades options main =
            Program.link facades options.optimize (main :: others)) ∨
        ∃ before name after fault, names = before ++ name :: after ∧
          (∀ earlier ∈ before, ∃ unit, library.module options earlier = .ok unit) ∧
          library.module options name = .error fault ∧
          library.loadFrom facades options main = .error fault) := by
  obtain ⟨names, order, loads⟩ := loadFrom_eq library facades options main
  refine ⟨names, order, ?_⟩
  cases modules : names.mapM (library.module options) with
  | ok others =>
      refine .inl ⟨others, (Except.mapM_eq_ok_iff.mp modules).imp fun name unit loaded => ?_, ?_⟩
      · exact ⟨loaded, moduleName_of_module loaded⟩
      · rw [loads, modules]
        rfl
  | error fault =>
      obtain ⟨before, name, after, split, fine, fails⟩ := Except.exists_of_mapM_eq_error modules
      refine .inr ⟨before, name, after, fault, split, fine, fails, ?_⟩
      rw [loads, modules]
      rfl

end Library

end ObjectMachine
