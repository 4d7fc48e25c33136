import ObjectMachine.Program.Linker

/-!
# Loading

The main module is loaded first, then the modules it uses, then those that they use, and so on;
every module once. The units come from a library that holds them by name.
-/

namespace ObjectMachine

structure LoadOptions where
  /-- Shrink the branches of the whole program. -/
  optimize : Bool
  /-- Check every unit before linking. -/
  verify : Bool
deriving DecidableEq, Repr

/-- Units by the name under which they are found. -/
abbrev Library := List (String × CompiledUnit)

/-- The modules found so far, and the names still to be looked at. -/
structure Discovery where
  found : List LoadedUnit
  seen : List String
  queue : List String
deriving DecidableEq, Repr

def LoadedUnit.check (options : LoadOptions) (name : String) (unit : CompiledUnit) :
    Except LoadError LoadedUnit :=
  if options.verify then
    match unit.verify with
    | .ok view => .ok ⟨unit.code, view⟩
    | .error fault => .error (.verify name fault)
  else
    match unit.view with
    | .ok view => .ok ⟨unit.code, view⟩
    | .error fault => .error (.unit name fault)

/-- Accepts a unit that must declare the name it was looked for under. -/
def LoadedUnit.checkNamed (options : LoadOptions) (name : String) (unit : CompiledUnit) :
    Except LoadError LoadedUnit := do
  let loaded ← check options name unit
  if loaded.view.moduleName = name then pure loaded
  else throw (.nameMismatch name loaded.view.moduleName)

namespace Discovery

def start (main : LoadedUnit) : Discovery :=
  ⟨[main], [main.view.moduleName], main.view.uses.toList⟩

/-- The first name that has not been seen, and the names behind it. -/
def firstUnseen (seen : List String) : List String → Option (String × List String)
  | [] => none
  | name :: rest => if seen.contains name then firstUnseen seen rest else some (name, rest)

def next (discovery : Discovery) : Option (String × Discovery) :=
  (firstUnseen discovery.seen discovery.queue).map fun (name, queue) =>
    (name, { discovery with seen := name :: discovery.seen, queue })

/-- Takes a module in and queues those it uses that have not been seen. -/
def accept (discovery : Discovery) (unit : LoadedUnit) : Discovery :=
  { discovery with
    found := discovery.found ++ [unit]
    queue := discovery.queue ++ unit.view.uses.toList.filter (!discovery.seen.contains ·) }

theorem firstUnseen_not_mem {seen queue rest : List String} {name : String}
    (h : firstUnseen seen queue = some (name, rest)) : name ∉ seen := by
  induction queue with
  | nil => simp [firstUnseen] at h
  | cons first others ih =>
    rw [firstUnseen] at h
    split at h
    · exact ih h
    · next unseen =>
      obtain ⟨rfl, rfl⟩ : first = name ∧ others = rest := by simpa using h
      simpa using unseen

theorem next_spec {discovery following : Discovery} {name : String}
    (h : discovery.next = some (name, following)) :
    name ∉ discovery.seen ∧ following.seen = name :: discovery.seen := by
  rw [next] at h
  cases first : firstUnseen discovery.seen discovery.queue with
  | none => simp [first] at h
  | some found =>
    obtain ⟨found, queue⟩ := found
    obtain ⟨rfl, rfl⟩ : found = name ∧ _ := by simpa [first] using h
    exact ⟨firstUnseen_not_mem first, rfl⟩

end Discovery

namespace Library

def insert (library : Library) (name : String) (unit : CompiledUnit) : Library :=
  (name, unit) :: library

/-- Adds a unit under the name it declares. -/
def add (library : Library) (unit : CompiledUnit) : Except LoadError Library :=
  match unit.view with
  | .ok view => .ok (library.insert view.moduleName unit)
  | .error fault => .error (.unit "<memory>" fault)

def find (library : Library) (name : String) : Except LoadError CompiledUnit :=
  match library.lookup name with
  | some unit => .ok unit
  | none => .error (.moduleNotFound name [])

/-- How many of the library's names have not been seen. -/
def unseen (library : Library) (seen : List String) : Nat :=
  library.countP fun entry => entry.1 ∉ seen

theorem unseen_cons_le (library : Library) (seen : List String) (name : String) :
    library.unseen (name :: seen) ≤ library.unseen seen := by
  refine List.countP_mono_left fun entry _ h => ?_
  simp only [decide_eq_true_eq, List.mem_cons, not_or] at h ⊢
  exact h.2

theorem unseen_lt {library : Library} {seen : List String} {name : String} {unit : CompiledUnit}
    (found : library.lookup name = some unit) (new : name ∉ seen) :
    library.unseen (name :: seen) < library.unseen seen := by
  induction library with
  | nil => simp at found
  | cons entry rest ih =>
    obtain ⟨key, content⟩ := entry
    have fewer := unseen_cons_le rest seen name
    by_cases same : name = key
    · subst same
      simp only [unseen, List.countP_cons, List.mem_cons, true_or, not_true, decide_false, new,
        not_false_eq_true, decide_true, if_true, Bool.false_eq_true, if_false] at fewer ⊢
      omega
    · have found : List.lookup name rest = some unit := by
        rw [List.lookup_cons, show (name == key) = false from beq_false_of_ne same] at found
        exact found
      have := ih found
      have other : key ≠ name := fun h => same h.symm
      simp only [unseen, List.countP_cons, List.mem_cons, other, false_or] at this ⊢
      omega

theorem unseen_accept_lt {library : Library} {discovery following : Discovery} {name : String}
    {unit : CompiledUnit} (loaded : LoadedUnit) (step : discovery.next = some (name, following))
    (found : library.lookup name = some unit) :
    library.unseen (following.accept loaded).seen < library.unseen discovery.seen := by
  obtain ⟨new, seen⟩ := Discovery.next_spec step
  rw [Discovery.accept, seen]
  exact unseen_lt found new

/-- All modules that can be reached from those discovered so far. -/
def reachable (library : Library) (options : LoadOptions) (discovery : Discovery) :
    Except LoadError (List LoadedUnit) :=
  match step : discovery.next with
  | none => .ok discovery.found
  | some (name, following) =>
    match found : library.lookup name with
    | none => .error (.moduleNotFound name [])
    | some unit =>
      match LoadedUnit.checkNamed options name unit with
      | .error fault => .error fault
      | .ok loaded =>
        have := unseen_accept_lt loaded step found
        library.reachable options (following.accept loaded)
termination_by library.unseen discovery.seen

/-- Loads the program whose main module has been accepted. -/
def loadFrom (library : Library) (facades : List Facade) (options : LoadOptions)
    (main : LoadedUnit) : Except LoadError Program := do
  let units ← library.reachable options (Discovery.start main)
  Program.link facades options.optimize units

/-- Loads the program whose main module has a given name. -/
def load (library : Library) (facades : List Facade) (options : LoadOptions) (main : String) :
    Except LoadError Program := do
  let unit ← library.find main
  let loaded ← LoadedUnit.checkNamed options main unit
  library.loadFrom facades options loaded

/-- Accepts a unit as the main module under whatever name it declares. -/
def checkMain (options : LoadOptions) (unit : CompiledUnit) : Except LoadError LoadedUnit :=
  match unit.view with
  | .ok view => LoadedUnit.check options view.moduleName unit
  | .error fault => .error (.unit "<main>" fault)

/-- Loads the program whose main module is a given unit. -/
def loadUnit (library : Library) (facades : List Facade) (options : LoadOptions)
    (main : CompiledUnit) : Except LoadError Program := do
  let loaded ← checkMain options main
  library.loadFrom facades options loaded

end Library

end ObjectMachine
