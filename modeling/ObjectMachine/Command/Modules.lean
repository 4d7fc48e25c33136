import ObjectMachine.Command.Host
import ObjectMachine.Command.Path
import ObjectMachine.Command.Problem
import ObjectMachine.Command.Request
import ObjectMachine.Native.Console
import ObjectMachine.Program.Loader

/-!
# Modules on a host

A unit is read from a file. The file of a module is the first of its name in the directories where
modules are looked for.
-/

namespace ObjectMachine

namespace Host

variable {m : Type → Type} [Monad m] (host : Host m)

def settled (result : Except ε α) : ExceptT ε m α :=
  ExceptT.mk (pure result)

def readUnit (path : String) : ExceptT LoadError m CompiledUnit := do
  match ← host.fetch path with
  | .error reason => throw (.io path reason)
  | .ok content =>
    match CompiledUnit.decode content with
    | .ok unit => pure unit
    | .error fault => throw (.unit path fault)

def firstFile : List String → m (Option String)
  | [] => pure none
  | path :: paths => do
    if ← host.isFile path then pure (some path) else firstFile paths

/-- The unit of a module, from the first directory that has a file of its name. -/
def findUnit (directories : List String) (name : String) : ExceptT LoadError m CompiledUnit := do
  let places := directories.map fun directory =>
    Path.join directory (name ++ "." ++ CompiledUnit.fileEnding)
  match ← ExceptT.lift (firstFile host places) with
  | some path => readUnit host path
  | none => throw (.moduleNotFound name places)

/-- The modules that can be reached from those discovered, which are at most so many more. -/
def gather (options : LoadOptions) (directories : List String) :
    Nat → Discovery → ExceptT LoadError m (List LoadedUnit)
  | 0, discovery => pure discovery.found
  | more + 1, discovery =>
    match discovery.next with
    | none => pure discovery.found
    | some (name, following) => do
      let unit ← findUnit host directories name
      let loaded ← settled (LoadedUnit.checkNamed options name unit)
      gather options directories more (following.accept loaded)

/-- More modules than any host holds. -/
def mostModules : Nat := 1 <<< 62

/-- Links the program of a main module. -/
def link (options : LoadOptions) (directories : List String) (main : LoadedUnit) :
    ExceptT LoadError m Program := do
  let units ← gather host options directories mostModules (Discovery.start main)
  settled (Program.link [Console.facade] options.optimize units)

def orProblem (problem : ε → Problem) (action : ExceptT ε m α) : ExceptT Problem m α :=
  ExceptT.mk do pure ((← action.run).mapError problem)

def ofLoad (fault : LoadError) : Problem :=
  .because fault.causes

/-- The file that a request to run names, if it names one. -/
def namedFile (text : String) : m (Option String) := do
  if Path.ending? text = some CompiledUnit.fileEnding then pure (some text)
  else pure (if ← host.isFile text then some text else none)

/-- Where modules are looked for: in the directories that are asked for, where the main file is,
on the module path, or else here. -/
def directories (surroundings : Surroundings) (paths : List String) (file : Option String) :
    List String :=
  let beside := (file.bind Path.parent?).map fun parent => if parent = "" then "." else parent
  let listed := (surroundings.modulePath.map (·.splitOn ":")).getD []
  match paths ++ beside.toList ++ listed with
  | [] => ["."]
  | found => found

/-- Loads the program that a request names. -/
def load (surroundings : Surroundings) (request : RunRequest) : ExceptT Problem m Program := do
  let file ← ExceptT.lift (namedFile host request.moduleName)
  let directories := directories surroundings request.paths file
  let options : LoadOptions := ⟨request.optimize, request.verify⟩
  let failed (fault : LoadError) : Problem :=
    (ofLoad fault).within s!"Failed to load {request.moduleName}"
  let main : ExceptT Problem m LoadedUnit := match file with
    | some path => do
      let unit ← orProblem ofLoad (readUnit host path)
      orProblem failed (settled (Library.checkMain options unit))
    | none =>
      orProblem failed do
        let unit ← findUnit host directories request.moduleName
        settled (LoadedUnit.checkNamed options request.moduleName unit)
  let main ← main
  orProblem failed (link host options directories main)

end Host

end ObjectMachine
