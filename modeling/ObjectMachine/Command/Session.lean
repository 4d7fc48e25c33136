import ObjectMachine.Command.Modules
import ObjectMachine.Command.Style
import ObjectMachine.Machine.Engine
import ObjectMachine.Report.Metadata

/-!
# Sessions

A session carries out one request on a host. Its work is reading units, linking and running them,
and telling how that went.
-/

namespace ObjectMachine

/-- How a session ends. -/
inductive Exit
  | success
  | failure
  | misuse
  /-- A run has come to where no thread stands in the running one's place. -/
  | crash
deriving DecidableEq, Repr

def Exit.code : Exit → UInt8
  | success => 0
  | failure => 1
  | misuse => 2
  | crash => 101

namespace Session

open Host

variable {m : Type → Type} [Monad m] (host : Host m)

def printLine (line : String) : ExceptT Problem m Unit :=
  host.print (line ++ "\n")

/-- Lets the time of day go on by a tick. A session has no other measure of it than the
instructions that it has carried out. -/
def passTime (machine : Machine) : Machine :=
  match machine.world.clock.source with
  | .wall interval ahead =>
    { machine with world.clock.source := .wall interval (ahead ++ [⟨1, true⟩]) }
  | .steps _ => machine

/-- Runs on, and prints what has been printed after every so many instructions. A run of more
rounds would outlast the host. -/
def drive (setup : Setup) : Nat → Progress → m (Option Outcome)
  | 0, _ => pure none
  | rounds + 1, progress => do
    let progress := progress.advance setup 65536
    let (printed, progress) := progress.takePrinted
    if printed ≠ "" then host.print printed
    match progress with
    | .ended outcome => pure (some outcome)
    | .running machine => drive setup rounds (.running (passTime machine))

def mostRounds : Nat := 1 <<< 62

/-- Runs a program and prints its result, unless that is null. -/
def run (surroundings : Surroundings) (request : RunRequest) : ExceptT Problem m Exit := do
  let program ← load host surroundings request
  let limits : Limits := { stack := request.maxStack.getD Stack.defaultLimit }
  let setup : Setup := ⟨program, limits⟩
  let start := Machine.start setup (Store.ofCatalog program.catalog) request.tick request.args
  match ← ExceptT.lift (drive host setup mostRounds start) with
  | none | some ⟨.crashed, _⟩ => pure .crash
  | some ⟨.faulted fault trace, _⟩ =>
    let calls := trace.map (·.describe program.catalog program.symbols)
    throw ⟨[fault.message], calls⟩
  | some ⟨.finished .null, _⟩ => pure .success
  | some ⟨.finished result, store⟩ =>
    printLine host (program.describe store.heap result)
    pure .success

/-- Writes a unit with minimal branch widths. -/
def optimize (style : Style) (input output : String) : ExceptT Problem m Exit := do
  let unit ← orProblem ofLoad (readUnit host input)
  let shrunk ← orProblem (fun fault : ShrinkError =>
    (Problem.because fault.causes).within s!"Failed to optimize {input}")
    (settled unit.shrink)
  match ← host.keep output shrunk.unit.encode with
  | .error reason => throw (.because [s!"Failed to write {output}", reason])
  | .ok _ =>
    let gain := s!"({shrunk.bytesSaved} bytes saved in {shrunk.passes} passes)"
    printLine host (style.green "ok" ++ s!" {input} -> {output} {gain}")
    pure .success

/-- The name of the sound unit in a file. -/
def verifyFile (path : String) : ExceptT Problem m String := do
  let unit ← orProblem ofLoad (readUnit host path)
  let view ← orProblem (fun fault : VerifyError => Problem.because fault.causes)
    (settled unit.verify)
  pure view.moduleName

/-- Verifies files and counts those that are not sound. -/
def verifyEach (style : Style) : List String → ExceptT Problem m Nat
  | [] => pure 0
  | path :: paths => do
    let failed ← ExceptT.mk do
      match ← (verifyFile host path).run with
      | .ok name =>
        host.print (style.green "ok" ++ s!" {path} (module {name})\n")
        pure (.ok 0)
      | .error problem =>
        host.print (style.red "FAILED" ++ s!" {path}: {problem.summary}\n")
        pure (.ok 1)
    pure (failed + (← verifyEach style paths))

def verify (style : Style) (files : List String) : ExceptT Problem m Exit := do
  let failed ← verifyEach host style files
  if failed = 0 then pure .success
  else throw (.because [s!"{failed} of {files.length} unit(s) failed verification"])

/-- Prints what a unit declares, and its code if wanted. -/
def inspect (file : String) (withCode : Bool) : ExceptT Problem m Exit := do
  let unit ← orProblem ofLoad (readUnit host file)
  let malformed (part : String) (causes : List String) : Problem :=
    (Problem.because causes).within s!"Malformed {part} in {file}"
  let view ← orProblem (fun fault : UnitError => malformed "metadata" fault.causes)
    (settled unit.view)
  let code ← orProblem (fun fault : DecodeError => malformed "code" [fault.message])
    (settled (if withCode then unit.instructions.map some else .ok none))
  let listing := code.toList.map fun instructions =>
    ("code", report (instructions.map (·.text)))
  let sheet := Report.object (listing ++ [("code_size", report unit.code.length),
    ("file", report file), ("metadata", report view)])
  printLine host (sheet.pretty 0)
  pure .success

def perform (surroundings : Surroundings) (style : Style) :
    Request → ExceptT Problem m Exit
  | .run request => run host surroundings request
  | .optimize input output => optimize host style input output
  | .verify files => verify host style files
  | .inspect file withCode => inspect host file withCode

/-- Tells a problem and where it came up. -/
def complain (style : Style) (problem : Problem) : m Unit := do
  let calls := problem.trace.map ("    at " ++ · ++ "\n")
  host.complain (style.red "error" ++ ": " ++ problem.message ++ "\n" ++ String.join calls)

def usage : String :=
  "usage: om run [-p DIR]... [--no-optimize] [--no-verify] [--tick-ms N | --tick-steps N]\n" ++
  "              [--max-stack N] MODULE [ARGS]...\n" ++
  "       om optimize INPUT -o OUTPUT\n" ++
  "       om verify FILES...\n" ++
  "       om inspect FILE [--code]\n" ++
  "options: -v, --verbose; --color auto|always|never; -h, --help; -V, --version\n"

/-- Carries out what a command line asks for. -/
def execute (surroundings : Surroundings) (words : List String) : m Exit := do
  match Invocation.read words with
  | .error .help =>
    host.print usage
    pure .success
  | .error .version =>
    host.print "om 0.2.0\n"
    pure .success
  | .error (.misuse misuse) =>
    host.complain ("error: " ++ misuse.message ++ "\n" ++ usage)
    pure .misuse
  | .ok invocation =>
    let style := Style.choose surroundings invocation.color
    match ← (perform host surroundings style invocation.request).run with
    | .ok exit => pure exit
    | .error problem =>
      complain host style problem
      pure .failure

end Session

end ObjectMachine
