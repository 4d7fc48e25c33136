import ObjectMachine.Command.Options
import ObjectMachine.Decimal.Reader
import ObjectMachine.Machine.Clock

/-!
# Requests

A command line asks for a module to be run, a unit to be optimized, units to be verified or a unit
to be shown.
-/

namespace ObjectMachine

/-- How a module is run. -/
structure RunRequest where
  /-- A module's name or a file. -/
  moduleName : String
  /-- What the main method gets. -/
  args : List String
  /-- Where modules are looked for first. -/
  paths : List String
  optimize : Bool
  verify : Bool
  tick : TickSource
  /-- Height of each thread's value stack, if it is not the usual one. -/
  maxStack : Option Nat
deriving DecidableEq, Repr

inductive Request
  | run (request : RunRequest)
  | optimize (input output : String)
  | verify (files : List String)
  | inspect (file : String) (withCode : Bool)
deriving DecidableEq, Repr

/-- A request and the colour mode that it comes with. -/
structure Invocation where
  color : Option String
  request : Request
deriving DecidableEq, Repr

namespace Invocation

/-- A number of 64 bits. -/
def number? (text : String) : Option Nat :=
  Decimal.unsignedBelow? 64 text.toList

def isPath (text : String) : Bool :=
  text != ""

/-- The options that may stand before a command and behind it. -/
def commonOptions : List OptionRule :=
  [.flag "verbose" (some 'v'), .valued "color" none fun _ => true,
    { OptionRule.flag "help" (some 'h') with stop := some .help }]

def outerRule : LineRule where
  options := { OptionRule.flag "version" (some 'V') with stop := some .version } :: commonOptions
  operands := .command

def runRule : LineRule where
  options := commonOptions ++ [
    { OptionRule.valued "path" (some 'p') isPath with mayRepeat := true },
    .flag "no-optimize" none, .flag "no-verify" none,
    .valued "tick-ms" none fun text => (number? text).isSome,
    .valued "tick-steps" none fun text => (number? text).isSome,
    .valued "max-stack" none fun text => (number? text).isSome]
  operands := .headed

def optimizeRule : LineRule where
  options := commonOptions ++ [.valued "output" (some 'o') isPath]
  operands := .upTo 1 isPath

def verifyRule : LineRule where
  options := commonOptions
  operands := .any isPath

def inspectRule : LineRule where
  options := commonOptions ++ [.flag "code" none]
  operands := .upTo 1 isPath

def refuse (misuse : Misuse) : Except Stop α :=
  .error (.misuse misuse)

/-- A clock that is not told otherwise ticks every ten milliseconds. What the time of day does is
not known beforehand. -/
def tickOf (line : CommandLine) : TickSource :=
  let number (name : String) : Option UInt64 :=
    ((line.value? name).bind number?).map UInt64.ofNat
  match number "tick-steps", number "tick-ms" with
  | some every, _ => .steps (max every 1)
  | none, some interval => .wall (max interval 1) []
  | none, none => .wall 10 []

def readRun (words : List String) : Except Stop (CommandLine × Request) := do
  let line ← CommandLine.read runRule .empty none words
  match line.operands with
  | [] => refuse (.missing "a module")
  | moduleName :: args =>
    if line.has "tick-ms" && line.has "tick-steps" then refuse (.conflict "tick-ms" "tick-steps")
    else
      pure (line, .run {
        moduleName
        args
        paths := line.values "path"
        optimize := !line.has "no-optimize"
        verify := !line.has "no-verify"
        tick := tickOf line
        maxStack := (line.value? "max-stack").bind number? })

def readOptimize (words : List String) : Except Stop (CommandLine × Request) := do
  let line ← CommandLine.read optimizeRule .empty none words
  match line.operands, line.value? "output" with
  | input :: _, some output => pure (line, .optimize input output)
  | [], _ => refuse (.missing "a unit")
  | _, none => refuse (.missing "option 'output'")

def readVerify (words : List String) : Except Stop (CommandLine × Request) := do
  let line ← CommandLine.read verifyRule .empty none words
  match line.operands with
  | [] => refuse (.missing "a unit")
  | files => pure (line, .verify files)

def readInspect (words : List String) : Except Stop (CommandLine × Request) := do
  let line ← CommandLine.read inspectRule .empty none words
  match line.operands with
  | [] => refuse (.missing "a unit")
  | file :: _ => pure (line, .inspect file (line.has "code"))

/-- Help on a command that there is. -/
def readHelp : List String → Except Stop (CommandLine × Request)
  | [] | ["run"] | ["optimize"] | ["verify"] | ["inspect"] | ["help"] => .error .help
  | names => refuse (.unknownCommand (names.headD ""))

/-- Reads a command line. What is said behind the command about colour counts before what is said
in front of it. -/
def read (words : List String) : Except Stop Invocation := do
  let outer ← CommandLine.read outerRule .empty none words
  let (line, request) ← match outer.operands with
    | [] => refuse .noCommand
    | "run" :: rest => readRun rest
    | "optimize" :: rest => readOptimize rest
    | "verify" :: rest => readVerify rest
    | "inspect" :: rest => readInspect rest
    | "help" :: rest => readHelp rest
    | name :: _ => refuse (.unknownCommand name)
  pure ⟨(line.value? "color").or (outer.value? "color"), request⟩

end Invocation

end ObjectMachine
