import ObjectMachine.Native.Facade

/-!
# The console

Prints values, each call of `println` ending a line and counting it. An instance puts its prefix
before everything it prints.
-/

namespace ObjectMachine

namespace Console

/-- The number of lines that have been ended. -/
def lines : Native Value := do
  pure ((← get).shared.getD 0 (.long 0))

/-- The prefix of the instance; the class itself has none. -/
def heading? : Native (Option Value) := do
  pure ((← get).own.map fun slots => slots.getD 0 (.text ""))

def noField (name : String) : Native α :=
  throw s!"no field {name}"

def getField (name : String) : Native Value := do
  match name, ← heading? with
  | "lines", _ => lines
  | "prefix", some text => pure text
  | name, _ => noField name

def setField (display : Value → String) (name : String) (value : Value) : Native Unit := do
  match name, ← heading? with
  | "prefix", some _ => modify fun scope => { scope with own := some #[.text (display value)] }
  | "lines", _ => throw "field lines is read-only"
  | name, _ => noField name

/-- The lines of a printed text, without what ends them: a line feed, or a carriage return and a
line feed. What follows the last line feed is a line unless it is empty. -/
def printedLines (printed : String) : List String :=
  let pieces := printed.splitOn "\n"
  let ended := pieces.dropLast.map fun line =>
    if line.endsWith "\r" then (line.dropEnd 1).toString else line
  ended ++ pieces.getLast?.toList.filter (· != "")

/-- One more line than before. -/
def nextLine : Value → Value
  | .long count => .long (count + 1)
  | other => other

def print (display : Value → String) (endsLine : Bool) (value : Value) : Native Value := do
  let before := match ← heading? with
    | some (.text before) => before
    | _ => ""
  let count ← lines
  modify fun scope =>
    if endsLine then
      { scope with
        printed := scope.printed ++ before ++ display value ++ "\n"
        shared := #[nextLine count] }
    else { scope with printed := scope.printed ++ before ++ display value }
  pure .null

def call (display : Value → String) (name : String) (args : List Value) : Native Value :=
  match name, args with
  | "print", [value] => print display false value
  | "println", [value] => print display true value
  | name, args => throw s!"no method {name}/{args.length}"

def methods : List MethodRef :=
  [⟨"print", 1⟩, ⟨"println", 1⟩]

def facade : Facade where
  typeName := "om.Console"
  staticFields := ["lines"]
  instanceFields := ["prefix"]
  staticMethods := methods
  instanceMethods := methods
  shared := #[.long 0]
  create := pure #[.text ""]
  get := getField
  set := setField
  call := call

end Console

end ObjectMachine
