/-!
# Options

The words of a command line are options and operands. An option has two dashes before its name or
one before its letter. Letters may stand together. A value follows as the next word, or after an
equals sign, or right behind the letter. After two dashes alone there are only operands.
-/

namespace ObjectMachine

/-- Why the words of a command line are no command. -/
inductive Misuse
  | noCommand
  | unknownCommand (name : String)
  | unknownOption (text : String)
  | missingValue (option : String)
  | unexpectedValue (option : String)
  | repeated (option : String)
  | invalidValue (option value : String)
  | unexpectedOperand (text : String)
  | missing (what : String)
  | conflict (first second : String)
deriving DecidableEq, Repr

def Misuse.message : Misuse → String
  | noCommand => "a command is required"
  | unknownCommand name => s!"unknown command '{name}'"
  | unknownOption text => s!"unknown option '{text}'"
  | missingValue option => s!"option '{option}' needs a value"
  | unexpectedValue option => s!"option '{option}' takes no value"
  | repeated option => s!"option '{option}' is given more than once"
  | invalidValue option value => s!"invalid value '{value}' for '{option}'"
  | unexpectedOperand text => s!"unexpected argument '{text}'"
  | missing what => s!"{what} is required"
  | conflict first second => s!"'{first}' cannot be used with '{second}'"

/-- Why the reading of a command line ends before its command is known. -/
inductive Stop
  | misuse (misuse : Misuse)
  | help
  | version
deriving DecidableEq, Repr

structure OptionRule where
  name : String
  letter : Option Char
  /-- Which values it takes, if any. -/
  accepts : Option (String → Bool)
  mayRepeat : Bool
  /-- What it asks for instead of a command. -/
  stop : Option Stop

namespace OptionRule

def flag (name : String) (letter : Option Char) : OptionRule := ⟨name, letter, none, false, none⟩

def valued (name : String) (letter : Option Char) (accepts : String → Bool) : OptionRule :=
  ⟨name, letter, some accepts, false, none⟩

end OptionRule

/-- What may stand on a command line beside options. -/
inductive OperandRule
  /-- The name of a command, with all that belongs to it. -/
  | command
  /-- So many operands that satisfy a condition. -/
  | upTo (count : Nat) (accepts : String → Bool)
  /-- Any operands that satisfy a condition. -/
  | any (accepts : String → Bool)
  /-- One operand and then whatever words follow the next. -/
  | headed

structure LineRule where
  options : List OptionRule
  operands : OperandRule

/-- What a command line holds. A flag's value is empty. -/
structure CommandLine where
  options : List (String × String)
  operands : List String
deriving DecidableEq, Repr

namespace CommandLine

def empty : CommandLine := ⟨[], []⟩

def has (line : CommandLine) (name : String) : Bool :=
  line.options.any (·.1 == name)

def value? (line : CommandLine) (name : String) : Option String :=
  line.options.lookup name

/-- The values of an option in the order given. -/
def values (line : CommandLine) (name : String) : List String :=
  (line.options.filter (·.1 == name)).map (·.2)

/-- Adds an option. -/
def give (line : CommandLine) (rule : OptionRule) (value : String) : Except Stop CommandLine :=
  match rule.stop with
  | some stop => .error stop
  | none =>
    if !rule.mayRepeat && line.has rule.name then .error (.misuse (.repeated rule.name))
    else if rule.accepts.all (· value) then
      .ok { line with options := line.options ++ [(rule.name, value)] }
    else .error (.misuse (.invalidValue rule.name value))

/-- Adds an operand, which may be one too many. -/
def operand (rule : LineRule) (line : CommandLine) (text : String) : Except Stop CommandLine :=
  let added : CommandLine := { line with operands := line.operands ++ [text] }
  match rule.operands with
  | .command | .headed => .ok added
  | .any accepts =>
    if accepts text then .ok added else .error (.misuse (.invalidValue "operand" text))
  | .upTo count accepts =>
    if count ≤ line.operands.length then .error (.misuse (.unexpectedOperand text))
    else if accepts text then .ok added
    else .error (.misuse (.invalidValue "operand" text))

/-- Whether an operand has all words behind it as operands too. -/
def endsOptions (rule : LineRule) (line : CommandLine) : Bool :=
  match rule.operands with
  | .command => true
  | .headed => !line.operands.isEmpty
  | .upTo _ _ | .any _ => false

/-- Letters behind one dash. If the last one's option lacks its value, that option is given too. -/
def letters (rule : LineRule) (line : CommandLine) :
    List Char → Except Stop (CommandLine × Option OptionRule)
  | [] => .ok (line, none)
  | letter :: rest =>
    match rule.options.find? (·.letter = some letter) with
    | none => .error (.misuse (.unknownOption s!"-{letter}"))
    | some option =>
      if option.accepts.isNone then do
        let line ← line.give option ""
        letters rule line rest
      else
        match rest with
        | [] => .ok (line, some option)
        | '=' :: value | value => do
          pure (← line.give option (String.ofList value), none)

/-- A word of two dashes and more. If its option lacks its value, that option is given too. -/
def named (rule : LineRule) (line : CommandLine) (word : String) :
    Except Stop (CommandLine × Option OptionRule) :=
  let (name, attached) := match word.splitOn "=" with
    | name :: first :: rest => (name, some ("=".intercalate (first :: rest)))
    | _ => (word, none)
  match rule.options.find? ("--" ++ ·.name = name), attached with
  | none, _ => .error (.misuse (.unknownOption word))
  | some option, none =>
    if option.accepts.isSome then .ok (line, some option)
    else (line.give option "").map (·, none)
  | some option, some value =>
    if option.accepts.isSome then (line.give option value).map (·, none)
    else .error (.misuse (.unexpectedValue option.name))

/-- Whether a word is no operand and no value. -/
def isOption (word : String) : Bool :=
  word.startsWith "-" && word != "-"

/-- Reads words, of which the first may be the value of an option. -/
def read (rule : LineRule) (line : CommandLine) (waiting : Option OptionRule) :
    List String → Except Stop CommandLine
  | [] =>
    match waiting with
    | some option => .error (.misuse (.missingValue option.name))
    | none => .ok line
  | word :: words => do
    match waiting, isOption word with
    | some option, true => .error (.misuse (.missingValue option.name))
    | some option, false => read rule (← line.give option word) none words
    | none, true =>
      if word = "--" then
        match rule.operands with
        | .command => .error (.misuse .noCommand)
        | _ => words.foldlM (operand rule) line
      else
        let (line, waiting) ← if word.startsWith "--" then named rule line word
          else letters rule line (word.toList.drop 1)
        read rule line waiting words
    | none, false =>
      if endsOptions rule line then words.foldlM (operand rule) (← operand rule line word)
      else read rule (← operand rule line word) none words

end CommandLine

end ObjectMachine
