import ObjectMachine.Command.Host

/-!
# Style

Labels in what a command prints are green or red and bold where colours are asked for.
-/

namespace ObjectMachine

/-- Whether labels are coloured. -/
inductive Style
  | plain
  | colored
deriving DecidableEq, Repr

namespace Style

/-- Colours are used where they are asked for and not unwanted. -/
def choose (surroundings : Surroundings) (mode : Option String) : Style :=
  if mode = some "always" ∧ !surroundings.plain then colored else plain

def paint (code : String) (style : Style) (label : String) : String :=
  match style with
  | plain => label
  | colored => "\x1b[0m\x1b[1m\x1b[" ++ code ++ "m" ++ label ++ "\x1b[0m"

def green : Style → String → String := paint "32"

def red : Style → String → String := paint "31"

end Style

end ObjectMachine
