/-!
# File names

A file name leads from directory to directory, each step ended by a slash. Empty steps and those
named by one point lead nowhere.
-/

namespace ObjectMachine

namespace Path

def steps (path : String) : List String :=
  path.splitOn "/"

/-- Whether a step stays where it is. -/
def isIdle (step : String) : Bool :=
  step == "" || step == "."

/-- The last name of a path; two points are none. -/
def lastName? (path : String) : Option String :=
  match (steps path).filter (!isIdle ·) |>.getLast? with
  | some ".." => none
  | name? => name?

/-- What follows the last point of a name, unless that point is all that the name starts with. -/
def ending? (path : String) : Option String :=
  match (lastName? path).map fun name => (name.splitOn ".").reverse with
  | none | some [] | some [_] | some [_, ""] => none
  | some (ending :: _) => some ending

def dropIdleEnd (steps : List String) : List String :=
  (steps.reverse.dropWhile isIdle).reverse

/-- The directory that a path leads to before its last step, empty if that is the first one. -/
def parent? (path : String) : Option String :=
  match steps path with
  | [] => none
  | first :: others =>
    match dropIdleEnd others with
    | [] => if first = "" then none else some ""
    | named =>
      match first, dropIdleEnd named.dropLast with
      | "", [] => some "/"
      | first, kept => some ("/".intercalate (first :: kept))

/-- A file in a directory. A file name that starts at the root needs no directory. -/
def join (directory file : String) : String :=
  if file.startsWith "/" then file
  else if directory = "" ∨ directory.endsWith "/" then directory ++ file
  else directory ++ "/" ++ file

end Path

end ObjectMachine
