import ObjectMachine.Bytes.LittleEndian

/-!
# Hosts

A command reads and writes files and prints. The host that it runs on does that for it. One host
is the system; another is a folder, a value that holds the files and what has been printed.
-/

namespace ObjectMachine

/-- What a session is told by its surroundings. -/
structure Surroundings where
  /-- Directories to look for modules in, with colons between them. -/
  modulePath : Option String
  /-- Whether colours are unwanted. -/
  plain : Bool
deriving DecidableEq, Repr

/-- Why a system does not give access to a path. -/
inductive AccessError
  | missing
  | denied
  | notDirectory
  | isDirectory
  | nameTooLong
deriving DecidableEq, Repr

namespace AccessError

def all : List AccessError :=
  [missing, denied, notDirectory, isDirectory, nameTooLong]

/-- The number that systems give an error. -/
def number : AccessError → Nat
  | missing => 2
  | denied => 13
  | notDirectory => 20
  | isDirectory => 21
  | nameTooLong => 36

def text : AccessError → String
  | missing => "No such file or directory"
  | denied => "Permission denied"
  | notDirectory => "Not a directory"
  | isDirectory => "Is a directory"
  | nameTooLong => "File name too long"

/-- A text about an error with a number. -/
def numbered (text : String) (number : Nat) : String :=
  s!"{text} (os error {number})"

def message (fault : AccessError) : String :=
  numbered fault.text fault.number

end AccessError

/-- What a command may do. Where the system may refuse, it gives a reason. -/
structure Host (m : Type → Type) where
  fetch (path : String) : m (Except String Bytes)
  keep (path : String) (content : Bytes) : m (Except String Unit)
  isFile (path : String) : m Bool
  print (text : String) : m Unit
  complain (text : String) : m Unit

end ObjectMachine
