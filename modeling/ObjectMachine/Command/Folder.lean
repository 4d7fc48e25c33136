import ObjectMachine.Command.Host
import ObjectMachine.Command.Path

/-!
# Folders

A folder holds files by the names that lead to them. The directories are those that its files are
in, and those that the folder is in, as many as one asks for. It answers as a system does that
holds nothing else.
-/

namespace ObjectMachine

/-- Where names start. -/
inductive Anchor
  /-- So many directories above the folder. -/
  | above (levels : Nat)
  | root
deriving DecidableEq, Repr

/-- Where one gets along names. -/
structure Place where
  anchor : Anchor
  names : List String
deriving DecidableEq, Repr

structure Folder where
  /-- Contents by place. -/
  files : List (Place × Bytes)
  printed : String
  complaints : String
deriving DecidableEq, Repr

namespace Place

/-- A place in the folder. -/
def inside (names : List String) : Place := ⟨.above 0, names⟩

/-- The directory that a place is in; the root is in itself. -/
def parent (place : Place) : Place :=
  match place.names, place.anchor with
  | [], .above levels => ⟨.above (levels + 1), []⟩
  | names, anchor => ⟨anchor, names.dropLast⟩

def child (place : Place) (name : String) : Place :=
  { place with names := place.names ++ [name] }

/-- Whether a place is a directory if there is something at another one. -/
def isAbove (place other : Place) : Bool :=
  place.anchor = other.anchor && place.names.isPrefixOf other.names && place.names != other.names

end Place

namespace Folder

def empty : Folder := ⟨[], "", ""⟩

/-- Bytes that a name may have. -/
def longestName : Nat := 255

/-- Bytes that a path may have. -/
def longestPath : Nat := 4095

def isDirectory (folder : Folder) (place : Place) : Bool :=
  place.names.isEmpty || folder.files.any fun (other, _) => place.isAbove other

/-- Whether one can go on from a place. -/
def enter (folder : Folder) (place : Place) : Except AccessError Unit :=
  if folder.isDirectory place then .ok ()
  else if (folder.files.lookup place).isSome then .error .notDirectory
  else .error .missing

/-- One step on from a place, which must be a directory. -/
def follow (folder : Folder) (place : Place) (step : String) : Except AccessError Place := do
  folder.enter place
  if Path.isIdle step then pure place
  else if step = ".." then pure place.parent
  else if longestName < step.utf8ByteSize then throw .nameTooLong
  else pure (place.child step)

/-- The place that steps lead to. Nothing needs to be there. -/
def walk (folder : Folder) (path : String) (steps : List String) : Except AccessError Place :=
  steps.foldlM folder.follow ⟨if path.startsWith "/" then .root else .above 0, []⟩

/-- A path that is neither empty nor too long. -/
def check (path : String) : Except AccessError Unit :=
  if path = "" then .error .missing
  else if longestPath < path.utf8ByteSize then .error .nameTooLong
  else .ok ()

def content (folder : Folder) (path : String) : Except AccessError Bytes := do
  check path
  let place ← folder.walk path (Path.steps path)
  match folder.files.lookup place with
  | some content => pure content
  | none => throw (if folder.isDirectory place then .isDirectory else .missing)

def insert (folder : Folder) (place : Place) (content : Bytes) : Folder :=
  { folder with files := (place, content) :: folder.files.filter (·.1 != place) }

/-- Where a file may be written. A slash at the end of a path asks for a directory, whatever name
stands before it. -/
def target (folder : Folder) (path : String) : Except AccessError Place := do
  check path
  let steps := (Path.steps path).reverse.dropWhile (· == "")
  let place ← folder.walk path (steps.drop 1).reverse
  let last := steps.headD ""
  if path.endsWith "/" ∧ last ≠ ".." then
    folder.enter place
    throw .isDirectory
  let place ← folder.follow place last
  if folder.isDirectory place then throw .isDirectory
  pure place

def keep (path : String) (content : Bytes) : StateM Folder (Except String Unit) := do
  let folder ← get
  match folder.target path with
  | .ok place =>
    set (folder.insert place content)
    pure (.ok ())
  | .error fault => pure (.error fault.message)

/-- A folder as a host. -/
def host : Host (StateM Folder) where
  fetch path := do pure (((← get).content path).mapError (·.message))
  keep := keep
  isFile path := do pure ((← get).content path).toOption.isSome
  print text := modify fun folder => { folder with printed := folder.printed ++ text }
  complain text := modify fun folder => { folder with complaints := folder.complaints ++ text }

end Folder

end ObjectMachine
