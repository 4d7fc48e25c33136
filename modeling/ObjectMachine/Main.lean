import ObjectMachine.Command.Session

/-!
# The program

Carries out its command line on the system.
-/

namespace ObjectMachine

namespace Host

/-- The text about an error. Its number may be given as a negative one. -/
def describe (code : UInt32) (text : String) : String :=
  let number := if code < 0x80000000 then code.toNat else (-code).toNat
  match AccessError.all.find? (·.number = number) with
  | some fault => fault.message
  | none => AccessError.numbered text.capitalize number

/-- What the system says about a failure. -/
def reason : IO.Error → String
  | .alreadyExists _ code text | .noFileOrDirectory _ code text | .invalidArgument _ code text
  | .permissionDenied _ code text | .resourceExhausted _ code text | .inappropriateType _ code text
  | .noSuchThing _ code text | .interrupted _ code text | .otherError code text
  | .resourceBusy code text | .resourceVanished code text | .unsupportedOperation code text
  | .hardwareFault code text | .unsatisfiedConstraints code text | .illegalOperation code text
  | .protocolError code text | .timeExpired code text => describe code text
  | fault => fault.toString

def attempt (action : IO α) : IO (Except String α) := do
  match ← action.toBaseIO with
  | .ok result => pure (.ok result)
  | .error fault => pure (.error (reason fault))

/-- The system as a host. -/
def system : Host IO where
  fetch path := attempt do pure (← IO.FS.readBinFile path).toList
  keep path content := attempt (IO.FS.writeBinFile path (ByteArray.mk content.toArray))
  isFile path := do pure (← attempt (IO.FS.readBinFile path)).toOption.isSome
  print text := do (← IO.getStdout).putStr text
  complain text := do (← IO.getStderr).putStr text

end Host

/-- Carries out a command line on the system. -/
def Session.start (words : List String) : IO UInt32 := do
  let surroundings : Surroundings := ⟨← IO.getEnv "OM_PATH", (← IO.getEnv "NO_COLOR").isSome⟩
  let exit ← Session.execute Host.system surroundings words
  pure exit.code.toUInt32

end ObjectMachine

def main (args : List String) : IO UInt32 :=
  ObjectMachine.Session.start args
