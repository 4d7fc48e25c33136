import ObjectMachine.Compiled.Shrink
import ObjectMachine.Program.Error

/-!
# Problems of commands

A command that fails tells what it could not do and why, and why that in turn, as far as it is
known. A cause is told even where the text before it has told it already.
-/

namespace ObjectMachine

/-- Why a command fails. -/
structure Problem where
  /-- Each followed by what caused it. -/
  causes : List String
  /-- The calls in which a fault came up, innermost first. -/
  trace : List String
deriving DecidableEq, Repr

def UnitError.causes (fault : UnitError) : List String :=
  fault.message :: match fault with
    | decode cause => [cause.message]
    | _ => []

def LayoutError.causes (fault : LayoutError) : List String :=
  fault.message :: match fault with
    | decode cause => [cause.message]
    | _ => []

def VerifyError.causes (fault : VerifyError) : List String :=
  fault.message :: match fault with
    | decode cause => [cause.message]
    | unit cause => cause.causes
    | _ => []

/-- A fault of the layout is told as it is. -/
def ShrinkError.causes : ShrinkError → List String
  | unit cause => (unit cause).message :: cause.causes
  | layout cause => cause.causes

def LoadError.causes (fault : LoadError) : List String :=
  fault.message :: match fault with
    | io _ reason => [reason]
    | unit _ cause => cause.causes
    | verify _ cause => cause.causes
    | optimize cause => cause.causes
    | _ => []

namespace Problem

def because (causes : List String) : Problem := ⟨causes, []⟩

/-- A problem within a larger task that fails by it. -/
def within (task : String) (problem : Problem) : Problem :=
  { problem with causes := task :: problem.causes }

/-- What the problem is, without its causes. -/
def summary (problem : Problem) : String :=
  problem.causes.headD ""

def message (problem : Problem) : String :=
  ": ".intercalate problem.causes

end Problem

end ObjectMachine
