/-!
# Symbols

Names of fields and methods are numbered in the order in which they are first seen, so that two
names are equal exactly if their numbers are.
-/

namespace ObjectMachine

structure Symbol where
  index : Nat
deriving DecidableEq, Repr

/-- What tells the methods of a class apart. -/
structure MethodKey where
  name : Symbol
  arity : UInt16
deriving DecidableEq, Repr

structure SymbolTable where
  names : Array String
deriving DecidableEq, Repr

namespace SymbolTable

def empty : SymbolTable := ⟨#[]⟩

/-- The symbol of a name that has been seen. -/
def find? (table : SymbolTable) (name : String) : Option Symbol :=
  (table.names.idxOf? name).map Symbol.mk

/-- The symbol of a name, a new one if need be. -/
def intern (table : SymbolTable) (name : String) : Symbol × SymbolTable :=
  match table.find? name with
  | some symbol => (symbol, table)
  | none => (⟨table.names.size⟩, ⟨table.names.push name⟩)

/-- The name of a symbol; a symbol of another table may have none. -/
def name (table : SymbolTable) (symbol : Symbol) : String :=
  table.names.getD symbol.index "?"

/-- A method as name and number of arguments. -/
def signature (table : SymbolTable) (key : MethodKey) : String :=
  s!"{table.name key.name}/{key.arity.toNat}"

end SymbolTable

end ObjectMachine
