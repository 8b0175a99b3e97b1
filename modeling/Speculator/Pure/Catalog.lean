import Speculator.Pure.Builtins
import Speculator.Pure.Methods

/-!
# The catalog of pure functions

A catalog finds the contract of a builtin function by its name, and that of a method by the type of its receiver and
its name.
-/

namespace Speculator

structure Catalog where
  builtins : List (String × Contract)
  methods : List ((String × String) × Contract)

namespace Catalog

def empty : Catalog := ⟨[], []⟩

instance : Inhabited Catalog := ⟨empty⟩

def standard : Catalog :=
  { builtins := Builtin.contracts.map fun c => (c.name, c)
    methods := Method.contracts.map fun m => ((m.1, m.2.name), m.2) }

def put {α : Type} [BEq α] (entries : List (α × Contract)) (key : α) (c : Contract) : List (α × Contract) :=
  (key, c) :: entries.filter fun entry => entry.1 != key

def registerBuiltin (catalog : Catalog) (c : Contract) : Except Cause Catalog :=
  if c.isValid then .ok { catalog with builtins := put catalog.builtins c.name c }
  else .error (.invariant ("invalid contract for pure function " ++ c.name ++ "()"))

def registerMethod (catalog : Catalog) (type : String) (c : Contract) : Except Cause Catalog :=
  if c.isValid then .ok { catalog with methods := put catalog.methods (type, c.name) c }
  else .error (.invariant ("invalid contract for pure method " ++ type ++ "." ++ c.name ++ "()"))

def builtin? (catalog : Catalog) (name : String) : Option Contract := catalog.builtins.lookup name

def method? (catalog : Catalog) (type name : String) : Option Contract := catalog.methods.lookup (type, name)

def isEmpty (catalog : Catalog) : Bool := catalog.builtins.isEmpty && catalog.methods.isEmpty

end Catalog

end Speculator
