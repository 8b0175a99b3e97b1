import Speculator.Tree.Basic

/-!
# Sets of names

Sets of names as increasing lists.
-/

namespace Speculator.NameSet

def insert (name : Ident) : List Ident → List Ident
  | [] => [name]
  | n :: ns => if name = n then n :: ns else if name < n then name :: n :: ns else n :: insert name ns

def ofList (names : List Ident) : List Ident := names.foldl (fun set name => insert name set) []

def union (a b : List Ident) : List Ident := b.foldl (fun set name => insert name set) a

def inter (a b : List Ident) : List Ident := a.filter fun name => b.contains name

end Speculator.NameSet
