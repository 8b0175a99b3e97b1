import Speculator.Value.Equality

/-!
# Sets and dictionaries

Collecting the items of a set and the entries of a dictionary.  The first of several equal items is kept; a repeated
key keeps its place and takes the last value.
-/

namespace Speculator.Value

def insertItem (items : List Value) (v : Value) : List Value :=
  if items.any fun w => w.equals v then items else items ++ [v]

def insertEntry : List (Value × Value) → Value → Value → List (Value × Value)
  | [], k, v => [(k, v)]
  | (k', v') :: ps, k, v => if k'.equals k then (k', v) :: ps else (k', v') :: insertEntry ps k v

def collectSet (vs : List Value) : Except Fault (List Value) :=
  vs.foldlM (fun items v => if v.isHashable then .ok (insertItem items v) else .error .typeError) []

def collectDict (ps : List (Value × Value)) : Except Fault (List (Value × Value)) :=
  ps.foldlM (fun entries p => if p.1.isHashable then .ok (insertEntry entries p.1 p.2) else .error .typeError) []

end Speculator.Value
