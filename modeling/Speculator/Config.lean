import Speculator.NameSet
import Speculator.Pure.Catalog

/-!
# Options

The options of the optimizer.  A module may override them by a dictionary of literals.
-/

namespace Speculator

/-- The options of the optimizer. -/
structure Config where
  enabled : Bool := true
  limits : Limits := {}
  /-- The functions that may be called at compile time. -/
  catalog : Catalog := Catalog.standard
  copyBuiltinToConstant : Bool := false
  /-- The builtins that may be copied to constants. -/
  copyBuiltinNames : List Ident := NameSet.ofList Builtin.names
  /-- The greatest number of iterations of an unrolled loop; zero turns unrolling off. -/
  unrollLoops : Nat := 16
  constantPropagation : Bool := true
  constantFolding : Bool := true
  /-- Replaces `__debug__` by its value. -/
  replaceBuiltinConstant : Bool := true
  simplifyIterable : Bool := true
  removeDeadCode : Bool := true
  inlining : Bool := false

instance : Inhabited Config := ⟨{}⟩

namespace Config

def disableAll (c : Config) : Config :=
  { enabled := c.enabled
    limits := {}
    catalog := Catalog.empty
    copyBuiltinToConstant := false
    copyBuiltinNames := []
    unrollLoops := 0
    constantPropagation := false
    constantFolding := false
    replaceBuiltinConstant := false
    simplifyIterable := false
    removeDeadCode := false
    inlining := false }

def enableAll (c : Config) : Config :=
  { enabled := c.enabled
    limits := Limits.wide
    catalog := Catalog.standard
    copyBuiltinToConstant := true
    copyBuiltinNames := NameSet.ofList Builtin.names
    unrollLoops := 256
    constantPropagation := true
    constantFolding := true
    replaceBuiltinConstant := true
    simplifyIterable := true
    removeDeadCode := true
    inlining := true }

/-- Sets the option with a name to a boolean, if it is an option of that type. -/
def setFlag (c : Config) (key : String) (b : Bool) : Config :=
  match key with
  | "enabled" => { c with enabled := b }
  | "constant_propagation" => { c with constantPropagation := b }
  | "constant_folding" => { c with constantFolding := b }
  | "replace_builtin_constant" => { c with replaceBuiltinConstant := b }
  | "simplify_iterable" => { c with simplifyIterable := b }
  | "remove_dead_code" => { c with removeDeadCode := b }
  | "inlining" => { c with inlining := b }
  | "copy_builtin_to_constant" => { c with copyBuiltinToConstant := b }
  | _ => c

def setSize (c : Config) (key : String) (n : Nat) : Config :=
  match key with
  | "unroll_loops" => { c with unrollLoops := n }
  | "max_constant_size" => { c with limits.maxConstantSize := n }
  | "max_int_bits" => { c with limits.maxIntBits := n }
  | "max_bytes_len" => { c with limits.maxBytesLen := n }
  | "max_str_len" => { c with limits.maxStrLen := n }
  | "max_seq_len" => { c with limits.maxSeqLen := n }
  | _ => c

/-- Applies one entry of an override, unless its key names no option or its value is of another type. -/
def setEntry (c : Config) (entry : Value × Value) : Config :=
  match entry with
  | (.str key, .bool b) => c.setFlag key b
  | (.str key, .int n) => if 0 ≤ n && n < Nat.pow 2 64 then c.setSize key n.toNat else c
  | _ => c

def override (c : Config) (entries : List (Value × Value)) : Config := entries.foldl setEntry c

end Config

end Speculator
