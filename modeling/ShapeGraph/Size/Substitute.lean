import ShapeGraph.Entries
import ShapeGraph.Size.Combine

/-!
# Binding the symbols of a size

A binding gives numbers to names.  Substitution replaces the bound symbols and
puts the term together again, so literals fold on the way; the unbound symbols
stay.  Evaluation is substitution that has to end in a literal.
-/

namespace ShapeGraph

open ShapeGraph.Numeric (Arithmetic Number)

/-- The numbers of some symbols, in order. -/
abbrev Bindings := Entries Number

namespace Size

/-- Replaces the bound symbols. -/
def substitute [Arithmetic] (bindings : Bindings) : Size → Except Fault Size
  | literal v => .ok (literal v)
  | symbol name =>
    match bindings.get? name with
    | some v => .ok (literal v)
    | none => .ok (symbol name)
  | binary op l r => do
    let left ← substitute bindings l
    let right ← substitute bindings r
    combine op left right

/-- The number of a size that holds no symbol. -/
def toNumber (s : Size) : Except Fault Number :=
  match s.value? with
  | some v => .ok v
  | none => .error (.size (.unresolved s s.symbols))

/-- The number of a size under a binding of all its symbols. -/
def evaluate [Arithmetic] (bindings : Bindings) (s : Size) : Except Fault Number := do
  let resolved ← s.substitute bindings
  match resolved.value? with
  | some v => .ok v
  | none => .error (.size (.unresolved s resolved.symbols))

end Size

/-- A size as callers give it: a size expression, or a bare number that is
still to be checked. -/
inductive Quantity where
  | number (v : Number)
  | size (s : Size)
deriving DecidableEq, Inhabited

namespace Quantity

/-- The size that is meant; a bare number has to be a safe integer. -/
def toSize : Quantity → Except Fault Size
  | number v => Size.ofNumber v
  | size s => .ok s

/-- The text of a quantity, checked or not. -/
def text : Quantity → String
  | number v => v.text
  | size s => s.text

end Quantity

end ShapeGraph
