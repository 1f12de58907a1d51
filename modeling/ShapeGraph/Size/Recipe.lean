import ShapeGraph.Size.Substitute

/-!
# Recipes

A recipe says how a size is made, operation by operation, without having made
it yet.  `Recipe.build` makes it, operands before their operation.  An operand
that is a bare number is checked before the next one is made.
-/

namespace ShapeGraph

open ShapeGraph.Numeric (Arithmetic Number)

/-- How a size is made. -/
inductive Recipe where
  | number (v : Number)
  | symbol (name : String)
  | binary (op : Operator) (left right : Recipe)
  | substitute (inner : Recipe) (bindings : Bindings)
deriving Inhabited

namespace Recipe

/-- Makes the size.  A recipe that is a number and nothing else is left
unchecked. -/
def build [Arithmetic] : Recipe → Except Fault Quantity
  | number v => .ok (.number v)
  | symbol name => return .size (← Size.ofSymbol name)
  | binary op l r => do
    let x ← (← l.build).toSize
    let y ← (← r.build).toSize
    return .size (← Size.combine op x y)
  | substitute inner bindings => do
    let held ← inner.build
    let x ← held.toSize
    return .size (← x.substitute bindings)

/-- Makes the size and checks it. -/
def size [Arithmetic] (r : Recipe) : Except Fault Size := do
  (← r.build).toSize

end Recipe

end ShapeGraph
