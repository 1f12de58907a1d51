import ShapeGraph.Size.Combine

/-!
# Checked dimensions and shapes

Dimensions and shapes as callers hand them in, checked: a constant is a safe
integer that is not negative, a symbol has a name, and no shape has more than
`Shape.maxRank` axes.  `Dimension.size?` is the size that a dimension carries;
an anonymous one carries none.
-/

namespace ShapeGraph

open ShapeGraph.Numeric (Number)

namespace Dimension

/-- The constant dimension of a size. -/
def ofNumber (size : Number) : Except Fault Dimension :=
  if size.isSafe && !size.lt 0 then .ok (.constant size) else .error (.dimension (.badSize size))

/-- The dimension of a symbol. -/
def ofSymbol (symbol : String) : Except Fault Dimension :=
  if symbol.isEmpty then .error (.dimension .emptySymbol) else .ok (.dynamic symbol)

/-- The size that a dimension carries, none if it is anonymous. -/
def size? : Dimension → Except Fault (Option Size)
  | constant size => return some (← Size.ofNumber size)
  | dynamic symbol =>
    if symbol = anonymousSymbol then .ok none else return some (← Size.ofSymbol symbol)

/-- Classifies a size: a literal is a constant, anything else is anonymous. -/
def ofSize (size : Size) : Except Fault Dimension :=
  match size.value? with
  | some v => ofNumber v
  | none => .ok anonymous

end Dimension

namespace Shape

/-- The greatest rank of a tensor. -/
def maxRank : Nat := 8

/-- A shape that callers give. -/
def check (shape : Shape) : Except Fault Shape :=
  if shape.length > maxRank then .error (.shape "createShape" (.rankLimit shape.length maxRank))
  else .ok shape

/-- Two operands have to have the same rank. -/
def sameRank (operation : String) (a b : Shape) : Except Fault Unit :=
  if a.length = b.length then .ok () else .error (.shape operation (.ranks a b))

/-- The dimension of an axis. -/
def dimAt (shape : Shape) (axis : Number) : Except Fault Dimension :=
  match axis.index?.bind (shape[·]?) with
  | some dim => .ok dim
  | none => .error (.range "dimAt" (.noAxis axis (.ofNat shape.length)))

end Shape

end ShapeGraph
