import ShapeGraph.Size.Basic

/-!
# Dimensions and shapes

An axis has a size that is known when the graph is built, or one that a symbol
stands for until the graph runs.  The anonymous symbol marks an axis whose size
is known only through the view of its tensor, such as the output of a partial
slice.  A shape is a list of dimensions.

Dimensions are plain data here; the checked constructors are in
`ShapeGraph.Shape`.
-/

namespace ShapeGraph

open ShapeGraph.Numeric (Number)

/-- The classification of one axis. -/
inductive Dimension where
  | constant (size : Number)
  | dynamic (symbol : String)
deriving DecidableEq, Inhabited

/-- The dimensions of all axes. -/
abbrev Shape := List Dimension

namespace Dimension

/-- The symbol of all axes without a name of their own. -/
def anonymousSymbol : String := "-"

/-- An axis whose size only its view knows. -/
def anonymous : Dimension := .dynamic anonymousSymbol

/-- The size is known at build time. -/
def isConstant : Dimension → Bool
  | constant _ => true
  | dynamic _ => false

/-- The size is bound at run time. -/
def isDynamic (d : Dimension) : Bool :=
  !d.isConstant

/-- The size has no name. -/
def isAnonymous : Dimension → Bool
  | constant _ => false
  | dynamic symbol => symbol == anonymousSymbol

/-- The same classification with the same size or symbol. -/
def same : Dimension → Dimension → Bool
  | constant a, constant b => a.same b
  | dynamic a, dynamic b => a == b
  | _, _ => false

/-- The text of a dimension. -/
def text : Dimension → String
  | constant size => size.text
  | dynamic symbol => symbol

end Dimension

namespace Shape

/-- The same rank and the same dimension on every axis. -/
def same (a b : Shape) : Bool :=
  a.length == b.length && (a.zip b).all fun pair => pair.1.same pair.2

/-- The text of a shape. -/
def text (shape : Shape) : String :=
  "[" ++ ", ".intercalate (shape.map Dimension.text) ++ "]"

end Shape

end ShapeGraph
