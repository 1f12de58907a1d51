import ShapeGraph.Dimension
import ShapeGraph.Value

/-!
# What can go wrong

One constructor per cause, carrying the values that the cause is about.  Faults
of shapes, ranges and handles also name the operation that found them.  The
wording is in `ShapeGraph.Report`.
-/

namespace ShapeGraph

open ShapeGraph.Numeric (Number)

/-- Where the value of a symbol came from. -/
inductive Source where
  | explicit
  | input
  | function
  | obligation
deriving DecidableEq, Repr

/-- The name of a source. -/
def Source.name : Source → String
  | explicit => "explicit"
  | input => "input"
  | function => "function"
  | obligation => "obligation"

/-- The source of a name. -/
def Source.ofName? (name : String) : Option Source :=
  [explicit, input, function, obligation].find? fun source => source.name = name

/-- A size that cannot be formed, evaluated or bound. -/
inductive SizeFault where
  /-- A literal has to be a safe integer. -/
  | notInteger (value : Number)
  /-- A symbol has to have a name. -/
  | emptySymbol
  /-- A literal was divided by the literal zero. -/
  | literalByZero (dividend : Number)
  /-- A term was divided by the literal zero. -/
  | byZero (dividend : Size)
  /-- Symbols remain where a number is needed. -/
  | unresolved (size : Size) (symbols : List String)
  /-- A symbol can be bound to a safe integer that is not negative, and to
  nothing else. -/
  | badBinding (symbol : String) (value : Number)

/-- A dimension that cannot be formed. -/
inductive DimensionFault where
  | badSize (size : Number)
  | emptySymbol

/-- Operands that disagree in rank or in a size that is known. -/
inductive ShapeFault where
  /-- The rank exceeds the greatest supported one. -/
  | rankLimit (rank limit : Nat)
  /-- Two operands need the same rank. -/
  | ranks (left right : Shape)
  /-- Two sizes that have to be equal are known and differ. -/
  | sizes (relation : String) (left right : Number)
  /-- The view of a node has to have the rank of its shape. -/
  | viewRank (rank : Nat) (shape : Shape)
  /-- The sizes declared for a shape have to match it in number. -/
  | declaredSizes (count : Nat) (shape : Shape)
  /-- A tensor can be relabelled with a shape of its own rank only. -/
  | relabelled (held wanted : Shape)
  /-- A tensor cannot be expanded to a lower rank. -/
  | lowerRank (held wanted : Shape)
  /-- The operands of a matrix product do not fit. -/
  | factors (left right : Shape)
  /-- An input was fed with another rank than declared. -/
  | fedRank (name : String) (declared : Shape) (fed : List Number)
  /-- An input was fed with another size than the constant declared. -/
  | fedSize (name : String) (axis : Nat) (declared fed : Number)
  /-- The data fed does not fill the shape fed. -/
  | fedCount (name : String) (count : Nat) (fed : List Number)

/-- A slice, a permutation, a reshape target or an axis that is inconsistent. -/
inductive RangeFault where
  /-- There is no such axis. -/
  | noAxis (axis rank : Number)
  /-- A permutation lists every axis once. -/
  | permutationLength (count : Nat) (rank : Number)
  /-- An axis is listed again. -/
  | duplicateAxis (axis : Number)
  /-- A list has no item at the position asked for. -/
  | noItem (axis : Number)
  /-- There are more range specifications than axes of a shape. -/
  | specCount (count : Nat) (shape : Shape)
  /-- There are more ranges than axes of a view. -/
  | rangeCount (count rank : Nat)
  /-- A literal bound is negative. -/
  | negative (start stop : Size) (axis : Nat)
  /-- A range with literal bounds ends before it starts. -/
  | reversed (start stop : Number) (axis : Nat)
  /-- An axis of a known length other than one cannot be repeated. -/
  | notUnit (axis : Nat) (length : Number)
  /-- A range turns out to be no range once its symbols are bound. -/
  | unresolvable (axis : Nat) (start stop : Number) (lower upper : Size)
  /-- A reshape target has to be a positive integer. -/
  | target (size : Number) (position : Nat)
  /-- A reshape target copies an axis that is not there. -/
  | copied (axis : Number) (position : Nat) (shape : Shape)
  /-- An inserted axis needs a size. -/
  | anonymousSize
  /-- A leading axis of an expansion needs a size. -/
  | anonymousAxis (axis : Nat)

/-- Two sizes that were expected to be equal differ once they are bound. -/
inductive MismatchFault where
  /-- A symbol is bound again to another value. -/
  | rebound (symbol : String) (held wanted : Number) (boundBy reboundBy : Source)
  /-- A size is known and is not the value it is matched with. -/
  | size (relation : String) (known value : Number) (size : Size)
  /-- A recorded equality of sizes does not hold. -/
  | obligation (relation : String) (left right : Number) (leftSize rightSize : Size)

/-- A host computation that failed or broke its contract. -/
inductive PayloadFault where
  /-- The node has no computation. -/
  | missing
  /-- An input of the node is not resolved. -/
  | unresolvedInput (id : Nat)
  /-- The result names another node. -/
  | wrongNode (returned : Number)
  /-- The result has another rank than declared. -/
  | rank (returned : Nat) (declared : Shape)
  /-- The data returned does not fill the sizes returned. -/
  | count (returned : Nat) (sizes : List Number)

/-- A tensor handle or a node builder that cannot be used. -/
inductive HandleFault where
  /-- The handle was issued by another graph. -/
  | foreign (id owner graph : Number)
  /-- The graph has no node of that id. -/
  | noNode (id : Number)
  /-- The builder has inserted its node already. -/
  | finished (kind : String)
  /-- The resolution has no node of that id. -/
  | noResolvedNode (id : Number)

/-- Anything that stops an operation. -/
inductive Fault where
  | size (reason : SizeFault)
  | dimension (reason : DimensionFault)
  | shape (operation : String) (reason : ShapeFault)
  | range (operation : String) (reason : RangeFault)
  | mismatch (reason : MismatchFault)
  | payload (function : String) (node : Nat) (reason : PayloadFault)
  | handle (operation : String) (reason : HandleFault)
  /-- A host computation stopped with the given cause. -/
  | threw (function : String) (node : Nat) (cause : Fault)
  /-- A generator was given no input with the axis it reads. -/
  | noReferenceAxis (axis : Nat)
  /-- Data cannot be as long as that. -/
  | tooLong (length : Number)
  /-- There is no room for data that long. -/
  | noRoom
  /-- An error of the host with its message. -/
  | host (message : String)
  /-- A value of the host, thrown where an error is usual. -/
  | hostValue (value : Value)
deriving Inhabited

end ShapeGraph
