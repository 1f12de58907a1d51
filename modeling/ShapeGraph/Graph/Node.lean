import ShapeGraph.Entries
import ShapeGraph.Graph.Kind
import ShapeGraph.Graph.Payload

/-!
# Nodes, obligations and tensors

A node is a record that never changes once it is in its graph.  A tensor is a
handle on the output of a node: it names the node and the graph that issued it
and carries a shape, which may be relabelled.  An obligation is an equality of
sizes that could not be decided while the graph was built.  It is recorded on
the node that relies on it, unless it has been handed in together with a node.
-/

namespace ShapeGraph

open ShapeGraph.Numeric (Number)

/-- A node of a graph. -/
structure Node where
  id : Nat
  kind : OpKind
  inputs : List Nat
  shape : Shape
  view : View
  attributes : Entries Value
  /-- The name of a leaf or a function. -/
  name : Option String
  payload : Option Payload

/-- An equality of sizes that an operation relies on. -/
structure Equality where
  operation : String
  relation : String
  left : Size
  right : Size
deriving DecidableEq

/-- An equality recorded on a node, to be checked once symbols are bound. -/
structure Obligation where
  /-- The number of the node, which may be one that callers give. -/
  node : Number
  equality : Equality
deriving DecidableEq

/-- An equality that is to be recorded.  One that was recorded before, in this
graph or in another, still names a node. -/
structure Pending where
  equality : Equality
  /-- The node that the equality names, if it names one. -/
  node : Option Number
deriving DecidableEq

/-- An equality that names no node. -/
def Equality.pending (equality : Equality) : Pending :=
  ⟨equality, none⟩

/-- What is recorded for a node that relies on an equality: if the equality
names a node then it is recorded on that one. -/
def Pending.on (node : Nat) (pending : Pending) : Obligation :=
  ⟨pending.node.getD (.ofNat node), pending.equality⟩

/-- A handle on the output of a node. -/
structure Tensor where
  /-- The node. -/
  id : Number
  shape : Shape
  /-- The graph that issued the handle. -/
  graph : Number
deriving DecidableEq

namespace Tensor

/-- The number of axes of a tensor. -/
def rank (t : Tensor) : Nat :=
  t.shape.length

/-- The text of a tensor. -/
def text (t : Tensor) : String :=
  "GraphTensor(%" ++ t.id.text ++ " " ++ t.shape.text ++ ")"

end Tensor

/-- The symbol of the size of an axis that has no name of its own. -/
def localSymbol (id axis : Number) : String :=
  "%" ++ id.text ++ "." ++ axis.text

/-- The relation of two sizes on an axis. -/
def axisRelation (axis : Nat) : String :=
  s!"axis {axis}"

/-- The size on an axis; the axis has to be there. -/
def lengthAt (lengths : List Size) (axis : Nat) (operation : String) : Except Fault Size :=
  match lengths[axis]? with
  | some length => .ok length
  | none => Axis.outOfBounds operation (.ofNat axis) (.ofNat lengths.length)

/-- Requires two sizes to be equal.  Two literals have to be equal now, and
terms that are the same need nothing; any other pair becomes an equality to be
recorded. -/
def requireEqual (operation relation : String) (left right : Size) :
    Except Fault (List Equality) :=
  match left.value?, right.value? with
  | some l, some r =>
    if l.same r then .ok [] else .error (.shape operation (.sizes relation l r))
  | _, _ => if left.same right then .ok [] else .ok [⟨operation, relation, left, right⟩]

end ShapeGraph
