import ShapeGraph.Graph.Basic

/-!
# Elementwise operations, reductions and products

These compute new storage, so each of them has a contiguous view: of the
lengths of its first operand, of these without the reduced axis, or of the rows
of one factor and the columns of the other.
-/

namespace ShapeGraph

open ShapeGraph.Numeric (Arithmetic Number)

variable [Arithmetic]

/-- The lengths of two operands have to agree on every axis from `axis` on. -/
def pairEqualities (operation : String) (right : List Size) :
    Nat → List Size → Except Fault (List Equality)
  | _, [] => .ok []
  | axis, length :: rest => do
    let other ← lengthAt right axis operation
    let equalities ← requireEqual operation (axisRelation axis) length other
    return equalities ++ (← pairEqualities operation right (axis + 1) rest)

/-- The first `count` axes of two factors, from `axis` on, have to agree. -/
def batchEqualities (left right : List Size) :
    Nat → Nat → Except Fault (List Equality)
  | _, 0 => .ok []
  | axis, count + 1 => do
    let l ← lengthAt left axis "matmul"
    let r ← lengthAt right axis "matmul"
    let equalities ← requireEqual "matmul" s!"batch axis {axis}" l r
    return equalities ++ (← batchEqualities left right (axis + 1) count)

namespace Build

/-- A function of every element. -/
def unary (op : UnaryOp) (t : Tensor) : Build Tensor :=
  pointwise (.unary op) t

/-- A function of every element and a number. -/
def scalar (op : ScalarOp) (t : Tensor) (value : Number) : Build Tensor :=
  derive fun g => do
    let kind := OpKind.scalar op
    let node ← g.check kind.name t
    let draft ← Draft.start kind t.shape (.contiguous (← node.view.lengths))
    return (draft.ofTensors [t]).setAttribute "value" (.number value)

/-- A function of the elements of two tensors. -/
def binary (op : BinaryOp) (a b : Tensor) : Build Tensor :=
  derive fun g => do
    let kind := OpKind.binary op
    let _ ← g.check kind.name a
    let _ ← g.check kind.name b
    Shape.sameRank kind.name a.shape b.shape
    let left ← g.lengths a
    let right ← g.lengths b
    let equalities ← pairEqualities kind.name right 0 left
    let draft ← Draft.start kind a.shape (.contiguous left)
    return (draft.ofTensors [a, b]).relying equalities

/-- A reduction along an axis, which goes away. -/
def reduce (op : ReduceOp) (t : Tensor) (axis : Number) : Build Tensor :=
  derive fun g => do
    let kind := OpKind.reduce op
    let node ← g.check kind.name t
    let k ← Axis.position kind.name axis t.rank
    let lengths ← node.view.lengths
    let draft ← Draft.start kind (Axis.removeAt t.shape k)
      (.contiguous (Axis.removeAt lengths k))
    return (draft.ofTensors [t]).setAttribute "axis" (.number (.ofNat k))

/-- The softmax along an axis. -/
def softmax (t : Tensor) (axis : Number) : Build Tensor :=
  derive fun g => do
    let node ← g.check OpKind.softmax.name t
    let k ← Axis.position OpKind.softmax.name axis t.rank
    let draft ← Draft.start .softmax t.shape (.contiguous (← node.view.lengths))
    return (draft.ofTensors [t]).setAttribute "axis" (.number (.ofNat k))

/-- The matrix product: of a stack of matrices with one matrix, or of two
stacks of the same sizes. -/
def matmul (a b : Tensor) : Build Tensor :=
  derive fun g => do
    let _ ← g.check "matmul" a
    let _ ← g.check "matmul" b
    if a.rank < 2 ∨ (b.rank ≠ 2 ∧ b.rank ≠ a.rank) then
      .error (.shape "matmul" (.factors a.shape b.shape))
    else
      let left ← g.lengths a
      let right ← g.lengths b
      let inner ← requireEqual "matmul" "inner dimension"
        (← lengthAt left (a.rank - 1) "matmul") (← lengthAt right (b.rank - 2) "matmul")
      let batch ←
        if b.rank = a.rank then batchEqualities left right 0 (a.rank - 2) else pure []
      let column ← b.shape.dimAt (.ofNat (b.rank - 1))
      let width ← lengthAt right (b.rank - 1) "matmul"
      let draft ← Draft.start .matmul (a.shape.dropLast ++ [column])
        (.contiguous (left.dropLast ++ [width]))
      return (draft.ofTensors [a, b]).relying (inner ++ batch)

end Build

end ShapeGraph
