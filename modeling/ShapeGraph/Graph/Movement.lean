import ShapeGraph.Graph.Basic

/-!
# View operations

Slices, permutations and expansions show the storage of their input in another
way; reshaping and joining lay it out anew, and so does `contiguous`.  A full
range keeps the dimension of its axis, any other range leaves an anonymous one.

* `Build.reshape` makes a view contiguous first if it is not;
* `Build.expandTo` aligns the trailing axes, repeats those of length one and
  adds the leading ones.
-/

namespace ShapeGraph

open ShapeGraph.Numeric (Arithmetic Number)

variable [Arithmetic]

/-- One axis of a reshape target: a literal size, or the size of an axis of the
input. -/
inductive ReshapeEntry where
  | size (n : Number)
  | copied (axis : Number)

namespace ReshapeEntry

/-- The text of an entry. -/
def text : ReshapeEntry → String
  | size n => n.text
  | copied axis => "copy(" ++ axis.text ++ ")"

end ReshapeEntry

/-- The dimension and the size that a target entry stands for. -/
def targetAxis (shape : Shape) (lengths : List Size) (position : Nat) :
    ReshapeEntry → Except Fault (Dimension × Size)
  | .size n =>
    if n.isSafe && Number.lt 0 n then .ok (.constant n, .literal n)
    else .error (.range "reshape" (.target n position))
  | .copied axis =>
    match axis.index? with
    | some k =>
      if k < shape.length then do
        let dim ← shape.dimAt axis
        return (dim, ← lengthAt lengths k "reshape")
      else .error (.range "reshape" (.copied axis position shape))
    | none => .error (.range "reshape" (.copied axis position shape))

/-- The dimensions and sizes of a reshape target from `position` on. -/
def targetAxes (shape : Shape) (lengths : List Size) :
    Nat → List ReshapeEntry → Except Fault (List (Dimension × Size))
  | _, [] => .ok []
  | position, entry :: rest => do
    let axis ← targetAxis shape lengths position entry
    return axis :: (← targetAxes shape lengths (position + 1) rest)

/-- The size of a dimension that is to be expanded to. -/
def expansionSize (target : Shape) (axis : Nat) : Except Fault (Option Size) := do
  (← target.dimAt (.ofNat axis)).size?

/-- Aligns the logical axes from `axis` on with a target whose leading axes
number `offset`: an axis of length one is repeated, any other has to match. -/
def alignAxes (target : Shape) (offset : Nat) :
    Nat → List Size → View → Except Fault (View × List Equality)
  | _, [], view => .ok (view, [])
  | axis, length :: rest, view => do
    let (view, equalities) ←
      match ← expansionSize target (offset + axis) with
      | none => pure (view, [])
      | some size =>
        if length.same .one && !size.same .one then do
          pure (← view.broadcastAxis (.ofNat axis) (.size size), [])
        else do
          pure (view, ← requireEqual "expandTo" (axisRelation (offset + axis)) length size)
    let (view, others) ← alignAxes target offset (axis + 1) rest view
    return (view, equalities ++ others)

/-- Adds the leading axes of a target, the last of them first. -/
def leadAxes (target : Shape) : Nat → View → Except Fault View
  | 0, view => .ok view
  | axis + 1, view => do
    match ← expansionSize target axis with
    | none => .error (.range "expandTo" (.anonymousAxis axis))
    | some size => leadAxes target axis (← view.expand 0 (.size size))

/-- The lengths of two operands have to agree from `axis` on, the axis along
which they are joined excepted. -/
def joinEqualities (joined : Nat) (right : List Size) :
    Nat → List Size → Except Fault (List Equality)
  | _, [] => .ok []
  | axis, length :: rest => do
    let equalities ←
      if axis = joined then pure []
      else do
        requireEqual "concat" (axisRelation axis) length (← lengthAt right axis "concat")
    return equalities ++ (← joinEqualities joined right (axis + 1) rest)

/-- The dimension of a joined axis: the sum of two constants, else
anonymous. -/
def joinedDimension : Dimension → Dimension → Except Fault Dimension
  | .constant a, .constant b => Dimension.ofNumber (a.add b)
  | _, _ => .ok .anonymous

/-- The sizes of a joined tensor. -/
def joinedSizes (left right : List Size) (joined : Nat) : Except Fault (List Size) :=
  match left[joined]? with
  | some length => return left.set joined (length.add (← lengthAt right joined "concat"))
  | none => .ok left

namespace Build

/-- Slices every axis by a range specification. -/
def slice (t : Tensor) (specs : List RangeSpec) : Build Tensor :=
  derive fun g => do
    let node ← g.check "slice" t
    let lengths ← node.view.lengths
    let mapping ← mapSlice t.shape specs (lengths.map some) defaultSentinel
    let view ← node.view.slice mapping.spans
    let draft ← Draft.start .slice mapping.shape view
    return (draft.ofTensors [t]).setAttribute "ranges"
      (.list (mapping.spans.map fun span => .text span.text))

/-- Reorders the axes; the first one shown is the axis listed first. -/
def permute (t : Tensor) (axes : List Number) : Build Tensor :=
  derive fun g => do
    let node ← g.check "permute" t
    let positions ← Axis.permutation (.ofNat t.rank) axes
    let numbers := positions.map Number.ofNat
    let shape ← Axis.pick t.shape numbers
    let view ← node.view.permute numbers
    let draft ← Draft.start .permute shape view
    return (draft.ofTensors [t]).setAttribute "axes" (.list (numbers.map .number))

/-- Lays a view out anew, in storage of its own. -/
def contiguous (t : Tensor) : Build Tensor :=
  pointwise .contiguous t

/-- Reshapes to literal sizes and copies of input axes.  The numbers of
elements have to agree. -/
def reshape (t : Tensor) (target : List ReshapeEntry) : Build Tensor := do
  let (whole, axes, equalities) ← read fun g => do
    let node ← g.check "reshape" t
    let lengths := Size.pinned (← node.view.lengths)
    let axes ← targetAxes t.shape lengths 0 target
    let equalities ← requireEqual "reshape" "element count" (Size.product lengths)
      (Size.product (axes.map (·.2)))
    return (node.view.isContiguous, axes, equalities)
  let source ← if whole then pure t else contiguous t
  derive fun _ => do
    let draft ← Draft.start .reshape (axes.map (·.1)) (.contiguous (axes.map (·.2)))
    return ((draft.ofTensors [source]).relying equalities).setAttribute "target"
      (.list (target.map fun entry => .text entry.text))

/-- Inserts a broadcast axis of a dimension. -/
def expand (t : Tensor) (axis : Number) (dim : Dimension) : Build Tensor :=
  derive fun g => do
    let node ← g.check "expand" t
    let position ← Axis.position "expand" axis (t.rank + 1)
    match ← dim.size? with
    | none => .error (.range "expand" .anonymousSize)
    | some size =>
      let view ← node.view.expand (.ofNat position) (.size size)
      let draft ← Draft.start .expand (Axis.insertAt t.shape position dim) view
      return (draft.ofTensors [t]).setAttribute "axis" (.number (.ofNat position))

/-- Broadcasts to a target shape. -/
def expandTo (t : Tensor) (target : Shape) : Build Tensor :=
  derive fun g => do
    let node ← g.check "expandTo" t
    if target.length < t.rank then
      .error (.shape "expandTo" (.lowerRank t.shape target))
    else
      let offset := target.length - t.rank
      let lengths ← node.view.lengths
      let (aligned, equalities) ← alignAxes target offset 0 lengths node.view
      let view ← leadAxes target offset aligned
      let shape ← target.check
      let draft ← Draft.start .expand shape view
      return ((draft.ofTensors [t]).relying equalities).setAttribute "target" (.text target.text)

/-- Joins two tensors along an axis. -/
def concat (a b : Tensor) (axis : Number) : Build Tensor :=
  derive fun g => do
    let _ ← g.check "concat" a
    let _ ← g.check "concat" b
    Shape.sameRank "concat" a.shape b.shape
    let k ← Axis.position "concat" axis a.rank
    let left ← g.lengths a
    let right ← g.lengths b
    let equalities ← joinEqualities k right 0 left
    let joined ← joinedDimension (← a.shape.dimAt (.ofNat k)) (← b.shape.dimAt (.ofNat k))
    let sizes ← joinedSizes left right k
    let draft ← Draft.start .concat (a.shape.set k joined) (.contiguous sizes)
    return ((draft.ofTensors [a, b]).relying equalities).setAttribute "axis"
      (.number (.ofNat k))

end Build

end ShapeGraph
