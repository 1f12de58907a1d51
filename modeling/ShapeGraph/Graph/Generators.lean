import ShapeGraph.Graph.Leaves

/-!
# Data that depends on a length

Positions and attention masks depend on a length that is known only at run
time, so they are function nodes: their payload reads the length of an axis of
a reference tensor when the graph is resolved.
-/

namespace ShapeGraph.Build

open ShapeGraph.Numeric (Arithmetic Number)

variable [Arithmetic]

/-- The axis of a reference tensor, its tracked length and its dimension. -/
def referenceAxis (operation : String) (like : Tensor) (axis : Number) :
    Build (Nat × Option Size × Dimension) :=
  read fun g => do
    let k ← Axis.position operation axis like.rank
    let lengths := Size.pinned (← g.lengths like)
    let dim ← like.shape.dimAt (.ofNat k)
    return (k, lengths[k]?, dim)

/-- The positions `0, 1, …` along an axis of a tensor. -/
def arange (like : Tensor) (axis : Number) : Build Tensor := do
  let (k, length, dim) ← referenceAxis "arange" like axis
  addFunction "ARange" [like] [dim] (.arange k)
    (length.map fun size => [some (.size size)])

/-- The causal attention mask, as wide and as high as an axis of a tensor is
long. -/
def causalMask (like : Tensor) (axis : Number) : Build Tensor := do
  let (k, length, dim) ← referenceAxis "causalMask" like axis
  addFunction "AttentionMask" [like] [dim, dim] (.causalMask k)
    (length.map fun size => [some (.size size), some (.size size)])

end ShapeGraph.Build
