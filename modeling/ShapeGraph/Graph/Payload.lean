import ShapeGraph.View

/-!
# Host computations

A function node computes its data when the graph is resolved.  Its payload is
given the resolved inputs and the id of its node, and returns data together
with a view that names that node and carries the sizes.  Hosts bring their own
payloads; two are built in, and both read the length of an axis of their first
input:

* `Payload.arange` — the positions `0, 1, …` along the axis;
* `Payload.causalMask` — zero on and below the diagonal, and the negative
  infinity above it.

Data is single precision.
-/

namespace ShapeGraph

open ShapeGraph.Numeric (Arithmetic Number)

variable [Arithmetic]

/-- A resolved node as host computations see it. -/
structure FunctionInput where
  id : Nat
  /-- The length of each axis. -/
  shape : List Number
  ranges : List ConcreteRange
  /-- The data of fed leaves, constants and functions. -/
  data : Option (List Number)

/-- What a host computation returns. -/
structure FunctionResult where
  data : Option (List Number)
  /-- The node that the view is of. -/
  id : Number
  view : View

/-- The computation of a function node. -/
inductive Payload where
  | arange (axis : Nat)
  | causalMask (axis : Nat)
  | host (run : List FunctionInput → Nat → Except Fault FunctionResult)

namespace Payload

/-- The greatest length that data has room for. -/
def maxHeld : Nat := 4294967296

/-- The greatest length of data at all: at four bytes each its size is still a
safe integer. -/
def maxLength : Nat := Numeric.maxSafe / 4

/-- The length of the data that a number asks for.  A fraction asks for its
whole part, and the undefined value for none. -/
def dataLength (length : Number) : Except Fault Nat :=
  if length.isUndefined then .ok 0
  else
    match length.truncate? with
    | some n =>
      if n ≤ maxHeld then .ok n
      else if n ≤ maxLength then .error .noRoom
      else .error (.tooLong length)
    | none => .error (.tooLong length)

/-- The length of an axis of the first input. -/
def referenceLength (inputs : List FunctionInput) (axis : Nat) : Except Fault Number :=
  match inputs.head?.bind (·.shape[axis]?) with
  | some length => .ok length
  | none => .error (.noReferenceAxis axis)

/-- The positions up to a length. -/
def positions (n : Nat) : List Number :=
  (List.range n).map fun i => (Number.ofNat i).toSingle

/-- The entries of the causal mask, row by row. -/
def maskEntries (n : Nat) : List Number :=
  (List.range n).flatMap fun row =>
    (List.range n).map fun col => if row < col then Number.negInfinity else 0

/-- Runs a computation. -/
def run : Payload → List FunctionInput → Nat → Except Fault FunctionResult
  | arange axis, inputs, id => do
    let length ← referenceLength inputs axis
    let n ← dataLength (length.min (.ofNat Numeric.maxSafe))
    let view ← View.ofQuantities [.number length]
    return ⟨some (positions n), .ofNat id, view⟩
  | causalMask axis, inputs, id => do
    let length ← referenceLength inputs axis
    let _ ← dataLength (length.mul length)
    let n ← dataLength length
    let view ← View.ofQuantities [.number length, .number length]
    return ⟨some (maskEntries n), .ofNat id, view⟩
  | host run, inputs, id => run inputs id

end Payload

end ShapeGraph
