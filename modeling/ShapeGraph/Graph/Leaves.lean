import ShapeGraph.Graph.Basic

/-!
# Leaves and relabelling

Inputs, constants and host computations enter a graph here, and `realize` gives
a tensor another shape without inserting anything.

An axis without a size of its own gets a symbol that belongs to its node and
axis alone, which is bound once the input is fed or the computation has run.
-/

namespace ShapeGraph

open ShapeGraph.Numeric (Arithmetic Number)

variable [Arithmetic]

/-- The sizes of the axes of a new node from `axis` on: that of the dimension,
or a symbol of its own. -/
def leafSizes (id : Nat) : Nat → Shape → Except Fault (List Size)
  | _, [] => .ok []
  | axis, dim :: dims => do
    let own ← dim.size?
    let size := own.getD (.symbol (localSymbol (.ofNat id) (.ofNat axis)))
    return size :: (← leafSizes id (axis + 1) dims)

/-- Sizes that are declared at all have to match the shape in number. -/
def countSizes (shape : Shape) : Option (List (Option Quantity)) → Except Fault Unit
  | some declared =>
    if declared.length = shape.length then .ok ()
    else .error (.shape "addFunction" (.declaredSizes declared.length shape))
  | none => .ok ()

/-- The declared sizes of the axes of a function node from `axis` on, and the
equalities they rely on.  A declared size has to equal that of the dimension,
and takes its place. -/
def declaredSizes (id : Nat) :
    Nat → Shape → List (Option Quantity) → Except Fault (List Size × List Equality)
  | _, [], _ => .ok ([], [])
  | axis, dim :: dims, declared => do
    let own ← dim.size?
    let (size, equalities) ←
      match declared.head?.join with
      | none => pure (own.getD (.symbol (localSymbol (.ofNat id) (.ofNat axis))), [])
      | some quantity => do
        let size ← quantity.toSize
        match own with
        | some expected =>
          pure (size, ← requireEqual "addFunction" (axisRelation axis) expected size)
        | none => pure (size, [])
    let (sizes, others) ← declaredSizes id (axis + 1) dims declared.tail
    return (size :: sizes, equalities ++ others)

/-- The equalities that a new shape puts on the lengths of a tensor, from
`axis` on.  Anonymous axes put none. -/
def relabelEqualities (lengths : List Size) : Nat → Shape → Except Fault (List Equality)
  | _, [] => .ok []
  | axis, dim :: dims => do
    let equalities ←
      match ← dim.size? with
      | some size => do
        let length ← lengthAt lengths axis "realize"
        requireEqual "realize" (axisRelation axis) length size
      | none => pure []
    return equalities ++ (← relabelEqualities lengths (axis + 1) dims)

namespace Build

/-- A named input. -/
def newTensor (name : String) (shape : Shape) : Build Tensor :=
  derive fun g => do
    let shape ← shape.check
    let sizes ← leafSizes g.size 0 shape
    let draft ← Draft.start .input shape (.contiguous sizes)
    return { draft with name := some name }

/-- A constant of rank zero. -/
def constant (value : Number) : Build Tensor :=
  derive fun _ => do
    let draft ← Draft.start .constant [] (.contiguous [])
    return draft.setAttribute "value" (.number value)

/-- A host computation.  Sizes may be declared for all of its axes; an axis
without one uses its dimension. -/
def addFunction (name : String) (inputs : List Tensor) (shape : Shape) (payload : Payload)
    (sizes : Option (List (Option Quantity))) : Build Tensor :=
  derive fun g => do
    let _ ← inputs.mapM (g.check "addFunction")
    let shape ← shape.check
    countSizes shape sizes
    let (declared, equalities) ← declaredSizes g.size 0 shape (sizes.getD [])
    let draft ← Draft.start .function shape (.contiguous declared)
    return { (draft.ofTensors inputs).relying equalities with
      name := some name
      payload := some payload }

/-- Gives a tensor another shape of the same rank.  Sizes that are known have
to agree now; other pairs are recorded on the tensor's node. -/
def realize (t : Tensor) (shape : Shape) : Build Tensor := do
  let (node, equalities) ← read fun g => do
    let node ← g.check "realize" t
    if shape.length ≠ t.rank then
      .error (.shape "realize" (.relabelled t.shape shape))
    else
      let lengths ← node.view.lengths
      let equalities ← relabelEqualities lengths 0 shape
      let _ ← shape.check
      return (node, equalities)
  let line := "realize %" ++ node.id.repr ++ " as " ++ shape.text
  write fun g =>
    (⟨.ofNat node.id, shape, .ofNat g.id⟩,
      (g.record node.id (equalities.map Equality.pending)).note line)

end Build

end ShapeGraph
