import ShapeGraph.Graph.Basic

/-!
# Node builders

A builder collects what a node needs, in any number of calls, and touches no
graph until it is finished.  It inserts one node at most: a finish that fails
changes neither the graph nor the builder, which may be finished later, and a
finish after success is refused.
-/

namespace ShapeGraph

open ShapeGraph.Numeric (Number)

/-- A node in preparation. -/
structure Builder where
  draft : Draft
  finished : Bool

namespace Builder

/-- Starts a node of a kind.  Its view has to have the rank of its shape. -/
def start (kind : OpKind) (shape : Shape) (view : View) : Except Fault Builder :=
  return ⟨← Draft.start kind shape view, false⟩

/-- Adds an input. -/
def input (b : Builder) (source : NodeRef) : Builder :=
  { b with draft := b.draft.addInput source }

/-- Sets an attribute. -/
def setAttribute (b : Builder) (key : String) (value : Value) : Builder :=
  { b with draft := b.draft.setAttribute key value }

/-- Names the node. -/
def setName (b : Builder) (name : String) : Builder :=
  { b with draft := { b.draft with name := some name } }

/-- Gives the node a computation. -/
def setPayload (b : Builder) (payload : Payload) : Builder :=
  { b with draft := { b.draft with payload := some payload } }

/-- Adds an equality that the node relies on. -/
def obligation (b : Builder) (pending : Pending) : Builder :=
  { b with draft := b.draft.addPending pending }

/-- Inserts the node. -/
def finish (b : Builder) : Build (Tensor × Builder) := do
  if b.finished then
    Build.read fun _ => .error (.handle "finish" (.finished b.draft.kind.name))
  else
    let tensor ← Build.insert b.draft
    return (tensor, { b with finished := true })

end Builder

end ShapeGraph
