import ShapeGraph.Graph.Node
import ShapeGraph.Options

/-!
# The graph

A graph owns its nodes and only ever appends.  A step on a graph (`Build`) may
fail, and leaves a graph either way; every operation checks its operands and
derives what it inserts before it changes anything.

* `Graph.check` — the node behind a tensor, if the graph issued the handle;
* `Build.insert` — a node is appended with its obligations, all at once;
* `Build.read` — a check that cannot change the graph.
-/

namespace ShapeGraph

open ShapeGraph.Numeric (Arithmetic Number)

variable [Arithmetic]

/-- A graph under construction.  Node `i` has the id `i`. -/
structure Graph where
  id : Nat
  settings : GraphSettings
  nodes : List Node
  obligations : List Obligation
  /-- What the graph has to say about its own construction, oldest first. -/
  journal : List String

namespace Graph

/-- A graph without nodes. -/
def empty (id : Nat) (settings : GraphSettings) : Graph :=
  ⟨id, settings, [], [], []⟩

/-- The number of nodes, which is the id of the next one. -/
def size (g : Graph) : Nat :=
  g.nodes.length

/-- The node of an id. -/
def find (g : Graph) (operation : String) (id : Number) : Except Fault Node :=
  match id.index?.bind (g.nodes[·]?) with
  | some node => .ok node
  | none => .error (.handle operation (.noNode id))

/-- The node of an id that callers give. -/
def node (g : Graph) (id : Number) : Except Fault Node :=
  g.find "node" id

/-- The node behind a tensor; another graph's tensors are refused. -/
def check (g : Graph) (operation : String) (t : Tensor) : Except Fault Node :=
  if t.graph = .ofNat g.id then g.find operation t.id
  else .error (.handle operation (.foreign t.id t.graph (.ofNat g.id)))

/-- The view of a tensor. -/
def view (g : Graph) (t : Tensor) : Except Fault View :=
  return (← g.check "tracker" t).view

/-- The length of every axis of a tensor. -/
def lengths (g : Graph) (t : Tensor) : Except Fault (List Size) := do
  (← g.view t).lengths

/-- A named input with its declared shape. -/
structure Leaf where
  id : Nat
  name : String
  shape : Shape

/-- The input leaves in order of insertion. -/
def leaves (g : Graph) : List Leaf :=
  (g.nodes.filter fun node => node.kind = .input).map fun node =>
    ⟨node.id, node.name.getD "", node.shape⟩

/-- One node as a line of text. -/
def nodeText (node : Node) : String :=
  let inputs := ", ".intercalate (node.inputs.map fun id => "%" ++ id.repr)
  "  %" ++ node.id.repr ++ " = " ++ node.kind.name ++
    (if node.inputs.isEmpty then "" else "(" ++ inputs ++ ")") ++
    (node.name.elim "" fun name => " \"" ++ name ++ "\"") ++ " " ++ node.shape.text

/-- The graph as text, one line a node. -/
def text (g : Graph) : String :=
  let heading := "Graph \"" ++ g.settings.name ++ "\" (" ++ g.size.repr ++ " nodes)"
  "\n".intercalate (heading :: g.nodes.map nodeText)

/-- The journal line of an obligation. -/
def obligationLine (node : Nat) (equality : Equality) : String :=
  "obligation on %" ++ node.repr ++ ": " ++ equality.left.text ++ " == " ++
    equality.right.text ++ " (" ++ equality.operation ++ ", " ++ equality.relation ++ ")"

/-- Records the equalities that a node relies on.  The journal speaks of that
node, also where an equality names another one. -/
def record (g : Graph) (node : Nat) (pending : List Pending) : Graph :=
  { g with
    obligations := g.obligations ++ pending.map (Pending.on node)
    journal := g.journal ++ pending.map fun p => obligationLine node p.equality }

/-- Notes a line in the journal. -/
def note (g : Graph) (line : String) : Graph :=
  { g with journal := g.journal ++ [line] }

end Graph

/-! ## Nodes to be inserted -/

/-- How the input of a node is named: by an id or by a tensor. -/
inductive NodeRef where
  | id (n : Number)
  | tensor (t : Tensor)

/-- A node that is not inserted yet. -/
structure Draft where
  kind : OpKind
  shape : Shape
  view : View
  inputs : List NodeRef
  attributes : Entries Value
  name : Option String
  payload : Option Payload
  pending : List Pending

namespace Draft

/-- A draft with nothing but a kind, a shape and a view, which have to have the
same rank. -/
def start (kind : OpKind) (shape : Shape) (view : View) : Except Fault Draft :=
  if view.rank = shape.length then .ok ⟨kind, shape, view, [], [], none, none, []⟩
  else .error (.shape kind.name (.viewRank view.rank shape))

/-- Adds an input. -/
def addInput (draft : Draft) (source : NodeRef) : Draft :=
  { draft with inputs := draft.inputs ++ [source] }

/-- The one name that attributes cannot have; what is set under it is not
kept. -/
def reservedKey : String := "__proto__"

/-- Sets an attribute. -/
def setAttribute (draft : Draft) (key : String) (value : Value) : Draft :=
  if key = reservedKey then draft
  else { draft with attributes := draft.attributes.put key value }

/-- Adds an equality that the node relies on. -/
def addPending (draft : Draft) (pending : Pending) : Draft :=
  { draft with pending := draft.pending ++ [pending] }

/-- A draft with tensors as its inputs. -/
def ofTensors (draft : Draft) (tensors : List Tensor) : Draft :=
  { draft with inputs := tensors.map .tensor }

/-- A draft with the equalities that it relies on. -/
def relying (draft : Draft) (equalities : List Equality) : Draft :=
  { draft with pending := equalities.map Equality.pending }

end Draft

/-- The id of the node that is meant. -/
def Graph.inputId (g : Graph) (kind : OpKind) : NodeRef → Except Fault Nat
  | .id n => return (← g.node n).id
  | .tensor t => return (← g.check kind.name t).id

/-- The graph with a draft appended, whose inputs have the given ids.  The new
node owns its view. -/
def Graph.append (g : Graph) (draft : Draft) (inputs : List Nat) : Graph :=
  let node : Node :=
    ⟨g.size, draft.kind, inputs, draft.shape, draft.view.settle g.size, draft.attributes,
      draft.name, draft.payload⟩
  let line := "%" ++ g.size.repr ++ " = " ++ draft.kind.name ++ " " ++ draft.shape.text
  ({ g with nodes := g.nodes ++ [node] }.note line).record g.size draft.pending

/-! ## Steps -/

/-- A step on a graph: it ends in a result or a fault, and in a graph. -/
abbrev Build := ExceptT Fault (StateM Graph)

namespace Build

/-- A check or a reading, which leaves the graph alone. -/
def read {α : Type} (f : Graph → Except Fault α) : Build α :=
  ExceptT.mk fun g => (f g, g)

/-- A change that cannot fail. -/
def write {α : Type} (f : Graph → α × Graph) : Build α :=
  ExceptT.mk fun g => (.ok (f g).1, (f g).2)

/-- Runs a step. -/
def perform {α : Type} (step : Build α) (g : Graph) : Except Fault α × Graph :=
  step.run g

/-- Appends a draft.  Its inputs are checked first; its node, its id and its
obligations appear together. -/
def insert (draft : Draft) : Build Tensor := do
  let inputs ← read fun g => draft.inputs.mapM (g.inputId draft.kind)
  write fun g => (⟨.ofNat g.size, draft.shape, .ofNat g.id⟩, g.append draft inputs)

/-- Derives a draft from the graph as it is and appends it. -/
def derive (plan : Graph → Except Fault Draft) : Build Tensor := do
  insert (← read plan)

/-- A node with the shape and the lengths of a tensor, in storage of its
own. -/
def pointwise (kind : OpKind) (t : Tensor) : Build Tensor :=
  derive fun g => do
    let node ← g.check kind.name t
    let draft ← Draft.start kind t.shape (.contiguous (← node.view.lengths))
    return draft.ofTensors [t]

end Build

end ShapeGraph
