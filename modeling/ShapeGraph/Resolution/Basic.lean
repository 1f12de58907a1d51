import ShapeGraph.Environment
import ShapeGraph.Graph.Basic
import ShapeGraph.Resolution.Run

/-!
# Resolution

A resolution walks the nodes of a graph in the order of their insertion, as a
backend does before it computes anything: fed inputs bind symbols, host
computations run and bind more, recorded equalities bind the symbols that only
they name, and every view gets its concrete ranges.  At the end the recorded
equalities are checked.

* `bindInput`, `invokeFunction`, `bindObligations` — where bindings come from;
* `resolveNode` — one node of the walk;
* `Graph.resolve` — the walk and the final check.
-/

namespace ShapeGraph

open ShapeGraph.Numeric (Arithmetic Number)

variable [Arithmetic]

/-- What is fed to an input: its shape, and its data if there is any. -/
structure Feed where
  shape : List Number
  data : Option (List Number)

/-- A feed from numbers, whose data is rounded to single precision. -/
def Feed.ofNumbers (shape : List Number) (data : Option (List Number)) : Feed :=
  ⟨shape, data.map fun values => values.map Number.toSingle⟩

/-- What a resolution starts from. -/
structure ResolveOptions where
  bindings : Bindings
  inputs : Entries Feed

/-- A node with its symbols bound. -/
structure ResolvedNode where
  id : Nat
  kind : OpKind
  shape : List Number
  ranges : List ConcreteRange
  order : List Nat
  data : Option (List Number)

/-- What host computations see of a resolved node. -/
def ResolvedNode.asInput (node : ResolvedNode) : FunctionInput :=
  ⟨node.id, node.shape, node.ranges, node.data⟩

/-- A graph with all symbols bound, in the order in which they were. -/
structure ResolvedGraph where
  bindings : Bindings
  nodes : List ResolvedNode

/-- The resolved node of an id. -/
def ResolvedGraph.view (resolved : ResolvedGraph) (id : Number) : Except Fault ResolvedNode :=
  match id.index?.bind (resolved.nodes[·]?) with
  | some node => .ok node
  | none => .error (.handle "view" (.noResolvedNode id))

/-! ## Bindings from inputs -/

/-- The relation of a fed size to the declared one. -/
def inputRelation (name : String) (axis : Nat) : String :=
  s!"input '{name}' axis {axis}"

/-- Binds the sizes of an input from `axis` on. -/
def bindAxes (name : String) :
    Nat → Shape → List Number → List Size → Environment → Except Fault Environment
  | axis, dim :: dims, value :: values, length :: lengths, env => do
    refuseConstant name axis dim value
    let env ← env.unify length value (inputRelation name axis) .input
    bindAxes name (axis + 1) dims values lengths env
  | _, _, _, _, env => .ok env
where
  /-- A constant axis can be fed with its own size only. -/
  refuseConstant (name : String) (axis : Nat) (dim : Dimension) (value : Number) :
      Except Fault Unit :=
    match dim with
    | .constant size =>
      if size.same value then .ok ()
      else .error (.shape "resolve" (.fedSize name axis size value))
    | .dynamic _ => .ok ()

/-- Binds the sizes of an input to those of its feed, and takes its data. -/
def bindInput (node : Node) (feed : Feed) (env : Environment) :
    Except Fault (Environment × Option (List Number)) := do
  let name := node.name.getD ("%" ++ node.id.repr)
  if feed.shape.length ≠ node.shape.length then
    .error (.shape "resolve" (.fedRank name node.shape feed.shape))
  else
    let lengths ← node.view.lengths
    let env ← bindAxes name 0 node.shape feed.shape lengths env
    match feed.data with
    | some data =>
      if (Number.ofNat data.length).same (Number.product feed.shape) then
        return (env, some data)
      else .error (.shape "resolve" (.fedCount name data.length feed.shape))
    | none => return (env, none)

/-! ## Bindings from host computations -/

/-- The resolved inputs of a function node. -/
def functionInputs (name : String) (node : Node) (resolved : List ResolvedNode) :
    Except Fault (List FunctionInput) :=
  node.inputs.mapM fun id =>
    match resolved[id]? with
    | some input => .ok input.asInput
    | none => .error (.payload name node.id (.unresolvedInput id))

/-- Binds the declared sizes of a function node from `axis` on. -/
def bindResults (name : String) :
    Nat → List Number → List Size → Environment → Except Fault Environment
  | axis, value :: values, length :: lengths, env => do
    let env ← env.unify length value s!"{name} output axis {axis}" .function
    bindResults name (axis + 1) values lengths env
  | _, _, _, env => .ok env

/-- Runs a computation and resolves the view it returns.  Whatever stops it
becomes the cause of a payload fault. -/
def runPayload (name : String) (node : Node) (payload : Payload) (inputs : List FunctionInput)
    (env : Environment) : Except Fault (FunctionResult × List Number) :=
  let attempt : Except Fault (FunctionResult × List Number) := do
    let result ← payload.run inputs node.id
    let view ← result.view.resolve env.bindings
    return (result, view.shape)
  attempt.mapError (.threw name node.id)

/-- The result of a computation has to be about its own node, of the declared
rank, and filled with data if there is any. -/
def checkResult (name : String) (node : Node) (result : FunctionResult) (sizes : List Number) :
    Except Fault Unit := do
  if !result.id.same (.ofNat node.id) then
    .error (.payload name node.id (.wrongNode result.id))
  if sizes.length ≠ node.shape.length then
    .error (.payload name node.id (.rank sizes.length node.shape))
  match result.data with
  | some data =>
    if (Number.ofNat data.length).same (Number.product sizes) then .ok ()
    else .error (.payload name node.id (.count data.length sizes))
  | none => .ok ()

/-- What is seen of a call: hosts see the calls of their own computations. -/
def callSeen (payload : Payload) (node : Nat) (inputs : List FunctionInput) : Run Unit :=
  match payload with
  | .host _ => Run.emit (.invoked node inputs)
  | _ => pure ()

/-- Runs the computation of a function node, binds its declared sizes and takes
its data. -/
def invokeFunction (node : Node) (resolved : List ResolvedNode) (env : Environment) :
    Run (Environment × Option (List Number)) := do
  let name := node.name.getD "function"
  match node.payload with
  | none => Run.lift (.error (.payload name node.id .missing))
  | some payload =>
    let inputs ← functionInputs name node resolved
    Run.log .debug ("invoking " ++ name ++ " for %" ++ node.id.repr)
    callSeen payload node.id inputs
    let (result, sizes) ← runPayload name node payload inputs env
    checkResult name node result sizes
    let declared ← node.view.lengths
    let env ← bindResults name 0 sizes declared env
    return (env, result.data)

/-- The data of a constant: its value, if that is a number. -/
def constantData (node : Node) : Option (List Number) :=
  match node.attributes.get? "value" with
  | some (.number value) => some [value.toSingle]
  | _ => none

/-! ## Bindings from equalities -/

/-- Binds the bare symbol on one side of an equality whose other side is
known. -/
def bindEquality (env : Environment) (equality : Equality) : Except Fault Environment := do
  let left ← equality.left.substitute env.bindings
  let right ← equality.right.substitute env.bindings
  match left, right with
  | .literal l, .symbol name => env.bind name l .obligation
  | .symbol name, .literal r => env.bind name r .obligation
  | _, _ => .ok env

/-- Binds what equalities determine, one after the other. -/
def bindObligations : Environment → List Obligation → Except Fault Environment
  | env, [] => .ok env
  | env, obligation :: rest => do
    bindObligations (← bindEquality env obligation.equality) rest

/-- Checks the recorded equalities under the final bindings. -/
def checkObligations (bindings : Bindings) : List Obligation → Run Unit
  | [] => pure ()
  | obligation :: rest => do
    let equality := obligation.equality
    let left ← equality.left.evaluate bindings
    let right ← equality.right.evaluate bindings
    if left.same right then checkObligations bindings rest
    else
      let relation :=
        equality.relation ++ " of " ++ equality.operation ++ " at %" ++ obligation.node.text
      Run.log .warn ("obligation failed: " ++ relation ++ ": " ++ equality.left.text ++ " = " ++
        left.text ++ ", " ++ equality.right.text ++ " = " ++ right.text)
      Run.lift (.error (.mismatch
        (.obligation relation left right equality.left equality.right)))

/-! ## The walk -/

/-- What a node contributes by itself: bindings and data. -/
def evaluateNode (inputs : Entries Feed) (node : Node) (resolved : List ResolvedNode)
    (env : Environment) : Run (Environment × Option (List Number)) :=
  match node.kind with
  | .input =>
    match inputs.get? (node.name.getD "") with
    | some feed => Run.lift (bindInput node feed env)
    | none => pure (env, none)
  | .constant => pure (env, constantData node)
  | .function => invokeFunction node resolved env
  | _ => pure (env, none)

/-- Resolves one node after those before it. -/
def resolveNode (obligations : List Obligation) (inputs : Entries Feed) (node : Node)
    (resolved : List ResolvedNode) (env : Environment) : Run (Environment × ResolvedNode) := do
  let (env, data) ← evaluateNode inputs node resolved env
  let env ← bindObligations env (obligations.filter fun o => o.node = .ofNat node.id)
  let view ← node.view.resolve env.bindings
  return (env, ⟨node.id, node.kind, view.shape, view.ranges, view.order, data⟩)

/-- Resolves nodes one after the other. -/
def walk (obligations : List Obligation) (inputs : Entries Feed) :
    List Node → List ResolvedNode → Environment → Run (Environment × List ResolvedNode)
  | [], resolved, env => pure (env, resolved)
  | node :: rest, resolved, env => do
    let (env, next) ← resolveNode obligations inputs node resolved env
    walk obligations inputs rest (resolved ++ [next]) env

/-- Logs every binding. -/
def logBindings : List Binding → Run Unit
  | [] => pure ()
  | binding :: rest => do
    Run.log .debug
      ("bound " ++ binding.symbol ++ " = " ++ binding.value.text ++ " (" ++
        binding.source.name ++ ")")
    logBindings rest

/-- Binds every symbol of a graph and resolves all of its views. -/
def Graph.resolve (g : Graph) (options : ResolveOptions) : Run ResolvedGraph := do
  let env ← Environment.ofBindings options.bindings
  let (env, nodes) ← walk g.obligations options.inputs g.nodes [] env
  logBindings env.entries
  if g.settings.checkObligations then checkObligations env.bindings g.obligations
  return ⟨env.bindings, nodes⟩

end ShapeGraph
