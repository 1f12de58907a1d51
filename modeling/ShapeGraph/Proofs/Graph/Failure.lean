import ShapeGraph.Graph.Builder
import ShapeGraph.Proofs.Graph.Movement

/-!
# Calls that fail

Handles may come from anywhere: from another graph, from a node that is not
there, or made up.  A call checks them and derives whatever it inserts before it
changes anything, so a call that fails leaves its graph as it was, and a call
that succeeds was given nodes that are there.

* `Graph.Knows` — the node that a source names is there;
* `Build.Guarded` — a step that fails changes nothing, and one that succeeds
  knows its sources;
* `Command.guarded` — every operation is like that, on any graph;
* `Call.failure_leaves_graph` — so is every call, of builders too.
-/

namespace ShapeGraph

open ShapeGraph.Numeric (Arithmetic Number)

/-! ## Sources -/

/-- The node that a source names is there: an id is that of a node, and a handle
is one of this graph on such an id. -/
def Graph.Knows (g : Graph) : NodeRef → Prop
  | .id n => ∃ place < g.size, n = .ofNat place
  | .tensor t => t.graph = .ofNat g.id ∧ ∃ place < g.size, t.id = .ofNat place

variable {g : Graph}

/-- A handle that passes the check is known to the graph. -/
theorem Graph.knows_of_check {operation : String} {t : Tensor} {node : Node}
    (h : g.check operation t = .ok node) : g.Knows (.tensor t) := by
  obtain ⟨hgraph, place, hid, hnode⟩ := check_eq_ok.mp h
  exact ⟨hgraph, place, (List.getElem?_eq_some_iff.mp hnode).1, hid⟩

/-- A source whose id is found is known to the graph. -/
theorem Graph.knows_of_inputId {kind : OpKind} {source : NodeRef} {id : Nat}
    (h : g.inputId kind source = .ok id) : g.Knows source := by
  cases source with
  | id n =>
      simp only [inputId, node, bind_eq_ok] at h
      obtain ⟨node, hnode, _⟩ := h
      obtain ⟨place, hid, hplace⟩ := find_eq_ok.mp hnode
      exact ⟨place, (List.getElem?_eq_some_iff.mp hplace).1, hid⟩
  | tensor t =>
      simp only [inputId, bind_eq_ok] at h
      obtain ⟨node, hnode, _⟩ := h
      exact knows_of_check hnode

/-! ## Guarded steps -/

/-- A step that leaves the graph alone if it fails, and that fails unless the
graph knows all of the sources. -/
structure Build.Guarded {α : Type} (step : Build α) (g : Graph) (sources : List NodeRef) :
    Prop where
  unchanged : ∀ fault g', step.perform g = (.error fault, g') → g' = g
  known : ∀ a g', step.perform g = (.ok a, g') → ∀ source ∈ sources, g.Knows source

namespace Build.Guarded

variable {α β : Type} {sources : List NodeRef}

/-- A step that only reads is guarded by what it finds. -/
theorem read {f : Graph → Except Fault α}
    (h : ∀ a, f g = .ok a → ∀ source ∈ sources, g.Knows source) :
    (Build.read f).Guarded g sources where
  unchanged _ _ hperform := (congrArg Prod.snd hperform).symm
  known a _ hperform := h a (congrArg Prod.fst hperform)

/-- A step that cannot fail is guarded if the graph knows the sources. -/
theorem write {f : Graph → α × Graph} (h : ∀ source ∈ sources, g.Knows source) :
    (Build.write f).Guarded g sources where
  unchanged _ _ hperform := by cases congrArg Prod.fst hperform
  known _ _ _ := h

/-- A reading that fails changes nothing, and what follows one that succeeds
decides. -/
theorem read_bind {f : Graph → Except Fault α} {next : α → Build β}
    (h : ∀ a, f g = .ok a → (next a).Guarded g sources) :
    (Build.read f >>= next).Guarded g sources := by
  cases hf : f g with
  | error fault =>
      have hperform := perform_read_bind_error hf next
      constructor
      · intro fault' g' hfails
        rw [hperform] at hfails
        exact (congrArg Prod.snd hfails).symm
      · intro a g' hok
        rw [hperform] at hok
        cases congrArg Prod.fst hok
  | ok a =>
      have hperform := perform_read_bind hf next
      constructor
      · intro fault g' hfails
        exact (h a hf).unchanged fault g' (hperform ▸ hfails)
      · intro b g' hok
        exact (h a hf).known b g' (hperform ▸ hok)

/-- A step whose result is passed on is guarded as it is. -/
theorem map {step : Build α} (h : step.Guarded g sources) (f : α → β) :
    (step >>= fun a => pure (f a)).Guarded g sources := by
  constructor
  · intro fault g' hperform
    rw [perform_bind] at hperform
    rcases hstep : step.perform g with ⟨fault' | a, g''⟩
    · rw [hstep] at hperform
      have hgraph : g'' = g' := congrArg Prod.snd hperform
      exact hgraph ▸ h.unchanged fault' g'' hstep
    · rw [hstep] at hperform
      cases congrArg Prod.fst hperform
  · intro b g' hperform
    rw [perform_bind] at hperform
    rcases hstep : step.perform g with ⟨fault | a, g''⟩
    · rw [hstep] at hperform
      cases congrArg Prod.fst hperform
    · exact h.known a g'' hstep

/-- Inserting a draft checks all of its inputs before it changes anything. -/
theorem insert (draft : Draft) : (Build.insert draft).Guarded g draft.inputs := by
  refine read_bind fun inputs hinputs => write fun source hsource => ?_
  obtain ⟨id, hid⟩ := ok_of_mem_mapM hinputs hsource
  exact Graph.knows_of_inputId hid

/-- Deriving a draft is guarded by what its plan checks. -/
theorem derive {plan : Graph → Except Fault Draft}
    (h : ∀ draft, plan g = .ok draft → ∀ source ∈ sources, g.Knows source) :
    (Build.derive plan).Guarded g sources :=
  read_bind fun draft hplan => ⟨(insert draft).unchanged, fun _ _ _ => h draft hplan⟩

/-- A plan that starts by checking its only operand. -/
theorem derive_checked {t : Tensor} {operation : String} {rest : Node → Except Fault Draft}
    {plan : Graph → Except Fault Draft} (hplan : plan g = g.check operation t >>= rest) :
    (Build.derive plan).Guarded g [.tensor t] := by
  refine derive fun draft hdraft => List.forall_mem_singleton.mpr ?_
  rw [hplan] at hdraft
  obtain ⟨node, hnode, _⟩ := bind_eq_ok.mp hdraft
  exact Graph.knows_of_check hnode

/-- A plan that starts by checking both of its operands. -/
theorem derive_checked_both {a b : Tensor} {operation : String} {rest : Except Fault Draft}
    {plan : Graph → Except Fault Draft} (hplan : plan g = (do
      let _ ← g.check operation a
      let _ ← g.check operation b
      rest)) : (Build.derive plan).Guarded g [.tensor a, .tensor b] := by
  refine derive fun draft hdraft => ?_
  rw [hplan] at hdraft
  obtain ⟨node, hnode, hdraft⟩ := bind_eq_ok.mp hdraft
  obtain ⟨other, hother, _⟩ := bind_eq_ok.mp hdraft
  refine List.forall_mem_cons.mpr ⟨Graph.knows_of_check hnode, List.forall_mem_singleton.mpr ?_⟩
  exact Graph.knows_of_check hother

end Build.Guarded

/-! ## Operations -/

open Build (Guarded)

/-- A function is guarded by its inputs: it is not inserted unless all of them are known. -/
theorem addFunction_guarded (g : Graph) (name : String) (inputs : List Tensor) (shape : Shape)
    (payload : Payload) (sizes : Option (List (Option Quantity))) :
    (Build.addFunction name inputs shape payload sizes).Guarded g (inputs.map .tensor) := by
  refine .derive fun draft hplan source hsource => ?_
  obtain ⟨nodes, hnodes, _⟩ := bind_eq_ok.mp hplan
  obtain ⟨t, ht, rfl⟩ := List.mem_map.mp hsource
  obtain ⟨node, hnode⟩ := ok_of_mem_mapM hnodes ht
  exact Graph.knows_of_check hnode

/-- After a step that appends a node, a plan that no longer depends on the graph
goes through if its only input is that node. -/
theorem derive_after_append {first second : Draft} {inputs : List Nat}
    (hinputs : second.inputs = [.tensor (Build.handle g first.shape)]) :
    ∃ t g', (Build.derive fun _ => .ok second).perform (g.append first inputs) = (.ok t, g') := by
  have hnode : (g.append first inputs).nodes[g.size]? = some ⟨g.size, first.kind, inputs,
      first.shape, first.view.settle g.size, first.attributes, first.name, first.payload⟩ := by
    rw [Graph.append_nodes]
    exact List.getElem?_concat_length
  have hbehind : (g.append first inputs).Behind (Build.handle g first.shape) _ :=
    ⟨rfl, g.size, rfl, hnode⟩
  have hfound : second.inputs.mapM ((g.append first inputs).inputId second.kind) =
      .ok [g.size] := by
    rw [hinputs]
    exact inputs_ok (.cons hbehind .nil)
  exact ⟨_, _, Build.perform_derive_ok rfl hfound⟩

section

variable [Arithmetic]

/-- A relabelling is guarded by the tensor that it relabels. -/
theorem realize_guarded (g : Graph) (t : Tensor) (shape : Shape) :
    (Build.realize t shape).Guarded g [.tensor t] := by
  refine .read_bind fun ⟨node, equalities⟩ hread => .write (List.forall_mem_singleton.mpr ?_)
  obtain ⟨held, hheld, _⟩ := bind_eq_ok.mp hread
  exact Graph.knows_of_check hheld

/-- Laying a view out takes a node of its own, and nothing after its insertion
can fail: all sizes of the target were derived before it. -/
theorem reshape_guarded (g : Graph) (t : Tensor) (target : List ReshapeEntry) :
    (Build.reshape t target).Guarded g [.tensor t] := by
  refine .read_bind fun ⟨whole, axes, equalities⟩ hread => ?_
  obtain ⟨node, hnode, _⟩ := bind_eq_ok.mp hread
  have hknown : ∀ source ∈ [NodeRef.tensor t], g.Knows source :=
    List.forall_mem_singleton.mpr (Graph.knows_of_check hnode)
  simp only [reshape_plan]
  by_cases hwhole : whole
  · rw [if_pos hwhole, pure_bind]
    exact .derive fun _ _ => hknown
  · rw [if_neg hwhole]
    refine ⟨fun fault g' hperform => ?_, fun _ _ _ => hknown⟩
    rw [Build.perform_bind, Build.contiguous, Build.pointwise, Build.perform_derive] at hperform
    split at hperform
    · next source g'' hlaid =>
      split at hlaid
      · next first inputs hplanned =>
        obtain ⟨rfl, rfl⟩ : Build.handle g first.shape = source ∧ g.append first inputs = g'' := by
          simpa using hlaid
        have hlast : ∃ t' g₂, (Build.derive fun _ => .ok
            (reshaped (Build.handle g first.shape) target axes equalities)).perform
              (g.append first inputs) = (.ok t', g₂) := derive_after_append rfl
        obtain ⟨t', g₂, hsecond⟩ := hlast
        rw [hsecond] at hperform
        cases congrArg Prod.fst hperform
      · cases congrArg Prod.fst hlaid
    · next fault' g'' hlaid =>
      split at hlaid
      · cases congrArg Prod.fst hlaid
      · exact (congrArg Prod.snd hperform).symm.trans (congrArg Prod.snd hlaid).symm

end

/-! ## Commands -/

/-- The places of the operands of a command. -/
def Command.places : Command → List Nat
  | newTensor _ _ | constant _ => []
  | addFunction _ inputs _ _ _ => inputs
  | concat a b _ | binary _ a b | matmul a b => [a, b]
  | realize t _ | slice t _ | permute t _ | reshape t _ | expand t _ _ | expandTo t _
  | contiguous t | unary _ t | scalar _ t _ | reduce _ t _ | softmax t _ | arange t _
  | causalMask t _ => [t]

/-- The handles that are found at some places. -/
def Command.found (handles : List Tensor) (places : List Nat) : List NodeRef :=
  (places.filterMap (handles[·]?)).map .tensor

namespace Build.Guarded

variable {α : Type} {handles : List Tensor}

/-- A step that takes one more operand is guarded by it, and by those it has
already. -/
theorem operand (taken : List NodeRef) {place : Nat} {places : List Nat}
    {next : Tensor → Build α}
    (h : ∀ t, (next t).Guarded g (taken ++ .tensor t :: Command.found handles places)) :
    (Command.operand handles place >>= next).Guarded g
      (taken ++ Command.found handles (place :: places)) := by
  refine read_bind fun t ht => ?_
  split at ht
  · next held hheld =>
    obtain rfl := Except.ok.inj ht
    have hfound : Command.found handles (place :: places) =
        .tensor held :: Command.found handles places := by
      simp [Command.found, hheld]
    rw [hfound]
    exact h held
  · cases ht

/-- A call on a list of operands is guarded by those that it has taken and those it takes. -/
theorem operands (taken : List NodeRef) {places : List Nat} {next : List Tensor → Build α}
    (h : ∀ tensors, (next tensors).Guarded g (taken ++ tensors.map .tensor)) :
    (places.mapM (Command.operand handles) >>= next).Guarded g
      (taken ++ Command.found handles places) := by
  induction places generalizing taken next with
  | nil =>
      rw [List.mapM_nil, pure_bind]
      exact h []
  | cons place rest ih =>
      simp only [List.mapM_cons, bind_assoc, pure_bind]
      refine operand taken fun t => ?_
      rw [List.append_cons]
      exact ih (taken ++ [.tensor t]) fun tensors => by simpa using h (t :: tensors)

end Build.Guarded

/-- **Every operation is guarded**, whatever handles it is given and whatever
graph it is called on. -/
theorem Command.guarded [Arithmetic] (g : Graph) (handles : List Tensor) (command : Command) :
    (command.step handles).Guarded g (Command.found handles command.places) := by
  cases command with
  | newTensor name shape => exact .derive fun _ _ => List.forall_mem_nil _
  | constant value => exact .derive fun _ _ => List.forall_mem_nil _
  | addFunction name inputs shape payload sizes =>
      exact .operands [] fun tensors => addFunction_guarded g name tensors shape payload sizes
  | realize t shape => exact .operand [] fun t => realize_guarded g t shape
  | slice t specs => exact .operand [] fun t => .derive_checked rfl
  | permute t axes => exact .operand [] fun t => .derive_checked rfl
  | reshape t target => exact .operand [] fun t => reshape_guarded g t target
  | expand t axis dim => exact .operand [] fun t => .derive_checked rfl
  | expandTo t target => exact .operand [] fun t => .derive_checked rfl
  | concat a b axis =>
      exact .operand [] fun a => .operand [.tensor a] fun b => .derive_checked_both rfl
  | contiguous t => exact .operand [] fun t => .derive_checked rfl
  | unary op t => exact .operand [] fun t => .derive_checked rfl
  | binary op a b =>
      exact .operand [] fun a => .operand [.tensor a] fun b => .derive_checked_both rfl
  | scalar op t value => exact .operand [] fun t => .derive_checked rfl
  | reduce op t axis => exact .operand [] fun t => .derive_checked rfl
  | softmax t axis => exact .operand [] fun t => .derive_checked rfl
  | matmul a b =>
      exact .operand [] fun a => .operand [.tensor a] fun b => .derive_checked_both rfl
  | arange like axis =>
      exact .operand [] fun t => .read_bind fun _ _ => addFunction_guarded g _ [t] _ _ _
  | causalMask like axis =>
      exact .operand [] fun t => .read_bind fun _ _ => addFunction_guarded g _ [t] _ _ _

/-! ## Calls -/

/-- Finishing a builder is guarded by the inputs that it has collected. -/
theorem Builder.finish_guarded (g : Graph) (b : Builder) :
    b.finish.Guarded g b.draft.inputs := by
  by_cases hfinished : b.finished
  · rw [finish, if_pos hfinished]
    exact .read fun _ hok => by cases hok
  · rw [finish, if_neg hfinished]
    exact (Build.Guarded.insert b.draft).map _

/-- Any call that may change a graph or prepares to: an operation on handles of
any origin, the start of a builder, or its end. -/
inductive Call where
  | operation (handles : List Tensor) (command : Command)
  | addOp (kind : OpKind) (shape : Shape) (view : View)
  | finish (builder : Builder)

namespace Call

/-- The nodes that a call is given, by handle or by id. -/
def sources : Call → List NodeRef
  | operation handles command => Command.found handles command.places
  | addOp _ _ _ => []
  | finish builder => builder.draft.inputs

/-- What a call does to its graph; what it returns is of no concern here. -/
def step [Arithmetic] : Call → Build Unit
  | operation handles command => do
    let _ ← command.step handles
    return ()
  | addOp kind shape view => do
    let _ ← Build.read fun _ => Builder.start kind shape view
    return ()
  | finish builder => do
    let _ ← builder.finish
    return ()

/-- Every call leaves the graph alone when it fails, and fails unless its sources are known. -/
theorem guarded [Arithmetic] (g : Graph) (call : Call) : call.step.Guarded g call.sources := by
  cases call with
  | operation handles command => exact (command.guarded g handles).map _
  | addOp kind shape view =>
      exact .map (.read fun _ _ => List.forall_mem_nil _) _
  | finish builder => exact (builder.finish_guarded g).map _

/-- **A call that fails leaves its graph as it was**, on any graph and with any
arguments: no node, no obligation and no line of the journal is added.  A call
that is given a handle of another graph, or an id that no node has, does fail. -/
theorem failure_leaves_graph [Arithmetic] (g : Graph) (call : Call) :
    (∀ fault g', call.step.perform g = (.error fault, g') → g' = g) ∧
      ∀ source ∈ call.sources, ¬ g.Knows source →
        ∃ fault, call.step.perform g = (.error fault, g) := by
  have hguarded := call.guarded g
  refine ⟨hguarded.unchanged, fun source hsource hunknown => ?_⟩
  rcases hperform : call.step.perform g with ⟨fault | result, g'⟩
  · exact ⟨fault, by rw [hguarded.unchanged fault g' hperform]⟩
  · exact absurd (hguarded.known result g' hperform source hsource) hunknown

/-- The transpose of a matrix. -/
def transposed : Session :=
  (Session.start 0 ⟨"graph", true, none⟩).run
    [.newTensor "x" [.constant 2, .constant 3], .permute 0 [1, 0]]

/-- The transpose reshaped to a wrong number of elements. -/
def misshapen : Call :=
  operation transposed.issued (.reshape 1 [.size 7])

/-- An operation on a handle of graph `5`. -/
def strayed : Call :=
  operation [⟨1, [.constant 3, .constant 2], 5⟩] (.contiguous 0)

/-- A transpose is no contiguous view.  Where its reshape fails it is not laid out
either; and a handle of another graph is refused. -/
theorem failure_leaves_graph_transposed :
    transposed.graph.size = 2 ∧
      misshapen.step.perform transposed.graph =
        (.error (.shape "reshape" (.sizes "element count" 6 7)), transposed.graph) ∧
      ∃ fault, strayed.step.perform transposed.graph = (.error fault, transposed.graph) := by
  have hmisshapen : misshapen.step.perform transposed.graph =
      (.error (.shape "reshape" (.sizes "element count" 6 7)),
        (misshapen.step.perform transposed.graph).2) := rfl
  refine ⟨rfl, ?_, ?_⟩
  · have hgraph := (failure_leaves_graph transposed.graph misshapen).1 _ _ hmisshapen
    rw [hmisshapen, hgraph]
  · refine (failure_leaves_graph transposed.graph strayed).2
      (.tensor ⟨1, [.constant 3, .constant 2], 5⟩) (List.mem_singleton.mpr rfl) ?_
    rintro ⟨hgraph, _⟩
    exact absurd hgraph (by decide)

end Call

end ShapeGraph
