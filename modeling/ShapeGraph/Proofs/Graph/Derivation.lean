import ShapeGraph.Proofs.Graph.Found
import ShapeGraph.Proofs.Graph.Movement
import ShapeGraph.Proofs.View.Whole
import ShapeGraph.Proofs.View.Widening

/-!
# What the named operations derive

Each named operation derives a draft and appends it, and `reshape` may append the layout of
its operand before.  Whatever handles an operation is given, and of whatever numbers its
arguments are, the draft has a view of the rank of its shape, which is laid out unless the
operation only shows its operand in another way.

* `Draft.Derived` — what the draft of a named operation is like;
* `Command.changes` — the changes that a command makes;
* `Command.appends` — all but a relabelling append and do nothing else.
-/

namespace ShapeGraph

open ShapeGraph.Numeric (Arithmetic Number)

/-! ## Drafts -/

/-- All views of a graph are well formed. -/
def Graph.ViewsWellFormed (g : Graph) : Prop :=
  ∀ node ∈ g.nodes, node.view.WellFormed

/-- The node behind a tensor is one of the nodes. -/
theorem Graph.Behind.mem {g : Graph} {t : Tensor} {node : Node} (h : g.Behind t node) :
    node ∈ g.nodes := by
  obtain ⟨_, place, _, hplace⟩ := h
  exact List.mem_of_getElem? hplace

/-- A check that goes through returns one of the nodes. -/
theorem Graph.mem_of_check {g : Graph} {operation : String} {t : Tensor} {node : Node}
    (h : g.check operation t = .ok node) : node ∈ g.nodes :=
  (Graph.check_eq_ok.mp h).mem

/-- The draft of a named operation. -/
structure Draft.Derived (g : Graph) (draft : Draft) : Prop where
  plain : draft.Plain
  rank_eq : draft.view.rank = draft.shape.length
  wellFormed : g.ViewsWellFormed → draft.view.WellFormed
  laid : draft.kind.isView = false → ∃ sizes, draft.view = .contiguous sizes
  scalar : draft.kind = .constant → draft.shape = []
  payload : draft.kind = .function → draft.payload.isSome = true
  source : draft.kind = .reshape → ∃ t node, draft.inputs = [.tensor t] ∧ g.Behind t node ∧
    node.view.isContiguous = true

variable {g : Graph} {draft : Draft}

/-- The operations that hold no constant, run no computation and reshape nothing. -/
def OpKind.isPlain : OpKind → Bool
  | .constant | .function | .reshape => false
  | _ => true

/-- A draft of a plain operation that lays out storage of its own. -/
theorem Draft.Derived.of_sizes {sizes : List Size} (hplain : draft.Plain)
    (hview : draft.view = .contiguous sizes) (hrank : draft.view.rank = draft.shape.length)
    (hkind : draft.kind.isPlain = true) : draft.Derived g where
  plain := hplain
  rank_eq := hrank
  wellFormed _ := hview ▸ View.contiguous_wellFormed sizes
  laid _ := ⟨sizes, hview⟩
  scalar h := by rw [h] at hkind; cases hkind
  payload h := by rw [h] at hkind; cases hkind
  source h := by rw [h] at hkind; cases hkind

/-- A draft that shows the storage of another node. -/
theorem Draft.Derived.of_view (hplain : draft.Plain) (hkind : draft.kind.isView = true)
    (hrank : draft.view.rank = draft.shape.length)
    (hview : g.ViewsWellFormed → draft.view.WellFormed) : draft.Derived g where
  plain := hplain
  rank_eq := hrank
  wellFormed := hview
  laid h := absurd hkind (by simp [h])
  scalar h := by rw [h] at hkind; cases hkind
  payload h := by rw [h] at hkind; cases hkind
  source h := by rw [h] at hkind; cases hkind

/-! ## Operations -/

namespace Build

variable {recordable : List Equality → Prop} {t : Tensor}

open ShapeGraph.Graph (Changes)

/-- Declaring an input appends storage of its own, or nothing. -/
theorem newTensor_changes (name : String) (shape : Shape) :
    Changes Draft.Derived recordable g ((newTensor name shape).perform g).2 :=
  (newTensor_derives name shape).changes fun found => .of_sizes ⟨[], rfl⟩ rfl found.rank_eq rfl

/-- A constant is appended with storage of its own, and with no axes. -/
theorem constant_changes (value : Number) :
    Changes Draft.Derived recordable g ((constant value).perform g).2 :=
  (constant_derives value).changes fun _ => {
    plain := ⟨[], rfl⟩
    rank_eq := rfl
    wellFormed := fun _ => View.contiguous_wellFormed []
    laid := fun _ => ⟨[], rfl⟩
    scalar := fun _ => rfl
    payload := nofun
    source := nofun }

/-- A function is appended with storage of its own, and with a computation. -/
theorem addFunction_changes (name : String) (tensors : List Tensor) (shape : Shape)
    (payload : Payload) (declared : Option (List (Option Quantity))) :
    Changes Draft.Derived recordable g
      ((addFunction name tensors shape payload declared).perform g).2 :=
  (addFunction_derives name tensors shape payload declared).changes fun found => {
    plain := ⟨found.equalities, rfl⟩
    rank_eq := found.rank_eq
    wellFormed := fun _ => View.contiguous_wellFormed found.sizes
    laid := fun _ => ⟨found.sizes, rfl⟩
    scalar := nofun
    payload := fun _ => rfl
    source := nofun }

/-- A permutation appends a view of its operand, or nothing. -/
theorem permute_changes (t : Tensor) (axes : List Number) :
    Changes Draft.Derived recordable g ((permute t axes).perform g).2 :=
  (permute_derives t axes).changes fun found => .of_view ⟨[], rfl⟩ rfl found.rank_eq fun hg =>
    View.permute_wellFormed (hg _ (Graph.mem_of_check found.node_eq)) found.view_eq

theorem expand_changes (t : Tensor) (axis : Number) (dim : Dimension) :
    Changes Draft.Derived recordable g ((expand t axis dim).perform g).2 :=
  (expand_derives t axis dim).changes fun found => .of_view ⟨[], rfl⟩ rfl found.rank_eq fun hg =>
    View.expand_wellFormed (hg _ (Graph.mem_of_check found.node_eq)) found.view_eq

variable [Arithmetic]

/-- A slice appends a view of its operand, or nothing. -/
theorem slice_changes (t : Tensor) (specs : List RangeSpec) :
    Changes Draft.Derived recordable g ((slice t specs).perform g).2 :=
  (slice_derives t specs).changes fun found => .of_view ⟨[], rfl⟩ rfl found.rank_eq fun hg =>
    (View.slice_ok (hg _ (Graph.mem_of_check found.node_eq)) found.view_eq).1

theorem expandTo_changes (t : Tensor) (target : Shape) :
    Changes Draft.Derived recordable g ((expandTo t target).perform g).2 := by
  refine (expandTo_derives t target).changes fun found =>
    .of_view ⟨_, rfl⟩ rfl found.rank_eq fun hg => ?_
  have hnode := hg _ (Graph.mem_of_check found.node_eq)
  have haligned := alignAxes_keep (fun hv _ => View.broadcastAxis_wellFormed hv) hnode
    found.aligned_eq
  exact leadAxes_keep (fun hv _ => View.expand_wellFormed hv) haligned found.view_eq

/-- What has the shape and the lengths of its operand lays them out. -/
theorem pointwise_derived {kind : OpKind} (hkind : kind.isPlain = true)
    (found : Found.Pointwise g kind t) (attributes : Entries Value) :
    (found.draft attributes).Derived g :=
  .of_sizes ⟨[], rfl⟩ rfl found.rank_eq hkind

/-- An operation on every element appends storage of its own, or nothing. -/
theorem pointwise_changes (kind : OpKind) (hkind : kind.isPlain = true) (t : Tensor) :
    Changes Draft.Derived recordable g ((pointwise kind t).perform g).2 :=
  (pointwise_derives kind t).changes fun found => pointwise_derived hkind found _

theorem scalar_changes (op : ScalarOp) (t : Tensor) (value : Number) :
    Changes Draft.Derived recordable g ((scalar op t value).perform g).2 :=
  (scalar_derives op t value).changes fun found => pointwise_derived rfl found _

theorem softmax_changes (t : Tensor) (axis : Number) :
    Changes Draft.Derived recordable g ((softmax t axis).perform g).2 :=
  (softmax_derives t axis).changes fun found => pointwise_derived rfl found.toPointwise _

theorem reduce_changes (op : ReduceOp) (t : Tensor) (axis : Number) :
    Changes Draft.Derived recordable g ((reduce op t axis).perform g).2 :=
  (reduce_derives op t axis).changes fun found => .of_sizes ⟨[], rfl⟩ rfl found.rank_eq rfl

/-- An operation on two tensors appends storage of its own, or nothing. -/
theorem binary_changes (op : BinaryOp) (a b : Tensor) :
    Changes Draft.Derived recordable g ((binary op a b).perform g).2 :=
  (binary_derives op a b).changes fun found => .of_sizes ⟨_, rfl⟩ rfl found.rank_eq rfl

theorem concat_changes (a b : Tensor) (axis : Number) :
    Changes Draft.Derived recordable g ((concat a b axis).perform g).2 :=
  (concat_derives a b axis).changes fun found => .of_sizes ⟨_, rfl⟩ rfl found.rank_eq rfl

theorem matmul_changes (a b : Tensor) :
    Changes Draft.Derived recordable g ((matmul a b).perform g).2 :=
  (matmul_derives a b).changes fun found => .of_sizes ⟨_, rfl⟩ rfl found.rank_eq rfl

/-- A reshape lays out its target, on an operand that is laid out as well. -/
theorem reshaped_derived {g' : Graph} {target : List ReshapeEntry}
    (found : Found.Reshape g t target) {source : Tensor} {node : Node}
    (hbehind : g'.Behind source node) (hwhole : node.view.isContiguous = true) :
    (found.draft source).Derived g' where
  plain := ⟨found.equalities, rfl⟩
  rank_eq := by simp [Found.Reshape.draft, reshaped]
  wellFormed _ := View.contiguous_wellFormed _
  laid _ := ⟨_, rfl⟩
  scalar := nofun
  payload := nofun
  source _ := ⟨source, node, rfl, hbehind, hwhole⟩

/-- An operand that is no whole storage is laid out first. -/
theorem reshape_changes (t : Tensor) (target : List ReshapeEntry) :
    Changes Draft.Derived recordable g ((reshape t target).perform g).2 := by
  rcases reshape_cases t target with ⟨fault, h⟩ | ⟨found, ⟨hwhole, h⟩ | ⟨first, h⟩⟩
  · rw [h]
  · rw [h]
    exact .single (.append (reshaped_derived found found.behind hwhole)
      (inputs_ok (.cons found.behind .nil)))
  · rw [h]
    have hbehind := g.append_made_behind (first.draft []) [first.node.id]
    have hlaid : (g.made (first.draft []) [first.node.id]).view.isContiguous = true :=
      View.isContiguous_settle first.lengths g.size
    exact .head (.append (pointwise_derived rfl first []) (inputs_ok (.cons first.behind .nil)))
      (.single (.append (reshaped_derived found hbehind hlaid) (inputs_ok (.cons hbehind .nil))))

/-- A relabelling records equalities on the node of its operand. -/
theorem realize_changes (t : Tensor) (shape : Shape) :
    Changes Draft.Derived (fun _ => True) g ((realize t shape).perform g).2 := by
  rcases realize_cases t shape with ⟨fault, h⟩ | ⟨found, h⟩
  · rw [h]
  · rw [h]
    exact .single (.record found.behind.mem trivial)

end Build

/-! ## Commands -/

section

variable [Arithmetic] {recordable : List Equality → Prop}

open ShapeGraph.Graph (Changes)
open Build

/-- The command gives a tensor another shape. -/
def Command.Relabels : Command → Prop
  | realize _ _ => True
  | _ => False

/-- **All commands but a relabelling append** what they derive, and do nothing else. -/
theorem Command.appends {command : Command} (hcommand : ¬ command.Relabels)
    (handles : List Tensor) :
    Changes Draft.Derived recordable g ((command.step handles).perform g).2 := by
  cases command with
  | newTensor name shape => exact newTensor_changes name shape
  | constant value => exact constant_changes value
  | addFunction name inputs shape payload sizes =>
      exact left_of_operands .refl fun tensors =>
        addFunction_changes name tensors shape payload sizes
  | realize t shape => exact absurd trivial hcommand
  | slice t specs => exact left_of_operand .refl fun t _ => slice_changes t specs
  | permute t axes => exact left_of_operand .refl fun t _ => permute_changes t axes
  | reshape t target => exact left_of_operand .refl fun t _ => reshape_changes t target
  | expand t axis dim => exact left_of_operand .refl fun t _ => expand_changes t axis dim
  | expandTo t target => exact left_of_operand .refl fun t _ => expandTo_changes t target
  | concat a b axis =>
      exact left_of_operand .refl fun a _ => left_of_operand .refl fun b _ =>
        concat_changes a b axis
  | contiguous t =>
      exact left_of_operand .refl fun t _ => pointwise_changes .contiguous rfl t
  | unary op t =>
      exact left_of_operand .refl fun t _ => pointwise_changes (.unary op) rfl t
  | binary op a b =>
      exact left_of_operand .refl fun a _ => left_of_operand .refl fun b _ => binary_changes op a b
  | scalar op t value => exact left_of_operand .refl fun t _ => scalar_changes op t value
  | reduce op t axis => exact left_of_operand .refl fun t _ => reduce_changes op t axis
  | softmax t axis => exact left_of_operand .refl fun t _ => softmax_changes t axis
  | matmul a b =>
      exact left_of_operand .refl fun a _ => left_of_operand .refl fun b _ => matmul_changes a b
  | arange like axis =>
      exact left_of_operand .refl fun t _ => left_of_read .refl fun _ _ =>
        addFunction_changes _ _ _ _ _
  | causalMask like axis =>
      exact left_of_operand .refl fun t _ => left_of_read .refl fun _ _ =>
        addFunction_changes _ _ _ _ _

/-- **Every command** appends what it derives, or records equalities on a node that is there. -/
theorem Command.changes (command : Command) (handles : List Tensor) :
    Changes Draft.Derived (fun _ => True) g ((command.step handles).perform g).2 := by
  by_cases hcommand : command.Relabels
  · cases command with
    | realize t shape => exact left_of_operand .refl fun t _ => realize_changes t shape
    | _ => exact hcommand.elim
  · exact command.appends hcommand handles

end

end ShapeGraph
