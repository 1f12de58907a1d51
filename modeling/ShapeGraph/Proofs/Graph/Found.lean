import ShapeGraph.Proofs.Graph.Change
import ShapeGraph.Proofs.Graph.Operand

/-!
# What a call has found

An operation that derives a node reads the graph, and fails or has found all that the node is
made of.  What it finds is a structure of its own for each operation, whose fields say where
they are from.  Whatever is known of the node of an operation is known by that structure.

* `Found.Operand`, `Found.Operands` — one operand or two, and their lengths;
* `Found.Leaf` and the structures after it — what an operation finds, and the draft that it
  makes of it;
* `Build.Derives` — a call fails, or appends the draft of what it has found;
* `Build.newTensor_derives` and the lemmas after it — so does each operation.
-/

namespace ShapeGraph

open ShapeGraph.Numeric (Arithmetic Number)

/-! ## Readings -/

/-- A length is found at an axis if there is one. -/
@[simp] theorem lengthAt_eq_ok {lengths : List Size} {axis : Nat} {operation : String}
    {size : Size} : lengthAt lengths axis operation = .ok size ↔ lengths[axis]? = some size := by
  unfold lengthAt Axis.outOfBounds
  cases lengths[axis]? <;> simp

/-- Two shapes pass the comparison of ranks if they have as many axes. -/
theorem sameRank_eq_ok {operation : String} {a b : Shape} :
    Shape.sameRank operation a b = .ok () ↔ a.length = b.length := by
  simp [Shape.sameRank]

/-- A shape passes the check if its rank is within the limit, and is returned as it is. -/
theorem check_eq_ok {shape checked : Shape} : shape.check = .ok checked ↔
    shape.length ≤ Shape.maxRank ∧ shape = checked := by
  simp [Shape.check]

/-- A dimension is found at an axis if there is one. -/
theorem dimAt_eq_ok {shape : Shape} {axis : Nat} {dim : Dimension} :
    shape.dimAt (.ofNat axis) = .ok dim ↔ shape[axis]? = some dim := by
  unfold Shape.dimAt
  simp only [Number.index?_ofNat, Option.bind_some]
  cases shape[axis]? <;> simp

namespace Found

/-! ## Leaves -/

/-- What an input is made of. -/
structure Leaf (g : Graph) (shape : Shape) where
  sizes : List Size
  rank_le : shape.length ≤ Shape.maxRank
  sizes_eq : leafSizes g.size 0 shape = .ok sizes
  rank_eq : (View.contiguous sizes).rank = shape.length

def Leaf.draft {g : Graph} {shape : Shape} (found : Leaf g shape) (name : String) : Draft :=
  ⟨.input, shape, .contiguous found.sizes, [], [], some name, none, []⟩

/-- A constant is made of its value alone. -/
def constant (value : Number) : Draft :=
  ⟨.constant, [], .contiguous [], [], [("value", .number value)], none, none, []⟩

/-- What a host computation is made of, whose sizes may be declared. -/
structure Function (g : Graph) (tensors : List Tensor) (shape : Shape)
    (declared : Option (List (Option Quantity))) where
  nodes : List Node
  sizes : List Size
  equalities : List Equality
  nodes_eq : tensors.mapM (g.check "addFunction") = .ok nodes
  rank_le : shape.length ≤ Shape.maxRank
  count_eq : countSizes shape declared = .ok ()
  sizes_eq : declaredSizes g.size 0 shape (declared.getD []) = .ok (sizes, equalities)
  rank_eq : (View.contiguous sizes).rank = shape.length

def Function.draft {g : Graph} {tensors : List Tensor} {shape : Shape}
    {declared : Option (List (Option Quantity))} (found : Function g tensors shape declared)
    (name : String) (payload : Payload) : Draft :=
  ⟨.function, shape, .contiguous found.sizes, tensors.map .tensor, [], some name, some payload,
    found.equalities.map Equality.pending⟩

/-! ## One operand -/

section

variable [Arithmetic] (g : Graph)

/-- The node of an operand, and its lengths. -/
structure Operand (operation : String) (t : Tensor) where
  node : Node
  lengths : List Size
  node_eq : g.check operation t = .ok node
  lengths_eq : node.view.lengths = .ok lengths

variable {g} in
/-- The node of an operand is the one behind its handle. -/
theorem Operand.behind {operation : String} {t : Tensor} (found : Operand g operation t) :
    g.Behind t found.node :=
  Graph.check_eq_ok.mp found.node_eq

/-- What a node is made of that has the shape and the lengths of its operand. -/
structure Pointwise (kind : OpKind) (t : Tensor) extends Operand g kind.name t where
  rank_eq : (View.contiguous lengths).rank = t.shape.length

/-- What a softmax is made of. -/
structure Softmax (t : Tensor) (axis : Number) extends Pointwise g .softmax t where
  position : Nat
  position_eq : Axis.position OpKind.softmax.name axis t.rank = .ok position

/-- What a reduction is made of. -/
structure Reduction (op : ReduceOp) (t : Tensor) (axis : Number) extends
    Operand g (OpKind.reduce op).name t where
  position : Nat
  position_eq : Axis.position (OpKind.reduce op).name axis t.rank = .ok position
  rank_eq : (View.contiguous (Axis.removeAt lengths position)).rank =
    (Axis.removeAt t.shape position).length

/-- What a slice is made of. -/
structure Slice (t : Tensor) (specs : List RangeSpec) extends Operand g "slice" t where
  mapping : SliceMapping
  view : View
  mapping_eq : mapSlice t.shape specs (lengths.map some) defaultSentinel = .ok mapping
  view_eq : node.view.slice mapping.spans = .ok view
  rank_eq : view.rank = mapping.shape.length

/-- What a broadcast to a target shape is made of. -/
structure Broadcast (t : Tensor) (target : Shape) extends Operand g "expandTo" t where
  aligned : View
  view : View
  equalities : List Equality
  not_lower : ¬ target.length < t.rank
  rank_le : target.length ≤ Shape.maxRank
  aligned_eq : alignAxes target (target.length - t.rank) 0 lengths node.view =
    .ok (aligned, equalities)
  view_eq : leadAxes target (target.length - t.rank) aligned = .ok view
  rank_eq : view.rank = target.length

end

/-- What a permutation is made of. -/
structure Permutation (g : Graph) (t : Tensor) (axes : List Number) where
  node : Node
  positions : List Nat
  shape : Shape
  view : View
  node_eq : g.check "permute" t = .ok node
  positions_eq : Axis.permutation (.ofNat t.rank) axes = .ok positions
  shape_eq : Axis.pick t.shape (positions.map .ofNat) = .ok shape
  view_eq : node.view.permute (positions.map .ofNat) = .ok view
  rank_eq : view.rank = shape.length

/-- What an expansion by one axis is made of. -/
structure Expansion (g : Graph) (t : Tensor) (axis : Number) (dim : Dimension) where
  node : Node
  position : Nat
  size : Size
  view : View
  node_eq : g.check "expand" t = .ok node
  position_eq : Axis.position "expand" axis (t.rank + 1) = .ok position
  size_eq : dim.size? = .ok (some size)
  view_eq : node.view.expand (.ofNat position) (.size size) = .ok view
  rank_eq : view.rank = (Axis.insertAt t.shape position dim).length

section

variable [Arithmetic] {g : Graph} {t : Tensor}

def Pointwise.draft {kind : OpKind} (found : Pointwise g kind t) (attributes : Entries Value) :
    Draft :=
  ⟨kind, t.shape, .contiguous found.lengths, [.tensor t], attributes, none, none, []⟩

def Softmax.draft {axis : Number} (found : Softmax g t axis) : Draft :=
  found.toPointwise.draft [("axis", .number (.ofNat found.position))]

def Reduction.draft {op : ReduceOp} {axis : Number} (found : Reduction g op t axis) : Draft :=
  ⟨.reduce op, Axis.removeAt t.shape found.position,
    .contiguous (Axis.removeAt found.lengths found.position), [.tensor t],
    [("axis", .number (.ofNat found.position))], none, none, []⟩

def Slice.draft {specs : List RangeSpec} (found : Slice g t specs) : Draft :=
  ⟨.slice, found.mapping.shape, found.view, [.tensor t],
    [("ranges", .list (found.mapping.spans.map fun span => .text span.text))], none, none, []⟩

def Broadcast.draft {target : Shape} (found : Broadcast g t target) : Draft :=
  ⟨.expand, target, found.view, [.tensor t], [("target", .text target.text)], none, none,
    found.equalities.map Equality.pending⟩

end

def Permutation.draft {g : Graph} {t : Tensor} {axes : List Number}
    (found : Permutation g t axes) : Draft :=
  ⟨.permute, found.shape, found.view, [.tensor t],
    [("axes", .list ((found.positions.map Number.ofNat).map .number))], none, none, []⟩

def Expansion.draft {g : Graph} {t : Tensor} {axis : Number} {dim : Dimension}
    (found : Expansion g t axis dim) : Draft :=
  ⟨.expand, Axis.insertAt t.shape found.position dim, found.view, [.tensor t],
    [("axis", .number (.ofNat found.position))], none, none, []⟩

/-! ## Reshaping and relabelling -/

end Found

/-- The node of a reshape, on an input whose sizes are the lengths that the
target was derived from. -/
def reshaped (source : Tensor) (target : List ReshapeEntry) (axes : List (Dimension × Size))
    (equalities : List Equality) : Draft where
  kind := .reshape
  shape := axes.map (·.1)
  view := .contiguous (axes.map (·.2))
  inputs := [.tensor source]
  attributes := [("target", .list (target.map fun entry => .text entry.text))]
  name := none
  payload := none
  pending := equalities.map Equality.pending

/-- The plan of a reshape never fails once its axes are derived. -/
theorem reshape_plan (source : Tensor) (target : List ReshapeEntry)
    (axes : List (Dimension × Size)) (equalities : List Equality) :
    (do
      let draft ← Draft.start .reshape (axes.map (·.1)) (.contiguous (axes.map (·.2)))
      return ((draft.ofTensors [source]).relying equalities).setAttribute "target"
        (.list (target.map fun entry => .text entry.text)) : Except Fault Draft) =
      .ok (reshaped source target axes equalities) := by
  simp only [bind_eq_ok, pure_eq_ok, Draft.start_eq_ok]
  exact ⟨_, ⟨by simp, rfl⟩, Draft.setAttribute_of_ne (by decide) _⟩

namespace Found

/-- What a reshape is made of, on a source that has the lengths of the operand. -/
structure Reshape [Arithmetic] (g : Graph) (t : Tensor) (target : List ReshapeEntry) extends
    Operand g "reshape" t where
  axes : List (Dimension × Size)
  equalities : List Equality
  axes_eq : targetAxes t.shape (Size.pinned lengths) 0 target = .ok axes
  equalities_eq : requireEqual "reshape" "element count" (Size.product (Size.pinned lengths))
    (Size.product (axes.map (·.2))) = .ok equalities

def Reshape.draft [Arithmetic] {g : Graph} {t : Tensor} {target : List ReshapeEntry}
    (found : Reshape g t target) (source : Tensor) : Draft :=
  reshaped source target found.axes found.equalities

/-- What another shape for a tensor relies on. -/
structure Relabelling [Arithmetic] (g : Graph) (t : Tensor) (shape : Shape) extends
    Operand g "realize" t where
  equalities : List Equality
  rank_eq : shape.length = t.rank
  rank_le : shape.length ≤ Shape.maxRank
  equalities_eq : relabelEqualities lengths 0 shape = .ok equalities

/-! ## Two operands -/

section

variable [Arithmetic] (g : Graph)

/-- The nodes of two operands, and their lengths. -/
structure Operands (operation : String) (a b : Tensor) where
  first : Node
  second : Node
  left : List Size
  right : List Size
  first_eq : g.check operation a = .ok first
  second_eq : g.check operation b = .ok second
  left_eq : g.lengths a = .ok left
  right_eq : g.lengths b = .ok right

/-- What a function of the elements of two tensors is made of. -/
structure Pair (op : BinaryOp) (a b : Tensor) extends
    Operands g (OpKind.binary op).name a b where
  equalities : List Equality
  ranks_eq : a.shape.length = b.shape.length
  equalities_eq : pairEqualities (OpKind.binary op).name right 0 left = .ok equalities
  rank_eq : (View.contiguous left).rank = a.shape.length

/-- What a join is made of. -/
structure Join (a b : Tensor) (axis : Number) extends Operands g "concat" a b where
  position : Nat
  equalities : List Equality
  first_dim : Dimension
  second_dim : Dimension
  dim : Dimension
  sizes : List Size
  ranks_eq : a.shape.length = b.shape.length
  position_eq : Axis.position "concat" axis a.rank = .ok position
  equalities_eq : joinEqualities position right 0 left = .ok equalities
  first_dim_eq : a.shape[position]? = some first_dim
  second_dim_eq : b.shape[position]? = some second_dim
  dim_eq : joinedDimension first_dim second_dim = .ok dim
  sizes_eq : joinedSizes left right position = .ok sizes
  rank_eq : (View.contiguous sizes).rank = (a.shape.set position dim).length

/-- What a matrix product is made of. -/
structure Product (a b : Tensor) extends Operands g "matmul" a b where
  columns : Size
  rows : Size
  inner : List Equality
  batch : List Equality
  dim : Dimension
  width : Size
  ranks : ¬ (a.rank < 2 ∨ (b.rank ≠ 2 ∧ b.rank ≠ a.rank))
  columns_eq : left[a.rank - 1]? = some columns
  rows_eq : right[b.rank - 2]? = some rows
  inner_eq : requireEqual "matmul" "inner dimension" columns rows = .ok inner
  batch_eq : (if b.rank = a.rank then batchEqualities left right 0 (a.rank - 2) else pure []) =
    .ok batch
  dim_eq : b.shape[b.rank - 1]? = some dim
  width_eq : right[b.rank - 1]? = some width
  rank_eq : (View.contiguous (left.dropLast ++ [width])).rank =
    (a.shape.dropLast ++ [dim]).length

end

section

variable [Arithmetic] {g : Graph} {a b : Tensor}

def Pair.draft {op : BinaryOp} (found : Pair g op a b) : Draft :=
  ⟨.binary op, a.shape, .contiguous found.left, [.tensor a, .tensor b], [], none, none,
    found.equalities.map Equality.pending⟩

def Join.draft {axis : Number} (found : Join g a b axis) : Draft :=
  ⟨.concat, a.shape.set found.position found.dim, .contiguous found.sizes,
    [.tensor a, .tensor b], [("axis", .number (.ofNat found.position))], none, none,
    found.equalities.map Equality.pending⟩

def Product.draft (found : Product g a b) : Draft :=
  ⟨.matmul, a.shape.dropLast ++ [found.dim], .contiguous (found.left.dropLast ++ [found.width]),
    [.tensor a, .tensor b], [], none, none,
    (found.inner ++ found.batch).map Equality.pending⟩

end

end Found

/-! ## Calls that derive a node -/

namespace Build

/-- The call fails and leaves the graph alone, or appends the draft of what it has found. -/
def Derives {α : Type} (call : Build Tensor) (g : Graph) (draft : α → Draft) : Prop :=
  (∃ fault, call.perform g = (.error fault, g)) ∨
    ∃ found inputs, (draft found).inputs.mapM (g.inputId (draft found).kind) = .ok inputs ∧
      call.perform g = (.ok (handle g (draft found).shape), g.append (draft found) inputs)

section

variable {α : Type} {call : Build Tensor} {g : Graph} {draft : α → Draft}

/-- A call derives its draft if its plan finds what the draft is made of. -/
theorem derives_of_plan {plan : Graph → Except Fault Draft}
    (h : ∀ derived, plan g = .ok derived → ∃ found, draft found = derived) :
    (derive plan).Derives g draft := by
  rw [Derives, perform_derive]
  cases hplanned : planned plan g with
  | error fault => exact .inl ⟨fault, rfl⟩
  | ok result =>
      obtain ⟨derived, inputs⟩ := result
      obtain ⟨hplan, hinputs⟩ := planned_eq_ok.mp hplanned
      obtain ⟨found, rfl⟩ := h derived hplan
      exact .inr ⟨found, inputs, hinputs, rfl⟩

/-- A call that succeeds has appended the draft of what it has found. -/
theorem Derives.of_ok (h : call.Derives g draft) {t : Tensor} {g' : Graph}
    (hok : call.perform g = (.ok t, g')) : ∃ found inputs,
      (draft found).inputs.mapM (g.inputId (draft found).kind) = .ok inputs ∧
        t = handle g (draft found).shape ∧ g' = g.append (draft found) inputs := by
  obtain ⟨fault, hperform⟩ | ⟨found, inputs, hinputs, hperform⟩ := h
  · cases hok.symm.trans hperform
  · obtain ⟨ht, hg⟩ := Prod.mk.inj (hok.symm.trans hperform)
    exact ⟨found, inputs, hinputs, Except.ok.inj ht, hg⟩

/-- What holds of a graph holds after the call, if appending what is found keeps it. -/
theorem Derives.left {P : Graph → Prop} (h : call.Derives g draft) (hg : P g)
    (happend : ∀ found inputs, (draft found).inputs.mapM (g.inputId (draft found).kind) =
      .ok inputs → P (g.append (draft found) inputs)) : P (call.perform g).2 := by
  obtain ⟨fault, hperform⟩ | ⟨found, inputs, hinputs, hperform⟩ := h <;> rw [hperform]
  · exact hg
  · exact happend found inputs hinputs

/-- A call that derives a draft has an effect, if the draft is sound. -/
theorem Derives.effect (h : call.Derives g draft)
    (hsound : ∀ found inputs, (draft found).inputs.mapM (g.inputId (draft found).kind) =
      .ok inputs → (draft found).Sound g inputs) :
    Effect g (call.perform g).1 (call.perform g).2 := by
  obtain ⟨fault, hperform⟩ | ⟨found, inputs, hinputs, hperform⟩ := h <;> rw [hperform]
  · exact .refused fault
  · exact .appended (hsound found inputs hinputs)

/-- A call that derives drafts changes the graph by those only. -/
theorem Derives.changes {fit : Graph → Draft → Prop} {recordable : List Equality → Prop}
    (h : call.Derives g draft) (hfit : ∀ found, fit g (draft found)) :
    Graph.Changes fit recordable g (call.perform g).2 :=
  h.left .refl fun found _ hinputs => .single (.append (hfit found) hinputs)

end

variable {g : Graph} {t a b : Tensor}

/-- An input appends the draft of a leaf, whose rank has been checked. -/
theorem newTensor_derives (name : String) (shape : Shape) :
    (newTensor name shape).Derives g fun found : Found.Leaf g shape => found.draft name := by
  refine derives_of_plan fun derived hplan => ?_
  simp only [bind_eq_ok, pure_eq_ok, Draft.start_eq_ok, check_eq_ok] at hplan
  obtain ⟨_, ⟨hle, rfl⟩, sizes, hsizes, _, ⟨hrank, rfl⟩, rfl⟩ := hplan
  exact ⟨⟨sizes, hle, hsizes, hrank⟩, rfl⟩

/-- A constant always appends its draft. -/
theorem constant_derives (value : Number) :
    (constant value).Derives g fun _ : Unit => Found.constant value := by
  refine derives_of_plan fun derived hplan => ?_
  simp only [bind_eq_ok, pure_eq_ok, Draft.start_eq_ok] at hplan
  obtain ⟨_, ⟨_, rfl⟩, rfl⟩ := hplan
  rw [Draft.setAttribute_of_ne (by decide)]
  exact ⟨(), rfl⟩

/-- A function appends the draft of a host computation on inputs that are there. -/
theorem addFunction_derives (name : String) (tensors : List Tensor) (shape : Shape)
    (payload : Payload) (declared : Option (List (Option Quantity))) :
    (addFunction name tensors shape payload declared).Derives g
      fun found : Found.Function g tensors shape declared => found.draft name payload := by
  refine derives_of_plan fun derived hplan => ?_
  simp only [bind_eq_ok, pure_eq_ok, Draft.start_eq_ok, check_eq_ok] at hplan
  obtain ⟨nodes, hnodes, _, ⟨hle, rfl⟩, _, hcount, ⟨sizes, equalities⟩, hsizes, _, ⟨hrank, rfl⟩,
    rfl⟩ := hplan
  exact ⟨⟨nodes, sizes, equalities, hnodes, hle, hcount, hsizes, hrank⟩, rfl⟩

/-- A permutation appends the draft of the permuted view. -/
theorem permute_derives (t : Tensor) (axes : List Number) :
    (permute t axes).Derives g fun found : Found.Permutation g t axes => found.draft := by
  refine derives_of_plan fun derived hplan => ?_
  simp only [bind_eq_ok, pure_eq_ok, Draft.start_eq_ok] at hplan
  obtain ⟨node, hnode, positions, hpositions, shape, hshape, view, hview, _, ⟨hrank, rfl⟩, rfl⟩ :=
    hplan
  rw [Draft.setAttribute_of_ne (by decide)]
  exact ⟨⟨node, positions, shape, view, hnode, hpositions, hshape, hview, hrank⟩, rfl⟩

/-- An expansion along an axis appends the draft of the view with the axis inserted. -/
theorem expand_derives (t : Tensor) (axis : Number) (dim : Dimension) :
    (expand t axis dim).Derives g fun found : Found.Expansion g t axis dim => found.draft := by
  refine derives_of_plan fun derived hplan => ?_
  simp only [bind_eq_ok] at hplan
  obtain ⟨node, hnode, position, hposition, own, hown, hplan⟩ := hplan
  cases own with
  | none => cases hplan
  | some size =>
      simp only [bind_eq_ok, pure_eq_ok, Draft.start_eq_ok] at hplan
      obtain ⟨view, hview, _, ⟨hrank, rfl⟩, rfl⟩ := hplan
      rw [Draft.setAttribute_of_ne (by decide)]
      exact ⟨⟨node, position, size, view, hnode, hposition, hown, hview, hrank⟩, rfl⟩

variable [Arithmetic]

/-- An operation on every element appends a draft with the lengths of its operand. -/
theorem pointwise_derives (kind : OpKind) (t : Tensor) :
    (pointwise kind t).Derives g fun found : Found.Pointwise g kind t => found.draft [] := by
  refine derives_of_plan fun derived hplan => ?_
  simp only [bind_eq_ok, pure_eq_ok, Draft.start_eq_ok] at hplan
  obtain ⟨node, hnode, lengths, hlengths, _, ⟨hrank, rfl⟩, rfl⟩ := hplan
  exact ⟨⟨⟨node, lengths, hnode, hlengths⟩, hrank⟩, rfl⟩

/-- An operation with a number appends such a draft, with the number for an attribute. -/
theorem scalar_derives (op : ScalarOp) (t : Tensor) (value : Number) :
    (scalar op t value).Derives g fun found : Found.Pointwise g (.scalar op) t =>
      found.draft [("value", .number value)] := by
  refine derives_of_plan fun derived hplan => ?_
  simp only [bind_eq_ok, pure_eq_ok, Draft.start_eq_ok] at hplan
  obtain ⟨node, hnode, lengths, hlengths, _, ⟨hrank, rfl⟩, rfl⟩ := hplan
  rw [Draft.setAttribute_of_ne (by decide)]
  exact ⟨⟨⟨node, lengths, hnode, hlengths⟩, hrank⟩, rfl⟩

theorem softmax_derives (t : Tensor) (axis : Number) :
    (softmax t axis).Derives g fun found : Found.Softmax g t axis => found.draft := by
  refine derives_of_plan fun derived hplan => ?_
  simp only [bind_eq_ok, pure_eq_ok, Draft.start_eq_ok] at hplan
  obtain ⟨node, hnode, k, hk, lengths, hlengths, _, ⟨hrank, rfl⟩, rfl⟩ := hplan
  rw [Draft.setAttribute_of_ne (by decide)]
  exact ⟨⟨⟨⟨node, lengths, hnode, hlengths⟩, hrank⟩, k, hk⟩, rfl⟩

/-- A reduction appends the draft of its operand with one axis of size one. -/
theorem reduce_derives (op : ReduceOp) (t : Tensor) (axis : Number) :
    (reduce op t axis).Derives g fun found : Found.Reduction g op t axis => found.draft := by
  refine derives_of_plan fun derived hplan => ?_
  simp only [bind_eq_ok, pure_eq_ok, Draft.start_eq_ok] at hplan
  obtain ⟨node, hnode, k, hk, lengths, hlengths, _, ⟨hrank, rfl⟩, rfl⟩ := hplan
  rw [Draft.setAttribute_of_ne (by decide)]
  exact ⟨⟨⟨node, lengths, hnode, hlengths⟩, k, hk, hrank⟩, rfl⟩

/-- A slice appends the draft of the view that its spans leave. -/
theorem slice_derives (t : Tensor) (specs : List RangeSpec) :
    (slice t specs).Derives g fun found : Found.Slice g t specs => found.draft := by
  refine derives_of_plan fun derived hplan => ?_
  simp only [bind_eq_ok, pure_eq_ok, Draft.start_eq_ok] at hplan
  obtain ⟨node, hnode, lengths, hlengths, mapping, hmapping, view, hview, _, ⟨hrank, rfl⟩, rfl⟩ :=
    hplan
  rw [Draft.setAttribute_of_ne (by decide)]
  exact ⟨⟨⟨node, lengths, hnode, hlengths⟩, mapping, view, hmapping, hview, hrank⟩, rfl⟩

/-- An expansion to a shape appends the draft of the view that is aligned with it. -/
theorem expandTo_derives (t : Tensor) (target : Shape) :
    (expandTo t target).Derives g fun found : Found.Broadcast g t target => found.draft := by
  refine derives_of_plan fun derived hplan => ?_
  simp only [bind_eq_ok, pure_eq_ok, ite_error_eq_ok, Draft.start_eq_ok, check_eq_ok] at hplan
  obtain ⟨node, hnode, hlower, lengths, hlengths, ⟨aligned, equalities⟩, haligned, view, hview, _,
    ⟨hle, rfl⟩, _, ⟨hrank, rfl⟩, rfl⟩ := hplan
  rw [Draft.setAttribute_of_ne (by decide)]
  exact ⟨⟨⟨node, lengths, hnode, hlengths⟩, aligned, view, equalities, hlower, hle, haligned, hview,
    hrank⟩, rfl⟩

/-- An operation on two tensors appends a draft that relies on equal axes. -/
theorem binary_derives (op : BinaryOp) (a b : Tensor) :
    (binary op a b).Derives g fun found : Found.Pair g op a b => found.draft := by
  refine derives_of_plan fun derived hplan => ?_
  simp only [bind_eq_ok, pure_eq_ok, Draft.start_eq_ok] at hplan
  obtain ⟨x, hx, y, hy, _, hranks, left, hleft, right, hright, equalities, hequalities, _,
    ⟨hrank, rfl⟩, rfl⟩ := hplan
  exact ⟨⟨⟨x, y, left, right, hx, hy, hleft, hright⟩, equalities, sameRank_eq_ok.mp hranks,
    hequalities, hrank⟩, rfl⟩

/-- A concatenation appends a draft of the joined sizes. -/
theorem concat_derives (a b : Tensor) (axis : Number) :
    (concat a b axis).Derives g fun found : Found.Join g a b axis => found.draft := by
  refine derives_of_plan fun derived hplan => ?_
  simp only [bind_eq_ok, pure_eq_ok, Draft.start_eq_ok, dimAt_eq_ok] at hplan
  obtain ⟨x, hx, y, hy, _, hranks, k, hk, left, hleft, right, hright, equalities, hequalities,
    first, hfirst, second, hsecond, dim, hdim, sizes, hsizes, _, ⟨hrank, rfl⟩, rfl⟩ := hplan
  exact ⟨⟨⟨x, y, left, right, hx, hy, hleft, hright⟩, k, equalities, first, second, dim, sizes,
    sameRank_eq_ok.mp hranks, hk, hequalities, hfirst, hsecond, hdim, hsizes, hrank⟩, rfl⟩

/-- A product of matrices appends a draft of the batch axes and the two outer ones. -/
theorem matmul_derives (a b : Tensor) :
    (matmul a b).Derives g fun found : Found.Product g a b => found.draft := by
  refine derives_of_plan fun derived hplan => ?_
  simp only [ite_bind_eq_ok, bind_eq_ok, pure_eq_ok, ite_error_eq_ok, Draft.start_eq_ok,
    lengthAt_eq_ok, dimAt_eq_ok] at hplan
  obtain ⟨x, hx, y, hy, hranks, left, hleft, right, hright, columns, hcolumns, rows, hrows, inner,
    hinner, batch, hbatch, dim, hdim, width, hwidth, _, ⟨hrank, rfl⟩, rfl⟩ := hplan
  exact ⟨⟨⟨x, y, left, right, hx, hy, hleft, hright⟩, columns, rows, inner, batch, dim, width,
    hranks, hcolumns, hrows, hinner, hbatch, hdim, hwidth, hrank⟩, rfl⟩

/-- A reshape that has found what it needs goes on without its plan. -/
theorem reshape_found (t : Tensor) (target : List ReshapeEntry) :
    (∃ fault, (reshape t target).perform g = (.error fault, g)) ∨
      ∃ found : Found.Reshape g t target, (reshape t target).perform g =
        (if found.node.view.isContiguous = true then derive fun _ => .ok (found.draft t)
          else contiguous t >>= fun source =>
            derive fun _ => .ok (found.draft source)).perform g := by
  refine (read_cases _ _ g).imp_right fun ⟨⟨whole, axes, equalities⟩, hread, hperform⟩ => ?_
  simp only [bind_eq_ok, pure_eq_ok, Prod.mk.injEq] at hread
  obtain ⟨node, hnode, lengths, hlengths, _, haxes, _, hequalities, rfl, rfl, rfl⟩ := hread
  refine ⟨⟨⟨node, lengths, hnode, hlengths⟩, _, _, haxes, hequalities⟩, hperform.trans ?_⟩
  simp only [pure_bind, Found.Reshape.draft, ← reshape_plan]

/-- A reshape fails, or appends its node, or lays its operand out before.  Once it has found
what it needs nothing can fail but for the layout. -/
theorem reshape_cases (t : Tensor) (target : List ReshapeEntry) :
    (∃ fault, (reshape t target).perform g = (.error fault, g)) ∨
      ∃ found : Found.Reshape g t target,
        (found.node.view.isContiguous = true ∧ (reshape t target).perform g =
          (.ok (handle g (found.draft t).shape), g.append (found.draft t) [found.node.id])) ∨
        ∃ first : Found.Pointwise g .contiguous t, (reshape t target).perform g =
          (.ok (handle (g.append (first.draft []) [first.node.id])
              (found.draft (handle g t.shape)).shape),
            (g.append (first.draft []) [first.node.id]).append
              (found.draft (handle g t.shape)) [g.size]) := by
  rcases reshape_found t target with hfault | ⟨found, hperform⟩
  · exact .inl hfault
  have hderive : ∀ (g : Graph) (source : Tensor) (held : Node), g.Behind source held →
      (derive fun _ => .ok (found.draft source)).perform g =
        (.ok (handle g (found.draft source).shape), g.append (found.draft source) [held.id]) :=
    fun g source held hheld => perform_derive_ok rfl (inputs_ok (.cons hheld .nil))
  by_cases hwhole : found.node.view.isContiguous = true
  · rw [if_pos hwhole, hderive g t _ found.behind] at hperform
    exact .inr ⟨found, .inl ⟨hwhole, hperform⟩⟩
  · rw [if_neg hwhole, perform_bind, contiguous] at hperform
    rcases pointwise_derives .contiguous t with ⟨fault, hfirst⟩ | ⟨first, inputs, hinputs, hfirst⟩
    · rw [hfirst] at hperform
      exact .inl ⟨fault, hperform⟩
    · obtain rfl := inputs_eq (.cons first.behind .nil) hinputs
      rw [hfirst] at hperform
      refine .inr ⟨found, .inr ⟨first, hperform.trans ?_⟩⟩
      exact hderive _ _ _ (g.append_made_behind (first.draft []) [first.node.id])

/-- A relabelling fails, or records what it relies on. -/
theorem realize_cases (t : Tensor) (shape : Shape) :
    (∃ fault, (realize t shape).perform g = (.error fault, g)) ∨
      ∃ found : Found.Relabelling g t shape, (realize t shape).perform g =
        (.ok ⟨.ofNat found.node.id, shape, .ofNat g.id⟩,
          g.relying found.node.id found.equalities
            ("realize %" ++ found.node.id.repr ++ " as " ++ shape.text)) := by
  refine (read_cases _ _ g).imp_right fun ⟨⟨node, equalities⟩, hread, hperform⟩ => ?_
  simp only [bind_eq_ok, pure_eq_ok, ite_error_eq_ok, not_not, check_eq_ok, Prod.mk.injEq] at hread
  obtain ⟨_, hnode, hrank, lengths, hlengths, _, hequalities, _, ⟨hle, _⟩, rfl, rfl⟩ := hread
  exact ⟨⟨⟨_, lengths, hnode, hlengths⟩, _, hrank, hle, hequalities⟩, hperform⟩

end Build

end ShapeGraph
