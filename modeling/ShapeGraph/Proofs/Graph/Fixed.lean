import ShapeGraph.Proofs.Graph.Derivation
import ShapeGraph.Proofs.Graph.Trace
import ShapeGraph.Proofs.View.Fixed

/-!
# Graphs that are fixed

A session that is given numbers only, and dimensions that are constant or say nothing,
puts together nothing but numbers.  All comparisons are then decided as the operations
go, so no equality is recorded, and all views are fixed.

* `Dimension.Fixed`, `RangeSpec.Fixed`, `Command.Fixed` — what may be given;
* `Graph.Fixed` — the invariant: nothing is recorded, all views are fixed, and no node runs
  a computation;
* `Command.keeps_fixed` — one command keeps a graph fixed;
* `Session.run_fixed` — any number of commands do.
-/

namespace ShapeGraph

open ShapeGraph.Numeric (Arithmetic Number Unbounded)

/-! ## What is given -/

/-- A dimension made of a number that callers give. -/
def Dimension.Fixed (dim : Dimension) : Prop :=
  ∃ size, Dimension.ofNumber size = .ok dim

/-- A constant dimension has a size, which is a count. -/
theorem Dimension.Fixed.size_eq_ok {dim : Dimension} (h : dim.Fixed) {own : Option Size}
    (hown : dim.size? = .ok own) : ∃ size, own = some size ∧ size.IsCount := by
  obtain ⟨v, hv⟩ := h
  simp only [ofNumber, ite_ok_eq_ok, Bool.and_eq_true] at hv
  obtain ⟨⟨hsafe, hsign⟩, rfl⟩ := hv
  obtain ⟨n, rfl⟩ := Number.eq_int_of_isSafe hsafe
  have hnonneg : 0 ≤ n := by
    simpa [show (0 : Number) = .int 0 from rfl] using hsign
  simp only [size?, Size.ofNumber, bind_eq_ok, ite_ok_eq_ok, pure_eq_ok] at hown
  obtain ⟨_, ⟨_, rfl⟩, rfl⟩ := hown
  exact ⟨_, rfl, Size.isCount_of_nonneg hnonneg⟩

/-- The sizes of dimensions that are constant or say nothing are counts. -/
theorem Shape.Sizes.isCount {shape : Shape} (h : ∀ dim ∈ shape, dim.Fixed ∨ dim = .anonymous)
    {size : Size} (hsize : shape.Sizes size) : size.IsCount := by
  obtain ⟨dim, hdim, hown⟩ := hsize
  rcases h dim hdim with hfixed | rfl
  · obtain ⟨own, hsome, hcount⟩ := hfixed.size_eq_ok hown
    obtain rfl := Option.some.inj hsome
    exact hcount
  · cases hown

/-- An integer.  A bare number is checked to be one where it is used. -/
def Quantity.Fixed : Quantity → Prop
  | number _ => True
  | size s => s.IsInt

/-- The value of a bound, if it has one, is an integer. -/
def Bound.Fixed : Bound → Prop
  | included value => value.Fixed
  | excluded value => value.Fixed
  | unbounded => True

/-- The bounds of a range are integers. -/
def RangeSpec.Fixed (spec : RangeSpec) : Prop :=
  spec.bounds.1.Fixed ∧ spec.bounds.2.Fixed

/-- Every dimension that is given is constant, or says nothing where a tensor is relabelled
or expanded to a shape; every bound of a slice is an integer; and nothing depends on a host
computation or on a length at run time. -/
def Command.Fixed : Command → Prop
  | newTensor _ shape => ∀ dim ∈ shape, dim.Fixed
  | realize _ shape => ∀ dim ∈ shape, dim.Fixed ∨ dim = .anonymous
  | slice _ specs => ∀ spec ∈ specs, spec.Fixed
  | expand _ _ dim => dim.Fixed
  | expandTo _ target => ∀ dim ∈ target, dim.Fixed ∨ dim = .anonymous
  | constant _ | permute _ _ | reshape _ _ | concat _ _ _ | contiguous _ | unary _ _
  | binary _ _ _ | scalar _ _ _ | reduce _ _ _ | softmax _ _ | matmul _ _ => True
  | addFunction .. | arange .. | causalMask .. => False

/-- An integer is a size of integers. -/
theorem RangeSpec.Fixed.integral {spec : RangeSpec} (h : spec.Fixed) : spec.Integral := by
  have hquantity : ∀ {q : Quantity}, q.Fixed → q.Integral := by
    rintro (v | s) hq
    · trivial
    · exact Size.IsInt.integral hq
  have hbound : ∀ {bound : Bound}, bound.Fixed → bound.Integral := by
    rintro (value | value | _) hb
    · exact hquantity hb
    · exact hquantity hb
    · trivial
  exact ⟨hbound h.1, hbound h.2⟩

/-- Integers for all sizes are sizes made of integers. -/
theorem Command.Fixed.integral {command : Command} (h : command.Fixed) : command.Integral := by
  cases command with
  | slice t specs => exact fun spec hspec => (h spec hspec).integral
  | addFunction => exact h.elim
  | _ => trivial

/-! ## Spans -/

/-- A fixed quantity stands for an integer, if it stands for a size. -/
theorem Quantity.Fixed.toSize_isInt {q : Quantity} (hq : q.Fixed) {size : Size}
    (h : q.toSize = .ok size) : size.IsInt := by
  cases q with
  | number v => exact Size.isInt_of_ofNumber h
  | size s =>
      obtain rfl := Except.ok.inj h
      exact hq

section

variable [Arithmetic] [Unbounded]

/-- A span starts at an integer if its lower bound is fixed. -/
theorem Bound.Fixed.start_isInt {bound : Bound} (hb : bound.Fixed) {size : Size}
    (h : bound.start = .ok size) : size.IsInt := by
  cases bound with
  | included value => exact Quantity.Fixed.toSize_isInt hb h
  | excluded value =>
      simp only [start, bind_eq_ok, pure_eq_ok] at h
      obtain ⟨s, hs, rfl⟩ := h
      exact (Quantity.Fixed.toSize_isInt hb hs).add Size.isCount_one.isInt
  | unbounded =>
      obtain rfl := Except.ok.inj h
      exact ⟨0, rfl⟩

/-- A span stops at an integer if its upper bound is fixed and the axis has an integer length.
-/
theorem Bound.Fixed.stop_isInt {bound : Bound} (hb : bound.Fixed) {length : Size}
    (hlength : length.IsInt) {sentinel : Number} {size : Size}
    (h : bound.stop (some length) sentinel = .ok size) : size.IsInt := by
  cases bound with
  | included value =>
      simp only [stop, bind_eq_ok, pure_eq_ok] at h
      obtain ⟨s, hs, rfl⟩ := h
      exact (Quantity.Fixed.toSize_isInt hb hs).add Size.isCount_one.isInt
  | excluded value => exact Quantity.Fixed.toSize_isInt hb h
  | unbounded =>
      obtain rfl := Except.ok.inj h
      exact hlength

/-- The spans of a slice by integers are pairs of integers, where all lengths are known. -/
theorem mapAxes_literal {sentinel : Number} {dims : Shape} {specs : List RangeSpec}
    {lengths : List Size} {mapping : SliceMapping} (hcount : lengths.length = dims.length)
    (hspecs : ∀ spec ∈ specs, spec.Fixed) (hlengths : ∀ s ∈ lengths, s.IsCount)
    (h : mapAxes sentinel dims specs (lengths.map some) = .ok mapping) :
    ∀ span ∈ mapping.spans, span.Literal := by
  intro span hspan
  obtain ⟨k, hk⟩ := List.mem_iff_getElem?.mp hspan
  obtain ⟨hspans, hmapped⟩ := mapAxes_at hcount h k
  have hlt : k < lengths.length := hspans ▸ (List.getElem?_eq_some_iff.mp hk).1
  obtain ⟨held, hheld, hmeant⟩ := hmapped _ (List.getElem?_eq_getElem hlt)
  obtain rfl := Option.some.inj (hk.symm.trans hheld)
  have hspec : (specs[k]?.getD .full).Fixed := by
    cases hget : specs[k]? with
    | none => exact ⟨trivial, trivial⟩
    | some spec => exact hspecs spec (List.mem_of_getElem? hget)
  simp only [RangeSpec.span, bind_eq_ok, pure_eq_ok] at hmeant
  obtain ⟨start, hstart, stop, hstop, rfl⟩ := hmeant
  have hlength := (hlengths _ (List.getElem_mem hlt)).isInt
  exact ⟨hspec.1.start_isInt hstart, hspec.2.stop_isInt hlength hstop⟩

end

/-! ## Sizes -/

/-- The sizes of an input are those of its dimensions. -/
theorem leafSizes_isCount {id axis : Nat} {shape : Shape} (hshape : ∀ dim ∈ shape, dim.Fixed)
    {sizes : List Size} (h : leafSizes id axis shape = .ok sizes) : ∀ s ∈ sizes, s.IsCount := by
  induction shape generalizing axis sizes with
  | nil =>
      obtain rfl := Except.ok.inj h
      exact List.forall_mem_nil _
  | cons dim dims ih =>
      obtain ⟨hdim, hdims⟩ := List.forall_mem_cons.mp hshape
      simp only [leafSizes, bind_eq_ok, pure_eq_ok] at h
      obtain ⟨own, hown, rest, hrest, rfl⟩ := h
      obtain ⟨size, rfl, hsize⟩ := hdim.size_eq_ok hown
      exact List.forall_mem_cons.mpr ⟨hsize, ih hdims hrest⟩

/-- Counts that are joined along an axis are counts, as two of them are added up. -/
theorem joinedSizes_isCount [Arithmetic] [Unbounded] {left right sizes : List Size} {joined : Nat}
    (hleft : ∀ s ∈ left, s.IsCount) (hright : ∀ s ∈ right, s.IsCount)
    (h : joinedSizes left right joined = .ok sizes) : ∀ s ∈ sizes, s.IsCount := by
  unfold joinedSizes at h
  split at h
  · next length hlength =>
    simp only [bind_eq_ok, pure_eq_ok, lengthAt_eq_ok] at h
    obtain ⟨other, hother, rfl⟩ := h
    intro s hs
    rcases List.mem_or_eq_of_mem_set hs with hs | rfl
    · exact hleft s hs
    · exact (hleft _ (List.mem_of_getElem? hlength)).add (hright _ (List.mem_of_getElem? hother))
  · obtain rfl := Except.ok.inj h
    exact hleft

/-- Sizes that are known leave nothing to be recorded. -/
theorem eq_nil_of_counts {equalities : List Equality}
    (h : ∀ e ∈ equalities, e.left.IsCount ∧ e.right.IsCount ∧ e.Undecided) : equalities = [] := by
  refine List.eq_nil_iff_forall_not_mem.mpr fun e he => ?_
  obtain ⟨⟨m, hm⟩, ⟨n, hn⟩, hundecided⟩ := h e he
  exact hundecided (.ofNat m) (.ofNat n) (by rw [hm]; rfl) (by rw [hn]; rfl)

/-! ## Graphs -/

/-- A draft with a fixed view that relies on nothing and runs no computation. -/
structure Draft.Fixed (draft : Draft) : Prop where
  view : draft.view.Fixed
  pending : draft.pending = []
  kind : draft.kind ≠ .function

/-- Nothing is recorded, all views are fixed, and no node runs a computation. -/
structure Graph.Fixed (g : Graph) : Prop where
  obligations : g.obligations = []
  nodes : ∀ node ∈ g.nodes, node.view.Fixed ∧ node.kind ≠ .function

namespace Graph

variable {g : Graph} {t : Tensor} {node : Node}

/-- A graph without nodes is fixed. -/
theorem empty_fixed (id : Nat) (settings : GraphSettings) : (empty id settings).Fixed :=
  ⟨rfl, List.forall_mem_nil _⟩

/-- A graph stays fixed when a fixed draft is appended. -/
theorem append_fixed (hg : g.Fixed) {draft : Draft} (hdraft : draft.Fixed) (inputs : List Nat) :
    (g.append draft inputs).Fixed := by
  constructor
  · show g.obligations ++ draft.pending.map (Pending.on g.size) = []
    rw [hg.obligations, hdraft.pending]
    rfl
  · rw [append_nodes, List.forall_mem_append, List.forall_mem_singleton]
    exact ⟨hg.nodes, hdraft.view.settle g.size, hdraft.kind⟩

/-- Nothing is recorded of a relabelling that goes by known sizes. -/
theorem relying_fixed (hg : g.Fixed) (id : Nat) (line : String) : (g.relying id [] line).Fixed := by
  refine ⟨?_, hg.nodes⟩
  show g.obligations ++ [] = []
  rw [hg.obligations]
  rfl

/-- The view of a handle that passes the check is fixed. -/
theorem Fixed.view_of_check (hg : g.Fixed) {operation : String}
    (h : g.check operation t = .ok node) : node.view.Fixed :=
  (hg.nodes node (mem_of_check h)).1

variable [Arithmetic] [Unbounded]

/-- The lengths of an operand are counts. -/
theorem Fixed.lengths_isCount (hg : g.Fixed) {lengths : List Size}
    (h : g.lengths t = .ok lengths) : ∀ s ∈ lengths, s.IsCount := by
  simp only [Graph.lengths, Graph.view, bind_eq_ok, pure_eq_ok] at h
  obtain ⟨_, ⟨node, hnode, rfl⟩, hlengths⟩ := h
  exact (hg.view_of_check hnode).lengths_isCount hlengths

end Graph

/-! ## Operations -/

namespace Build

variable {g : Graph} {a b t : Tensor}

/-- Appending fixed drafts only keeps a graph fixed. -/
theorem Derives.fixed {α : Type} {call : Build Tensor} {draft : α → Draft}
    (h : call.Derives g draft) (hg : g.Fixed) (hdraft : ∀ found, (draft found).Fixed) :
    (call.perform g).2.Fixed :=
  h.left hg fun found inputs _ => Graph.append_fixed hg (hdraft found) inputs

/-- An input of constant dimensions keeps the graph fixed. -/
theorem newTensor_fixed (hg : g.Fixed) (name : String) {shape : Shape}
    (hshape : ∀ dim ∈ shape, dim.Fixed) : ((newTensor name shape).perform g).2.Fixed :=
  (newTensor_derives name shape).fixed hg fun found =>
    ⟨View.contiguous_fixed (leafSizes_isCount hshape found.sizes_eq), rfl, nofun⟩

theorem constant_fixed (hg : g.Fixed) (value : Number) :
    ((constant value).perform g).2.Fixed :=
  (constant_derives value).fixed hg fun _ =>
    ⟨View.contiguous_fixed (List.forall_mem_nil _), rfl, nofun⟩

theorem permute_fixed (hg : g.Fixed) (t : Tensor) (axes : List Number) :
    ((permute t axes).perform g).2.Fixed :=
  (permute_derives t axes).fixed hg fun found =>
    ⟨View.permute_fixed (hg.view_of_check found.node_eq) found.view_eq, rfl, nofun⟩

/-- An expansion by a constant dimension keeps the graph fixed. -/
theorem expand_fixed (hg : g.Fixed) (t : Tensor) (axis : Number) {dim : Dimension}
    (hdim : dim.Fixed) : ((expand t axis dim).perform g).2.Fixed := by
  refine (expand_derives t axis dim).fixed hg fun found => ?_
  obtain ⟨size, hown, hsize⟩ := hdim.size_eq_ok found.size_eq
  obtain rfl := Option.some.inj hown
  exact ⟨View.expand_fixed (hg.view_of_check found.node_eq) hsize found.view_eq, rfl, nofun⟩

variable [Arithmetic] [Unbounded]

/-- The lengths of an operand are counts. -/
theorem operand_isCount (hg : g.Fixed) {operation : String} (found : Found.Operand g operation t) :
    ∀ s ∈ found.lengths, s.IsCount :=
  (hg.view_of_check found.node_eq).lengths_isCount found.lengths_eq

/-- The shape of a slice gives each axis a span only where it has the rank of its tensor. -/
theorem slice_fixed (hwell : g.WellFormed) (hg : g.Fixed) (ht : g.Issued t)
    {specs : List RangeSpec} (hspecs : ∀ spec ∈ specs, spec.Fixed) :
    ((slice t specs).perform g).2.Fixed := by
  refine (slice_derives t specs).fixed hg fun found => ?_
  have hop := ht.operand hwell found.node_eq
  have hcount : found.lengths.length = t.shape.length :=
    hop.length_lengths (hop.lengths_ok found.lengths_eq)
  have hmapping := found.mapping_eq
  simp only [mapSlice, ite_error_eq_ok] at hmapping
  have hspans := mapAxes_literal hcount hspecs (operand_isCount hg found.toOperand) hmapping.2
  exact ⟨View.slice_fixed (hg.view_of_check found.node_eq) hspans found.view_eq, rfl, by rintro ⟨⟩⟩

/-- An expansion to a shape keeps the graph fixed, as it has no equality to record: all lengths
are literals. -/
theorem expandTo_fixed (hg : g.Fixed) (t : Tensor) {target : Shape}
    (htarget : ∀ dim ∈ target, dim.Fixed ∨ dim = .anonymous) :
    ((expandTo t target).perform g).2.Fixed := by
  refine (expandTo_derives t target).fixed hg fun found => ?_
  have hnone : found.equalities = [] := eq_nil_of_counts fun e he => by
    obtain ⟨hleft, hright, hundecided⟩ := alignAxes_mem found.aligned_eq e he
    exact ⟨operand_isCount hg found.toOperand _ hleft, hright.isCount htarget, hundecided⟩
  have haligned := alignAxes_keep (P := View.Fixed)
    (fun hv hsize => View.broadcastAxis_fixed hv (hsize.isCount htarget))
    (hg.view_of_check found.node_eq) found.aligned_eq
  have hview := leadAxes_keep (P := View.Fixed)
    (fun hv hsize => View.expand_fixed hv (hsize.isCount htarget)) haligned found.view_eq
  exact ⟨hview, congrArg _ hnone, nofun⟩

/-- A concatenation keeps the graph fixed. -/
theorem concat_fixed (hg : g.Fixed) (a b : Tensor) (axis : Number) :
    ((concat a b axis).perform g).2.Fixed := by
  refine (concat_derives a b axis).fixed hg fun found => ?_
  have hl := hg.lengths_isCount found.left_eq
  have hr := hg.lengths_isCount found.right_eq
  have hnone : found.equalities = [] := eq_nil_of_counts fun e he => by
    obtain ⟨hleft, hright, hundecided⟩ := joinEqualities_mem found.equalities_eq e he
    exact ⟨hl _ hleft, hr _ hright, hundecided⟩
  exact ⟨View.contiguous_fixed (joinedSizes_isCount hl hr found.sizes_eq), congrArg _ hnone, nofun⟩

/-- A draft with the shape and the lengths of a fixed operand is fixed. -/
theorem pointwise_draft_fixed (hg : g.Fixed) {kind : OpKind} (found : Found.Pointwise g kind t)
    (hkind : kind ≠ .function) (attributes : Entries Value) : (found.draft attributes).Fixed :=
  ⟨View.contiguous_fixed (operand_isCount hg found.toOperand), rfl, hkind⟩

theorem pointwise_fixed (hg : g.Fixed) (kind : OpKind) (hkind : kind ≠ .function) (t : Tensor) :
    ((pointwise kind t).perform g).2.Fixed :=
  (pointwise_derives kind t).fixed hg fun found => pointwise_draft_fixed hg found hkind _

theorem scalar_fixed (hg : g.Fixed) (op : ScalarOp) (t : Tensor) (value : Number) :
    ((scalar op t value).perform g).2.Fixed :=
  (scalar_derives op t value).fixed hg fun found => pointwise_draft_fixed hg found nofun _

theorem softmax_fixed (hg : g.Fixed) (t : Tensor) (axis : Number) :
    ((softmax t axis).perform g).2.Fixed :=
  (softmax_derives t axis).fixed hg fun found =>
    pointwise_draft_fixed hg found.toPointwise nofun _

/-- The element counts of a reshape are compared at once. -/
theorem reshape_fixed (hg : g.Fixed) (t : Tensor) (target : List ReshapeEntry) :
    ((reshape t target).perform g).2.Fixed := by
  have hdraft : ∀ (found : Found.Reshape g t target) (source : Tensor),
      (found.draft source).Fixed := by
    intro found source
    have hl := operand_isCount hg found.toOperand
    have haxes := found.axes_eq
    have hequalities := found.equalities_eq
    rw [Size.pinned_of_integral fun s hs => (hl s hs).isInt.integral] at haxes hequalities
    have hsizes : ∀ s ∈ found.axes.map (·.2), s.IsCount := fun s hs =>
      (targetAxes_mem haxes s hs).elim id (hl s)
    have hnone : found.equalities = [] := eq_nil_of_counts fun e he => by
      obtain ⟨rfl, hundecided⟩ := requireEqual_mem hequalities he
      exact ⟨Size.isCount_product hl, Size.isCount_product hsizes, hundecided⟩
    exact ⟨View.contiguous_fixed hsizes, congrArg _ hnone, nofun⟩
  rcases reshape_cases t target with ⟨fault, h⟩ | ⟨found, ⟨_, h⟩ | ⟨first, h⟩⟩ <;> rw [h]
  · exact hg
  · exact Graph.append_fixed hg (hdraft found t) _
  · have hfirst := Graph.append_fixed hg
      (pointwise_draft_fixed hg first (by rintro ⟨⟩) []) [first.node.id]
    exact Graph.append_fixed hfirst (hdraft found _) _

/-- An operation on two tensors keeps the graph fixed, as it compares literals. -/
theorem binary_fixed (hg : g.Fixed) (op : BinaryOp) (a b : Tensor) :
    ((binary op a b).perform g).2.Fixed := by
  refine (binary_derives op a b).fixed hg fun found => ?_
  have hl := hg.lengths_isCount found.left_eq
  have hnone : found.equalities = [] := eq_nil_of_counts fun e he => by
    obtain ⟨hleft, hright, hundecided⟩ := pairEqualities_mem found.equalities_eq e he
    exact ⟨hl _ hleft, hg.lengths_isCount found.right_eq _ hright, hundecided⟩
  exact ⟨View.contiguous_fixed hl, congrArg _ hnone, nofun⟩

theorem reduce_fixed (hg : g.Fixed) (op : ReduceOp) (t : Tensor) (axis : Number) :
    ((reduce op t axis).perform g).2.Fixed := by
  refine (reduce_derives op t axis).fixed hg fun found => ?_
  have hleft : ∀ s ∈ Axis.removeAt found.lengths found.position, s.IsCount := fun s hs =>
    operand_isCount hg found.toOperand s (Axis.mem_of_mem_removeAt hs)
  exact ⟨View.contiguous_fixed hleft, rfl, nofun⟩

theorem matmul_fixed (hg : g.Fixed) (a b : Tensor) : ((matmul a b).perform g).2.Fixed := by
  refine (matmul_derives a b).fixed hg fun found => ?_
  have hl := hg.lengths_isCount found.left_eq
  have hr := hg.lengths_isCount found.right_eq
  have hnone : found.inner ++ found.batch = [] := eq_nil_of_counts fun e he => by
    obtain ⟨hleft, hright, hundecided⟩ :=
      factors_mem found.columns_eq found.rows_eq found.inner_eq found.batch_eq e he
    exact ⟨hl _ hleft, hr _ hright, hundecided⟩
  refine ⟨View.contiguous_fixed ?_, congrArg _ hnone, nofun⟩
  rw [List.forall_mem_append, List.forall_mem_singleton]
  exact ⟨fun s hs => hl s ((List.dropLast_sublist found.left).subset hs),
    hr found.width (List.mem_of_getElem? found.width_eq)⟩

/-- A relabelling by constants either fails or records nothing. -/
theorem realize_fixed (hg : g.Fixed) (t : Tensor) {shape : Shape}
    (hshape : ∀ dim ∈ shape, dim.Fixed ∨ dim = .anonymous) :
    ((realize t shape).perform g).2.Fixed := by
  rcases realize_cases t shape with ⟨fault, h⟩ | ⟨found, h⟩ <;> rw [h]
  · exact hg
  · have hnone : found.equalities = [] := eq_nil_of_counts fun e he => by
      obtain ⟨_, hleft, hright, hundecided⟩ := relabelEqualities_mem found.equalities_eq e he
      exact ⟨operand_isCount hg found.toOperand _ hleft, hright.isCount hshape, hundecided⟩
    rw [hnone]
    exact Graph.relying_fixed hg found.node.id _

end Build

/-! ## Commands -/

section

variable [Arithmetic] [Unbounded]

open Build in
/-- **A command that is given constants keeps a graph fixed**, whether it succeeds or not. -/
theorem Command.keeps_fixed {g : Graph} {issued : List Tensor} (hwell : g.WellFormed)
    (hissued : ∀ t ∈ issued, g.Issued t) (hg : g.Fixed) {command : Command}
    (hcommand : command.Fixed) : ((command.step issued).perform g).2.Fixed := by
  cases command with
  | newTensor name shape => exact newTensor_fixed hg name hcommand
  | constant value => exact constant_fixed hg value
  | addFunction => exact hcommand.elim
  | realize t shape => exact left_of_operand hg fun t _ => realize_fixed hg t hcommand
  | slice t specs =>
      exact left_of_operand hg fun t ht => slice_fixed hwell hg (hissued t ht) hcommand
  | permute t axes => exact left_of_operand hg fun t _ => permute_fixed hg t axes
  | reshape t target => exact left_of_operand hg fun t _ => reshape_fixed hg t target
  | expand t axis dim => exact left_of_operand hg fun t _ => expand_fixed hg t axis hcommand
  | expandTo t target => exact left_of_operand hg fun t _ => expandTo_fixed hg t hcommand
  | concat a b axis =>
      exact left_of_operand hg fun a _ => left_of_operand hg fun b _ => concat_fixed hg a b axis
  | contiguous t => exact left_of_operand hg fun t _ => pointwise_fixed hg .contiguous nofun t
  | unary op t => exact left_of_operand hg fun t _ => pointwise_fixed hg (.unary op) nofun t
  | binary op a b =>
      exact left_of_operand hg fun a _ => left_of_operand hg fun b _ => binary_fixed hg op a b
  | scalar op t value => exact left_of_operand hg fun t _ => scalar_fixed hg op t value
  | reduce op t axis => exact left_of_operand hg fun t _ => reduce_fixed hg op t axis
  | softmax t axis => exact left_of_operand hg fun t _ => softmax_fixed hg t axis
  | matmul a b =>
      exact left_of_operand hg fun a _ => left_of_operand hg fun b _ => matmul_fixed hg a b
  | arange => exact hcommand.elim
  | causalMask => exact hcommand.elim

/-- **Whatever commands are given constants**, nothing is recorded and all views are
fixed. -/
theorem Session.run_fixed {s : Session} (hs : s.WellFormed) (hg : s.graph.Fixed)
    {commands : List Command} (hcommands : ∀ command ∈ commands, command.Fixed) :
    (s.run commands).graph.Fixed := by
  induction commands generalizing s with
  | nil => exact hg
  | cons command rest ih =>
      obtain ⟨hcommand, hrest⟩ := List.forall_mem_cons.mp hcommands
      have hstep := (step_wellFormed hs hcommand.integral).1
      refine ih hstep ?_ hrest
      rw [step_graph]
      exact command.keeps_fixed hs.graph hs.issued hg hcommand

end

end ShapeGraph
