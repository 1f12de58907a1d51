import ShapeGraph.Proofs.Graph.Gain
import ShapeGraph.Proofs.Graph.Locals

/-!
# Where the symbols of a graph are from

Every operation derives its node from operands that stand before it and from what it is given, so
its symbols are theirs.  Only a leaf brings symbols along, and these are its own.  A relabelling is
the one call that goes back to a node that stands, and it has nothing to compare there but the
lengths of that node with sizes that are supplied.

* `Build.Sourced` — how a call ends: the graph keeps to the symbols at its places, and the new
  handle to those that are supplied;
* `Draft.Sourced.of_graph`, `Draft.Sourced.of_leaf` — the drafts of operations and of leaves;
* `Command.sourced` — every command ends so;
* `Session.run_sourced` — so do any number of them;
* `Command.Opens`, `Session.run_owns` — the axes for which a command makes a symbol, which
  stays.
-/

namespace ShapeGraph

open ShapeGraph.Numeric (Arithmetic Number)

variable {supplied : String → Prop} {g g' : Graph} {draft : Draft}

/-! ## Drafts -/

/-- What is derived from a graph keeps to its symbols. -/
theorem Draft.Sourced.of_graph (hkind : draft.kind ≠ .input) (hshape : draft.shape.Among supplied)
    (hview : draft.view.Among (g.Known supplied g.size)) (equalities : List Equality)
    (hpending : draft.pending = equalities.map Equality.pending)
    (hequalities : ∀ e ∈ equalities, e.Among (g.Known supplied g.size)) :
    draft.Sourced supplied g where
  shape := hshape
  view inputs := hview.mono (Graph.Known.later (Graph.append_continues g draft inputs) le_rfl)
  equalities := ⟨equalities, hpending, fun inputs e he =>
    (hequalities e he).mono (Graph.Known.later (Graph.append_continues g draft inputs) le_rfl)⟩
  leaf h := absurd h hkind

/-- A leaf has the symbols of the graph, and those of its own. -/
theorem Draft.Sourced.of_leaf (hkind : draft.kind = .input ∨ draft.kind = .function)
    (hshape : draft.shape.Among supplied) {sizes : List Size}
    (hview : draft.view = .contiguous sizes) {declared : List (Option Quantity)}
    (hdeclared : ∀ q, some q ∈ declared → ∀ name ∈ q.names, g.Known supplied g.size name)
    {equalities : List Equality} (hpending : draft.pending = equalities.map Equality.pending)
    (hsizes : declaredSizes g.size 0 draft.shape declared = .ok (sizes, equalities))
    (hleaf : draft.kind = .input → leafSizes g.size 0 draft.shape = .ok sizes) :
    draft.Sourced supplied g := by
  have hall : ∀ inputs, ∀ s ∈ sizes, s.Among ((g.append draft inputs).Known supplied g.size) := by
    intro inputs
    have hcontinues := Graph.append_continues g draft inputs
    refine declaredSizes_among (hshape.mono (Graph.known_of_supplied g.size))
      (fun q hq name hname => (hdeclared q hq name hname).later hcontinues le_rfl)
      (fun k hk hnone => ?_) hsizes
    have hown := declaredSizes_open hsizes hk hnone
    rw [Nat.zero_add] at hown ⊢
    exact .inr ⟨g.size, k, le_rfl, Graph.append_owns hkind hview hk hown inputs, rfl⟩
  constructor
  · exact hshape
  · intro inputs
    rw [hview]
    exact View.among_contiguous (hall inputs)
  · refine ⟨equalities, hpending, fun inputs e he => ?_⟩
    obtain ⟨hright, hleft⟩ := declaredSizes_mem hsizes e he
    exact ⟨(hshape.mono (Graph.known_of_supplied g.size)).size hleft, hall inputs _ hright⟩
  · exact fun h => ⟨sizes, hleaf h, hview⟩

/-! ## Calls -/

namespace Build

/-- The graph keeps to the symbols at its places, and the handle that is issued, if there is one,
to those that are supplied. -/
structure Sourced (supplied : String → Prop) (ended : Except Fault Tensor × Graph) : Prop where
  graph : ended.2.Sourced supplied
  handle : ∀ t, ended.1 = .ok t → t.shape.Among supplied

/-- A call that fails leaves the graph alone. -/
theorem Sourced.of_error (hg : g.Sourced supplied) (fault : Fault) :
    Sourced supplied (.error fault, g) :=
  ⟨hg, nofun⟩

/-- A call keeps to the symbols if the draft does that it derives. -/
theorem Derives.sourced {α : Type} {call : Build Tensor} {made : α → Draft}
    (h : call.Derives g made) (hg : g.Sourced supplied)
    (hmade : ∀ found, (made found).Sourced supplied g) : Sourced supplied (call.perform g) := by
  obtain ⟨fault, hperform⟩ | ⟨found, inputs, _, hperform⟩ := h <;> rw [hperform]
  · exact .of_error hg fault
  · refine ⟨Graph.append_sourced hg (hmade found) inputs, fun t ht => ?_⟩
    obtain rfl := Except.ok.inj ht
    exact (hmade found).shape

variable {a b t : Tensor}

/-- An input keeps to the symbols of its shape and those of its own anonymous axes. -/
theorem newTensor_sourced (hg : g.Sourced supplied) (name : String) {shape : Shape}
    (hshape : shape.Among supplied) : Sourced supplied ((newTensor name shape).perform g) :=
  (newTensor_derives name shape).sourced hg fun found =>
    .of_leaf (.inl rfl) hshape rfl (fun _ hq => absurd hq List.not_mem_nil) rfl
      (declaredSizes_of_leafSizes found.sizes_eq) fun _ => found.sizes_eq

theorem constant_sourced (hg : g.Sourced supplied) (value : Number) :
    Sourced supplied ((constant value).perform g) :=
  (constant_derives value).sourced hg fun _ =>
    .of_graph nofun (List.forall_mem_nil _) (View.among_contiguous (List.forall_mem_nil _))
      [] rfl nofun

/-- A host computation keeps to the symbols of its shape and of its declared sizes, and to those
of its own. -/
theorem addFunction_sourced (hg : g.Sourced supplied) (name : String) (tensors : List Tensor)
    {shape : Shape} (hshape : shape.Among supplied) (payload : Payload)
    {declared : Option (List (Option Quantity))}
    (hdeclared : ∀ q, some q ∈ declared.getD [] → ∀ name ∈ q.names,
      g.Known supplied g.size name) :
    Sourced supplied ((addFunction name tensors shape payload declared).perform g) :=
  (addFunction_derives name tensors shape payload declared).sourced hg fun found =>
    .of_leaf (.inr rfl) hshape rfl hdeclared rfl found.sizes_eq nofun

/-- A permutation keeps to the symbols of its operand. -/
theorem permute_sourced (hg : g.Sourced supplied) (ht : t.shape.Among supplied)
    (axes : List Number) : Sourced supplied ((permute t axes).perform g) := by
  refine (permute_derives t axes).sourced hg fun found => .of_graph nofun ?_ ?_ [] rfl nofun
  · obtain ⟨_, hpicked⟩ := Axis.pick_eq_ok.mp found.shape_eq
    intro dim hdim
    have hdim : dim ∈ found.shape := hdim
    rw [hpicked] at hdim
    exact ht dim (Axis.mem_of_mem_picked hdim)
  · exact View.among_permute (hg.view_of_check found.node_eq) found.view_eq

/-- An expansion along an axis keeps to the symbols of its operand and of its dimension. -/
theorem expand_sourced (hg : g.Sourced supplied) (ht : t.shape.Among supplied) (axis : Number)
    {dim : Dimension} (hdim : dim.Among supplied) :
    Sourced supplied ((expand t axis dim).perform g) := by
  refine (expand_derives t axis dim).sourced hg fun found => .of_graph nofun ?_ ?_ [] rfl nofun
  · intro held hheld
    rcases List.mem_cons.mp ((Axis.insertAt_perm _ _ _).mem_iff.mp hheld) with rfl | hold
    · exact hdim
    · exact ht held hold
  · have hsize := (hdim.size found.size_eq).mono (Graph.known_of_supplied (g := g) g.size)
    exact View.among_expand (hg.view_of_check found.node_eq) hsize found.view_eq

variable [Arithmetic]

/-- The lengths of an operand keep to the symbols of the graph. -/
theorem operand_among (hg : g.Sourced supplied) {operation : String}
    (found : Found.Operand g operation t) :
    ∀ s ∈ found.lengths, s.Among (g.Known supplied g.size) :=
  (hg.view_of_check found.node_eq).lengths found.lengths_eq

/-- A draft with the shape and the lengths of its operand keeps to the symbols of the operand.
-/
theorem pointwise_draft_sourced (hg : g.Sourced supplied) (ht : t.shape.Among supplied)
    {kind : OpKind} (found : Found.Pointwise g kind t) (hkind : kind ≠ .input)
    (attributes : Entries Value) : (found.draft attributes).Sourced supplied g :=
  .of_graph hkind ht (View.among_contiguous (operand_among hg found.toOperand)) [] rfl nofun

theorem pointwise_sourced (hg : g.Sourced supplied) (ht : t.shape.Among supplied) {kind : OpKind}
    (hkind : kind ≠ .input) : Sourced supplied ((pointwise kind t).perform g) :=
  (pointwise_derives kind t).sourced hg fun found => pointwise_draft_sourced hg ht found hkind _

theorem scalar_sourced (hg : g.Sourced supplied) (ht : t.shape.Among supplied) (op : ScalarOp)
    (value : Number) : Sourced supplied ((scalar op t value).perform g) :=
  (scalar_derives op t value).sourced hg fun found => pointwise_draft_sourced hg ht found nofun _

theorem softmax_sourced (hg : g.Sourced supplied) (ht : t.shape.Among supplied) (axis : Number) :
    Sourced supplied ((softmax t axis).perform g) :=
  (softmax_derives t axis).sourced hg fun found =>
    pointwise_draft_sourced hg ht found.toPointwise nofun _

theorem reduce_sourced (hg : g.Sourced supplied) (ht : t.shape.Among supplied) (op : ReduceOp)
    (axis : Number) : Sourced supplied ((reduce op t axis).perform g) := by
  refine (reduce_derives op t axis).sourced hg fun found => .of_graph nofun ?_ ?_ [] rfl nofun
  · exact fun dim hdim => ht dim (Axis.mem_of_mem_removeAt hdim)
  · have hlengths := operand_among hg found.toOperand
    exact View.among_contiguous fun s hs => hlengths s (Axis.mem_of_mem_removeAt hs)

/-- A slice puts its bounds together with lengths of its operand. -/
theorem slice_sourced (hg : g.Sourced supplied) (ht : t.shape.Among supplied)
    {specs : List RangeSpec} (hspecs : ∀ spec ∈ specs, ∀ name ∈ spec.names, supplied name) :
    Sourced supplied ((slice t specs).perform g) := by
  refine (slice_derives t specs).sourced hg fun found =>
    .of_graph nofun (mapSlice_among ht found.mapping_eq) ?_ [] rfl nofun
  obtain ⟨_, hmapping⟩ := ite_error_eq_ok.mp found.mapping_eq
  have hspans := mapAxes_among (P := g.Known supplied g.size)
    (ht.mono (Graph.known_of_supplied g.size))
    (fun spec hspec name hname => .inl (hspecs spec hspec name hname))
    (fun s hs => operand_among hg found.toOperand s (by simpa using hs)) hmapping
  exact View.among_slice (hg.view_of_check found.node_eq) hspans found.view_eq

/-- An expansion to a shape keeps to the symbols of its operand and of the target. -/
theorem expandTo_sourced (hg : g.Sourced supplied) {target : Shape}
    (htarget : target.Among supplied) : Sourced supplied ((expandTo t target).perform g) := by
  refine (expandTo_derives t target).sourced hg fun found => ?_
  have hknown : target.Among (g.Known supplied g.size) :=
    htarget.mono (Graph.known_of_supplied g.size)
  refine .of_graph nofun htarget ?_ _ rfl fun e he => ?_
  · have haligned := alignAxes_keep (P := View.Among (g.Known supplied g.size))
      (fun hv hsize => View.among_broadcastAxis hv (hknown.size hsize))
      (hg.view_of_check found.node_eq) found.aligned_eq
    exact leadAxes_keep (P := View.Among (g.Known supplied g.size))
      (fun hv hsize => View.among_expand hv (hknown.size hsize)) haligned found.view_eq
  · obtain ⟨hleft, hright, _⟩ := alignAxes_mem found.aligned_eq e he
    exact ⟨operand_among hg found.toOperand _ hleft, hknown.size hright⟩

/-- What is compared of two operands keeps to the symbols of the graph. -/
theorem operands_among (hg : g.Sourced supplied) {operation : String}
    (found : Found.Operands g operation a b) {equalities : List Equality}
    (h : ∀ e ∈ equalities, e.left ∈ found.left ∧ e.right ∈ found.right ∧ e.Undecided) :
    ∀ e ∈ equalities, e.Among (g.Known supplied g.size) := by
  intro e he
  obtain ⟨hleft, hright, _⟩ := h e he
  exact ⟨hg.lengths found.left_eq _ hleft, hg.lengths found.right_eq _ hright⟩

/-- An operation on two tensors keeps to the symbols of both. -/
theorem binary_sourced (hg : g.Sourced supplied) (ha : a.shape.Among supplied) (op : BinaryOp)
    (b : Tensor) : Sourced supplied ((binary op a b).perform g) :=
  (binary_derives op a b).sourced hg fun found =>
    .of_graph nofun ha (View.among_contiguous (hg.lengths found.left_eq)) _ rfl
      (operands_among hg found.toOperands (pairEqualities_mem found.equalities_eq))

theorem concat_sourced (hg : g.Sourced supplied) (ha : a.shape.Among supplied) (b : Tensor)
    (axis : Number) : Sourced supplied ((concat a b axis).perform g) := by
  refine (concat_derives a b axis).sourced hg fun found => .of_graph nofun ?_ ?_ _ rfl
    (operands_among hg found.toOperands (joinEqualities_mem found.equalities_eq))
  · intro dim hdim
    rcases List.mem_or_eq_of_mem_set hdim with hold | rfl
    · exact ha dim hold
    · exact joinedDimension_among found.dim_eq
  · exact View.among_contiguous
      (joinedSizes_among (hg.lengths found.left_eq) (hg.lengths found.right_eq) found.sizes_eq)

/-- A product of matrices keeps to the symbols of both factors. -/
theorem matmul_sourced (hg : g.Sourced supplied) (ha : a.shape.Among supplied)
    (hb : b.shape.Among supplied) : Sourced supplied ((matmul a b).perform g) := by
  refine (matmul_derives a b).sourced hg fun found => .of_graph nofun ?_ ?_ _ rfl
    (operands_among hg found.toOperands
      (factors_mem found.columns_eq found.rows_eq found.inner_eq found.batch_eq))
  · refine List.forall_mem_append.mpr ⟨fun dim hdim => ?_, List.forall_mem_singleton.mpr ?_⟩
    · exact ha dim ((List.dropLast_sublist a.shape).subset hdim)
    · exact hb found.dim (List.mem_of_getElem? found.dim_eq)
  · have hl := hg.lengths found.left_eq
    have hr := hg.lengths found.right_eq
    refine View.among_contiguous (List.forall_mem_append.mpr
      ⟨fun s hs => hl s ((List.dropLast_sublist found.left).subset hs), ?_⟩)
    exact List.forall_mem_singleton.mpr (hr found.width (List.mem_of_getElem? found.width_eq))

/-- A reshape keeps to the symbols of the graph, also once its operand has been laid out. -/
theorem reshape_sourced (hg : g.Sourced supplied) (ht : t.shape.Among supplied)
    (target : List ReshapeEntry) : Sourced supplied ((reshape t target).perform g) := by
  have hdraft : ∀ (found : Found.Reshape g t target) {g' : Graph} (source : Tensor),
      g'.Continues g → (found.draft source).Sourced supplied g' := by
    intro found g' source hcontinues
    have hlater : ∀ name, g.Known supplied g.size name → g'.Known supplied g'.size name :=
      Graph.Known.later hcontinues hcontinues.size_le
    have hl : ∀ s ∈ Size.pinned found.lengths, s.Among (g'.Known supplied g'.size) :=
      Size.among_pinned fun s hs => (operand_among hg found.toOperand s hs).mono hlater
    have hsizes : ∀ s ∈ found.axes.map (·.2), s.Among (g'.Known supplied g'.size) := by
      intro s hs
      rcases targetAxes_mem found.axes_eq s hs with ⟨n, rfl⟩ | hlength
      · exact Size.among_literal _
      · exact hl s hlength
    refine .of_graph nofun (targetAxes_among ht found.axes_eq) (View.among_contiguous hsizes)
      _ rfl fun e he => ?_
    obtain ⟨rfl, _⟩ := requireEqual_mem found.equalities_eq he
    exact ⟨Size.among_product hl, Size.among_product hsizes⟩
  have hended : ∀ (found : Found.Reshape g t target) {g' : Graph} (source : Tensor)
      (inputs : List Nat), g'.Sourced supplied → g'.Continues g →
        Sourced supplied (.ok (handle g' (found.draft source).shape),
          g'.append (found.draft source) inputs) := by
    intro found g' source inputs hg' hcontinues
    refine ⟨Graph.append_sourced hg' (hdraft found source hcontinues) inputs, fun made hmade => ?_⟩
    obtain rfl := Except.ok.inj hmade
    exact (hdraft found source hcontinues).shape
  rcases reshape_cases t target with ⟨fault, h⟩ | ⟨found, ⟨_, h⟩ | ⟨first, h⟩⟩ <;> rw [h]
  · exact .of_error hg fault
  · exact hended found t _ hg (.refl g)
  · have hfirst := pointwise_draft_sourced hg ht first nofun []
    exact hended found _ _ (Graph.append_sourced hg hfirst _) (Graph.append_continues g _ _)

/-- A relabelling compares lengths of a node with sizes that are supplied. -/
theorem realize_sourced (hg : g.Sourced supplied) {shape : Shape} (hshape : shape.Among supplied) :
    Sourced supplied ((realize t shape).perform g) := by
  rcases realize_cases t shape with ⟨fault, h⟩ | ⟨found, h⟩ <;> rw [h]
  · exact .of_error hg fault
  · obtain ⟨hnode, _⟩ := hg.of_check found.node_eq
    refine ⟨Graph.relying_sourced hg (fun e he => ?_) _, fun made hmade => ?_⟩
    · obtain ⟨_, hleft, hright, _⟩ := relabelEqualities_mem found.equalities_eq e he
      exact ⟨hnode.view.lengths found.lengths_eq _ hleft,
        (hshape.size hright).mono (Graph.known_of_supplied _)⟩
    · obtain rfl := Except.ok.inj hmade
      exact hshape

/-- A generator declares a length of its reference for all of its axes, and takes its
dimension. -/
theorem referenceAxis_among (hg : g.Sourced supplied) (ht : t.shape.Among supplied)
    {operation : String} {axis : Number} {k : Nat} {length : Option Size} {dim : Dimension}
    (h : ((referenceAxis operation t axis).perform g).1 = .ok (k, length, dim)) :
    dim.Among supplied ∧ ∀ size, length = some size → size.Among (g.Known supplied g.size) := by
  simp only [referenceAxis, perform_read, bind_eq_ok, pure_eq_ok, Prod.mk.injEq,
    dimAt_eq_ok] at h
  obtain ⟨_, _, lengths, hlengths, held, hheld, _, rfl, rfl⟩ := h
  refine ⟨ht held (List.mem_of_getElem? hheld), fun size hsize => ?_⟩
  exact Size.among_pinned (hg.lengths hlengths) size (List.mem_of_getElem? hsize)

omit [Arithmetic] in
/-- All sizes that a generator declares are the one that it has read. -/
theorem replicated_among {P : String → Prop} {length : Option Size}
    (hlength : ∀ size, length = some size → size.Among P) (count : Nat) :
    ∀ q,
      some q ∈ (length.map fun size => List.replicate count (some (Quantity.size size))).getD [] →
      ∀ name ∈ q.names, P name := by
  intro q hq
  cases length with
  | none => cases hq
  | some size =>
      obtain rfl : q = .size size := Option.some.inj (List.eq_of_mem_replicate hq)
      exact hlength size rfl

/-- The positions along an axis keep to the symbols of the length of the axis. -/
theorem arange_sourced (hg : g.Sourced supplied) (ht : t.shape.Among supplied) (axis : Number) :
    Sourced supplied ((arange t axis).perform g) := by
  refine ended_of_read (.of_error hg) fun ⟨k, length, dim⟩ hread => ?_
  obtain ⟨hdim, hlength⟩ := referenceAxis_among hg ht hread
  exact addFunction_sourced hg _ _ (List.forall_mem_singleton.mpr hdim) _
    (replicated_among hlength 1)

theorem causalMask_sourced (hg : g.Sourced supplied) (ht : t.shape.Among supplied)
    (axis : Number) : Sourced supplied ((causalMask t axis).perform g) := by
  refine ended_of_read (.of_error hg) fun ⟨k, length, dim⟩ hread => ?_
  obtain ⟨hdim, hlength⟩ := referenceAxis_among hg ht hread
  exact addFunction_sourced hg _ _
    (List.forall_mem_cons.mpr ⟨hdim, List.forall_mem_singleton.mpr hdim⟩) _
    (replicated_among hlength 2)

end Build

/-! ## Commands -/

section

variable [Arithmetic]

open Build in
/-- **A command keeps a graph to the symbols at its places**, whether it succeeds or not. -/
theorem Command.sourced {issued : List Tensor} (hg : g.Sourced supplied)
    (hissued : ∀ t ∈ issued, t.shape.Among supplied) {command : Command}
    (hcommand : ∀ name ∈ command.supplied, supplied name) :
    Sourced supplied ((command.step issued).perform g) := by
  have hfault : ∀ fault, Sourced supplied (.error fault, g) := Sourced.of_error hg
  cases command with
  | newTensor name shape => exact newTensor_sourced hg name (Shape.among_of_names hcommand)
  | constant value => exact constant_sourced hg value
  | addFunction name inputs shape payload sizes =>
      obtain ⟨hshape, hsizes⟩ := List.forall_mem_append.mp hcommand
      refine ended_of_operands hfault fun tensors =>
        addFunction_sourced hg name tensors (Shape.among_of_names hshape) payload ?_
      exact fun q hq name hname => .inl (hsizes name (List.mem_flatMap.mpr ⟨some q, hq, hname⟩))
  | realize t shape =>
      exact ended_of_operand hfault fun t _ => realize_sourced hg (Shape.among_of_names hcommand)
  | slice t specs =>
      refine ended_of_operand hfault fun t ht => slice_sourced hg (hissued t ht) ?_
      exact fun spec hspec name hname =>
        hcommand name (List.mem_flatMap.mpr ⟨spec, hspec, hname⟩)
  | permute t axes =>
      exact ended_of_operand hfault fun t ht => permute_sourced hg (hissued t ht) axes
  | reshape t target =>
      exact ended_of_operand hfault fun t ht => reshape_sourced hg (hissued t ht) target
  | expand t axis dim =>
      exact ended_of_operand hfault fun t ht =>
        expand_sourced hg (hissued t ht) axis (.inr hcommand)
  | expandTo t target =>
      exact ended_of_operand hfault fun t _ => expandTo_sourced hg (Shape.among_of_names hcommand)
  | concat a b axis =>
      exact ended_of_operand hfault fun a ha => ended_of_operand hfault fun b _ =>
        concat_sourced hg (hissued a ha) b axis
  | contiguous t =>
      exact ended_of_operand hfault fun t ht => pointwise_sourced hg (hissued t ht) nofun
  | unary op t =>
      exact ended_of_operand hfault fun t ht => pointwise_sourced hg (hissued t ht) nofun
  | binary op a b =>
      exact ended_of_operand hfault fun a ha => ended_of_operand hfault fun b _ =>
        binary_sourced hg (hissued a ha) op b
  | scalar op t value =>
      exact ended_of_operand hfault fun t ht => scalar_sourced hg (hissued t ht) op value
  | reduce op t axis =>
      exact ended_of_operand hfault fun t ht => reduce_sourced hg (hissued t ht) op axis
  | softmax t axis =>
      exact ended_of_operand hfault fun t ht => softmax_sourced hg (hissued t ht) axis
  | matmul a b =>
      exact ended_of_operand hfault fun a ha => ended_of_operand hfault fun b hb =>
        matmul_sourced hg (hissued a ha) (hissued b hb)
  | arange like axis =>
      exact ended_of_operand hfault fun t ht => arange_sourced hg (hissued t ht) axis
  | causalMask like axis =>
      exact ended_of_operand hfault fun t ht => causalMask_sourced hg (hissued t ht) axis

end

/-! ## Sessions -/

/-- The axes of a leaf for which a command makes a symbol: anonymous ones without a declared
size. -/
def Command.Opens (axis : Nat) : Command → Prop
  | newTensor _ shape => shape[axis]? = some .anonymous
  | addFunction _ _ shape _ sizes => shape[axis]? = some .anonymous ∧
      (sizes.getD [])[axis]?.join = none
  | _ => False

namespace Session

/-- The graph keeps to the symbols at its places, and all handles to those that are supplied. -/
structure Sourced (supplied : String → Prop) (s : Session) : Prop where
  graph : s.graph.Sourced supplied
  issued : ∀ t ∈ s.issued, t.shape.Among supplied

/-- A session that has issued nothing keeps to any symbols. -/
theorem start_sourced (id : Nat) (settings : GraphSettings) :
    (start id settings).Sourced supplied :=
  ⟨Graph.empty_sourced id settings, List.forall_mem_nil _⟩

variable [Arithmetic] {s s' : Session} {command : Command} {commands : List Command}

/-- One command keeps to the symbols that there are. -/
theorem step_sourced (hs : s.Sourced supplied)
    (hcommand : ∀ name ∈ command.supplied, supplied name) :
    (s.step command).Sourced supplied := by
  have hended := command.sourced hs.graph hs.issued hcommand
  unfold step
  split
  · next t g hperform =>
    rw [hperform] at hended
    refine ⟨hended.graph, List.forall_mem_append.mpr ⟨hs.issued, ?_⟩⟩
    exact List.forall_mem_singleton.mpr (hended.handle t rfl)
  · next g hperform =>
    rw [hperform] at hended
    exact ⟨hended.graph, hs.issued⟩

/-- **Any number of commands** keep to the symbols that there are. -/
theorem run_sourced (hs : s.Sourced supplied)
    (hcommands : ∀ command ∈ commands, ∀ name ∈ command.supplied, supplied name) :
    (s.run commands).Sourced supplied := by
  induction commands generalizing s with
  | nil => exact hs
  | cons command rest ih =>
      obtain ⟨hcommand, hrest⟩ := List.forall_mem_cons.mp hcommands
      exact ih (step_sourced hs hcommand) hrest

/-- **A leaf makes a symbol** for every axis that its command leaves open. -/
theorem extend_owns {axis : Nat} (hopens : command.Opens axis) (h : s.extend command = .ok s') :
    s'.graph.Owns s.graph.size axis := by
  obtain ⟨t, g, hperform, rfl⟩ := extend_eq_ok.mp h
  cases command with
  | newTensor name shape =>
      obtain ⟨found, inputs, _, _, rfl⟩ := (Build.newTensor_derives name shape).of_ok hperform
      have hdim : (found.draft name).shape[axis]? = some .anonymous := hopens
      have hown := declaredSizes_open (declaredSizes_of_leafSizes found.sizes_eq) hdim rfl
      rw [Nat.zero_add] at hown
      exact Graph.append_owns (.inl rfl) rfl hdim hown inputs
  | addFunction name places shape payload sizes =>
      obtain ⟨hdim, hnone⟩ := hopens
      obtain ⟨tensors, hcall⟩ := Command.operands_eq_ok hperform
      obtain ⟨found, inputs, _, _, rfl⟩ :=
        (Build.addFunction_derives name tensors shape payload sizes).of_ok hcall
      have hown := declaredSizes_open found.sizes_eq hdim hnone
      rw [Nat.zero_add] at hown
      exact Graph.append_owns (.inr rfl) rfl hdim hown inputs
  | _ => exact hopens.elim

/-- What any number of commands leave continues the graph before them. -/
theorem run_continues (s : Session) (commands : List Command) :
    (s.run commands).graph.Continues s.graph := by
  induction commands generalizing s with
  | nil => exact .refl s.graph
  | cons command rest ih =>
      have hstep : (s.step command).graph.Continues s.graph := by
        rw [step_graph]
        exact (command.changes s.issued).continues
      exact (ih (s.step command)).trans hstep

/-- **The symbols of a leaf stay**, whatever is called after it. -/
theorem run_owns {before after : List Command} {axis : Nat} (hopens : command.Opens axis)
    (h : (s.run before).extend command = .ok s') :
    (s.run (before ++ command :: after)).graph.Owns (s.run before).graph.size axis := by
  have hrun : s.run (before ++ command :: after) = s'.run after := by
    rw [run_append, ← step_of_extend h]
    rfl
  rw [hrun]
  exact (extend_owns hopens h).later (run_continues s' after)

end Session

end ShapeGraph
