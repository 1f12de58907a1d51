import ShapeGraph.Proofs.Graph.Change
import ShapeGraph.Proofs.Graph.Described
import ShapeGraph.Proofs.Graph.Invariant

/-!
# Handles whose shapes describe their views

Whatever operation issues a handle, its shape describes the view behind it, whether or not the
equalities that have been recorded can hold at all.  So what a dimension of a handle says may be
required of the length of its axis at any later time.

* `Graph.Described` — the shape of a handle describes the view behind it;
* `Build.DescribesIn` — a call issues no other handles;
* `Build.newTensor_describes` and the lemmas after it — no operation does;
* `Session.run_described`, `Session.described_of_run` — so all handles are of that kind, after
  any commands.
-/

namespace ShapeGraph

open ShapeGraph.Numeric (Arithmetic Exact Number Unbounded)

section

variable [Arithmetic]

/-! ## Handles -/

/-- The shape of a handle describes the view behind it. -/
def Graph.Described (g : Graph) (t : Tensor) : Prop :=
  ∃ node, g.Behind t node ∧ t.shape.Describes node.view

variable {g g' : Graph} {a b t : Tensor} {node : Node}

/-- A handle whose shape describes its view does so however the graph has grown. -/
theorem Graph.Extends.described (he : g'.Extends g) (h : g.Described t) : g'.Described t := by
  obtain ⟨node, hbehind, hshape⟩ := h
  exact ⟨node, he.behind hbehind, hshape⟩

/-- The shape of a handle describes the view of the node that a check finds. -/
theorem Graph.Described.of_check (h : g.Described t) {operation : String}
    (hcheck : g.check operation t = .ok node) : t.shape.Describes node.view := by
  obtain ⟨held, hbehind, hshape⟩ := h
  obtain rfl := hbehind.unique (Graph.check_eq_ok.mp hcheck)
  exact hshape

/-- A shape admits the lengths of an operand. -/
theorem Graph.Described.lengths (h : g.Described t) {lengths : List Size}
    (hlengths : g.lengths t = .ok lengths) : t.shape.Admits lengths := by
  simp only [Graph.lengths, Graph.view, bind_eq_ok, pure_eq_ok] at hlengths
  obtain ⟨_, ⟨node, hnode, rfl⟩, hlengths⟩ := hlengths
  exact (h.of_check hnode).admits hlengths

/-- The shape of an operand admits the lengths that have been found for it. -/
theorem Found.Operand.admits {operation : String} (found : Found.Operand g operation t)
    (h : g.Described t) : t.shape.Admits found.lengths :=
  (h.of_check found.node_eq).admits found.lengths_eq

namespace Build

/-- Whatever handle the call issues, its shape describes the view behind it. -/
def DescribesIn (call : Build Tensor) (g : Graph) : Prop :=
  ∀ t g', call.perform g = (.ok t, g') → g'.Described t

/-- A draft whose shape describes its view becomes a handle of that kind. -/
theorem Derives.describes {α : Type} {call : Build Tensor} {draft : α → Draft}
    (h : call.Derives g draft)
    (hdraft : ∀ found, (draft found).shape.Describes (draft found).view) :
    call.DescribesIn g := by
  intro t g' hok
  obtain ⟨found, inputs, _, rfl, rfl⟩ := h.of_ok hok
  exact ⟨_, g.append_behind inputs (hdraft found).integral, hdraft found⟩

/-- A call that reads the graph describes what it issues if it does whatever is read. -/
theorem describes_of_read {α : Type} {f : Graph → Except Fault α} {next : α → Build Tensor}
    (h : ∀ a, f g = .ok a → (next a).DescribesIn g) : (read f >>= next).DescribesIn g := by
  intro t g' hok
  rcases read_cases f next g with ⟨fault, hfailed⟩ | ⟨a, ha, hnext⟩
  · cases hok.symm.trans hfailed
  · exact h a ha t g' (hnext.symm.trans hok)

/-- The same goes for a call on an operand. -/
theorem describes_of_operand {issued : List Tensor} {place : Nat} {next : Tensor → Build Tensor}
    (h : ∀ t ∈ issued, (next t).DescribesIn g) :
    (Command.operand issued place >>= next).DescribesIn g := by
  intro t g' hok
  obtain ⟨held, hheld, hnext⟩ := Command.operand_eq_ok hok
  exact h held (List.mem_of_getElem? hheld) t g' hnext

theorem describes_of_operands {issued : List Tensor} {places : List Nat}
    {next : List Tensor → Build Tensor} (h : ∀ tensors, (next tensors).DescribesIn g) :
    (places.mapM (Command.operand issued) >>= next).DescribesIn g := by
  intro t g' hok
  obtain ⟨tensors, hnext⟩ := Command.operands_eq_ok hok
  exact h tensors t g' hnext

end Build

/-! ## Operations -/

namespace Build

variable [Unbounded]

/-! ### Leaves -/

/-- An input is described by its declared shape. -/
theorem newTensor_describes (name : String) (shape : Shape) :
    (newTensor name shape).DescribesIn g :=
  (newTensor_derives name shape).describes fun found =>
    (leafSizes_admits found.sizes_eq).describes_contiguous

theorem constant_describes (value : Number) : (constant value).DescribesIn g :=
  (constant_derives value).describes fun _ => Shape.Admits.describes_contiguous .nil

/-- A function is described by its shape, if the sizes declared for it are in normal form. -/
theorem addFunction_describes (name : String) (tensors : List Tensor) (shape : Shape)
    (payload : Payload) {declared : Option (List (Option Quantity))}
    (hdeclared : ∀ q, some q ∈ declared.getD [] → ∀ s ∈ q.given, s.Canonical) :
    (addFunction name tensors shape payload declared).DescribesIn g :=
  (addFunction_derives name tensors shape payload declared).describes fun found =>
    (declaredSizes_admits hdeclared found.sizes_eq).describes_contiguous

omit [Unbounded] in
/-- The generators declare the length that they have read. -/
theorem generator_describes (ht : g.Described t) {operation : String} {axis : Number}
    {next : Nat × Option Size × Dimension → Build Tensor}
    (h : ∀ k length dim, (∀ size, length = some size → size.Canonical) →
      (next (k, length, dim)).DescribesIn g) :
    (referenceAxis operation t axis >>= next).DescribesIn g := by
  refine describes_of_read fun ⟨k, length, dim⟩ hread => h k length dim ?_
  rintro size rfl
  simp only [bind_eq_ok, pure_eq_ok, Prod.mk.injEq] at hread
  obtain ⟨_, _, lengths, hlengths, _, _, _, hsize, _⟩ := hread
  have hcanonical := (ht.lengths hlengths).canonical
  rw [Size.pinned_of_integral fun s hs => (hcanonical s hs).integral] at hsize
  exact hcanonical size (List.mem_of_getElem? hsize)

omit [Unbounded] in
/-- A length in normal form may be declared for any number of axes. -/
theorem replicated_canonical {length : Option Size}
    (hlength : ∀ size, length = some size → size.Canonical) (count : Nat) :
    ∀ q, some q ∈ (length.map fun size =>
      List.replicate count (some (Quantity.size size))).getD [] → ∀ s ∈ q.given, s.Canonical := by
  intro q hq s hs
  cases length with
  | none => cases hq
  | some size =>
      obtain rfl : q = .size size := Option.some.inj (List.eq_of_mem_replicate hq)
      obtain rfl := List.mem_singleton.mp hs
      exact hlength s rfl

/-- The positions along an axis are described, as the length of the axis is in normal form. -/
theorem arange_describes (ht : g.Described t) (axis : Number) : (arange t axis).DescribesIn g :=
  generator_describes ht fun _ _ _ hlength =>
    addFunction_describes _ _ _ _ (replicated_canonical hlength 1)

theorem causalMask_describes (ht : g.Described t) (axis : Number) :
    (causalMask t axis).DescribesIn g :=
  generator_describes ht fun _ _ _ hlength =>
    addFunction_describes _ _ _ _ (replicated_canonical hlength 2)

/-! ### Views -/

omit [Unbounded] in
/-- A permuted view is described by the permuted shape. -/
theorem permute_describes (ht : g.Described t) (axes : List Number) :
    (permute t axes).DescribesIn g := by
  refine (permute_derives t axes).describes fun found => ?_
  have hshape := ht.of_check found.node_eq
  have hrank := hshape.rank_eq
  obtain ⟨hwithin, hpicked⟩ := Axis.pick_eq_ok.mp found.shape_eq
  have hwithin' : Axis.Within found.positions found.node.view.rank := hrank ▸ hwithin
  obtain ⟨hwell, _, hshown⟩ := View.permute_ok hshape.wellFormed hwithin' found.view_eq
  refine ⟨hwell, ?_⟩
  show List.Forall₂ _ found.shape found.view.shown
  rw [hpicked, hshown]
  exact Axis.forall₂_picked hshape.shown hwithin

/-- An expansion along an axis is described by its dimension and those of the operand. -/
theorem expand_describes (ht : g.Described t) (axis : Number) (dim : Dimension) :
    (expand t axis dim).DescribesIn g := by
  refine (expand_derives t axis dim).describes fun found => ?_
  have hshape := ht.of_check found.node_eq
  have hrank : t.rank = found.node.view.rank := hshape.rank_eq
  have hposition := Axis.position_lt found.position_eq
  have hle : found.position ≤ found.node.view.rank := by omega
  have hdim : dim.Describes (.whole found.size true) :=
    Dimension.Admits.describes_whole (.own found.size_eq) true
  obtain ⟨hwell, _, hshown⟩ :=
    View.expand_ok hshape.wellFormed hle (Dimension.fits_of_size found.size_eq).1 found.view_eq
  refine ⟨hwell, ?_⟩
  show List.Forall₂ _ (Axis.insertAt t.shape found.position dim) found.view.shown
  rw [hshown]
  exact Axis.forall₂_insertAt hshape.shown found.position hdim

/-- A slice is described by the dimensions that it leaves, if its bounds are in normal form. -/
theorem slice_describes (ht : g.Described t) {specs : List RangeSpec}
    (hspecs : ∀ spec ∈ specs, ∀ s ∈ spec.given, s.Canonical) :
    (slice t specs).DescribesIn g := by
  refine (slice_derives t specs).describes fun found => ?_
  have hshape := ht.of_check found.node_eq
  have hlengths : found.lengths = found.node.view.shown.map AxisRange.length :=
    View.eq_of_lengths hshape.wellFormed found.lengths_eq
  have hmapping := found.mapping_eq
  rw [hlengths] at hmapping
  simp only [mapSlice, ite_error_eq_ok] at hmapping
  obtain ⟨hspans, hdescribed⟩ := mapAxes_describes hspecs hshape.shown hmapping.2
  obtain ⟨hwell, _, hshown⟩ := View.slice_ok hshape.wellFormed found.view_eq
  refine ⟨hwell, ?_⟩
  show List.Forall₂ _ found.mapping.shape found.view.shown
  rw [hshown, hspans, List.drop_length, List.append_nil]
  exact hdescribed

/-- An expansion to a shape is described by that shape. -/
theorem expandTo_describes (ht : g.Described t) (target : Shape) :
    (expandTo t target).DescribesIn g := by
  refine (expandTo_derives t target).describes fun found => ?_
  have hshape := ht.of_check found.node_eq
  have hlengths : found.lengths = found.node.view.shown.map AxisRange.length :=
    View.eq_of_lengths hshape.wellFormed found.lengths_eq
  have haligned := found.aligned_eq
  rw [hlengths] at haligned
  have hnone : found.node.view.shown = [] ++ found.node.view.shown := rfl
  have hrank : t.rank = found.node.view.shown.length := hshape.shown.length_eq
  have hlower := found.not_lower
  have hcount : target.length - t.rank + 0 + found.node.view.shown.length = target.length := by
    omega
  obtain ⟨hav, hai, kept, hkept, hdescribed⟩ :=
    alignAxes_describes hshape.wellFormed hshape.integral hnone hshape.canonical hcount haligned
  obtain ⟨hwell, _, leading, hleading, hleads⟩ := leadAxes_ok hav hai found.view_eq
  refine ⟨hwell, ?_⟩
  show List.Forall₂ _ target found.view.shown
  rw [hleading, hkept, ← List.take_append_drop (target.length - t.rank) target]
  exact List.rel_append (hleads.imp fun _ _ hdim => hdim.describes) hdescribed

/-! ### Storage of their own -/

/-- A draft with the shape and the lengths of its operand is described as the operand is. -/
theorem pointwise_draft_describes (ht : g.Described t) {kind : OpKind}
    (found : Found.Pointwise g kind t) (attributes : Entries Value) :
    (found.draft attributes).shape.Describes (found.draft attributes).view :=
  (found.admits ht).describes_contiguous

theorem pointwise_describes (ht : g.Described t) (kind : OpKind) :
    (pointwise kind t).DescribesIn g :=
  (pointwise_derives kind t).describes fun found => pointwise_draft_describes ht found []

theorem scalar_describes (ht : g.Described t) (op : ScalarOp) (value : Number) :
    (scalar op t value).DescribesIn g :=
  (scalar_derives op t value).describes fun found => pointwise_draft_describes ht found _

theorem softmax_describes (ht : g.Described t) (axis : Number) :
    (softmax t axis).DescribesIn g :=
  (softmax_derives t axis).describes fun found =>
    pointwise_draft_describes ht found.toPointwise _

/-- A reduction is described by the shape with its axis replaced by one. -/
theorem reduce_describes (ht : g.Described t) (op : ReduceOp) (axis : Number) :
    (reduce op t axis).DescribesIn g :=
  (reduce_derives op t axis).describes fun found =>
    Shape.Admits.describes_contiguous
      (Axis.forall₂_removeAt (found.admits ht) found.position)

/-- An operation on two tensors is described by the shape of the first one. -/
theorem binary_describes (ha : g.Described a) (op : BinaryOp) (b : Tensor) :
    (binary op a b).DescribesIn g :=
  (binary_derives op a b).describes fun found =>
    (ha.lengths found.left_eq).describes_contiguous

/-- The last axis of a product is that of the second factor. -/
theorem matmul_describes (ha : g.Described a) (hb : g.Described b) :
    (matmul a b).DescribesIn g := by
  refine (matmul_derives a b).describes fun found => ?_
  have hleft := Axis.forall₂_dropLast (ha.lengths found.left_eq)
  have hlast := (forall₂_iff_getElem?.mp (hb.lengths found.right_eq)).2 _ _ _ found.dim_eq
    found.width_eq
  exact Shape.Admits.describes_contiguous (List.rel_append hleft (.cons hlast .nil))

/-- A concatenation is described by the shape with its lengths added on the joined axis. -/
theorem concat_describes (ha : g.Described a) (hb : g.Described b) (axis : Number) :
    (concat a b axis).DescribesIn g := by
  refine (concat_derives a b axis).describes fun found => ?_
  have hleft := ha.lengths found.left_eq
  have hright := hb.lengths found.right_eq
  have hlt : found.position < found.left.length :=
    hleft.length_eq ▸ (List.getElem?_eq_some_iff.mp found.first_dim_eq).1
  have hsizes := found.sizes_eq
  simp only [joinedSizes, List.getElem?_eq_getElem hlt, bind_eq_ok, pure_eq_ok,
    lengthAt_eq_ok] at hsizes
  obtain ⟨other, hother, hset⟩ := hsizes
  have hfirst := (forall₂_iff_getElem?.mp hleft).2 _ _ _ found.first_dim_eq
    (List.getElem?_eq_getElem hlt)
  have hsecond := (forall₂_iff_getElem?.mp hright).2 _ _ _ found.second_dim_eq hother
  have hjoined := joinedDimension_admits hfirst hsecond found.dim_eq
  refine Shape.Admits.describes_contiguous ?_
  rw [← hset]
  exact forall₂_set hleft found.position hjoined

/-- The axes of a target are derived from the lengths of the operand, which may be laid out
before. -/
theorem reshape_describes (ht : g.Described t) (target : List ReshapeEntry) :
    (reshape t target).DescribesIn g := by
  have hdraft : ∀ (found : Found.Reshape g t target) (source : Tensor),
      (found.draft source).shape.Describes (found.draft source).view := by
    intro found source
    have hlengths := found.admits ht
    have haxes := found.axes_eq
    rw [Size.pinned_of_integral fun s hs => (hlengths.canonical s hs).integral] at haxes
    exact (targetAxes_admits hlengths haxes).describes_contiguous
  intro u g' hok
  rcases reshape_cases t target with ⟨fault, h⟩ | ⟨found, ⟨_, h⟩ | ⟨first, h⟩⟩
  · cases hok.symm.trans h
  · obtain ⟨hu, rfl⟩ := Prod.mk.inj (hok.symm.trans h)
    obtain rfl := Except.ok.inj hu
    exact ⟨_, g.append_behind _ (hdraft found t).integral, hdraft found t⟩
  · obtain ⟨hu, rfl⟩ := Prod.mk.inj (hok.symm.trans h)
    obtain rfl := Except.ok.inj hu
    have hreshaped := hdraft found (handle g t.shape)
    exact ⟨_, Graph.append_behind _ _ hreshaped.integral, hreshaped⟩

omit [Unbounded] in
/-- A relabelled tensor has the view that it had. -/
theorem realize_describes (hg : g.WellFormed) (hissued : g.Issued t) (ht : g.Described t)
    (shape : Shape) : (realize t shape).DescribesIn g := by
  intro u g' hok
  rcases realize_cases t shape with ⟨fault, h⟩ | ⟨found, h⟩
  · cases hok.symm.trans h
  obtain ⟨hu, rfl⟩ := Prod.mk.inj (hok.symm.trans h)
  obtain rfl := Except.ok.inj hu
  have hop := hissued.operand hg found.node_eq
  have hshape := ht.of_check found.node_eq
  have hlengths := found.admits ht
  have hcount : 0 + shape.length = found.lengths.length := by
    rw [← hlengths.length_eq, found.rank_eq, Nat.zero_add, Tensor.rank]
  have hadmits := relabelEqualities_admits hlengths.canonical hcount found.equalities_eq
  rw [List.drop_zero] at hadmits
  exact ⟨found.node, ⟨rfl, found.node.id, rfl, hop.at_id⟩,
    hshape.relabelled found.lengths_eq hadmits⟩

end Build

/-! ## Sessions -/

section

variable [Unbounded] {s : Session}

open Build in
/-- **Every handle that a command issues** has a shape that describes the view behind it. -/
theorem Command.describes {command : Command} (hg : g.WellFormed) {issued : List Tensor}
    (hissued : ∀ t ∈ issued, g.Issued t ∧ g.Described t)
    (hgiven : ∀ s ∈ command.given, s.Canonical) : (command.step issued).DescribesIn g := by
  have hdescribed : ∀ t ∈ issued, g.Described t := fun t ht => (hissued t ht).2
  cases command with
  | newTensor name shape => exact newTensor_describes name shape
  | constant value => exact constant_describes value
  | addFunction name inputs shape payload sizes =>
      exact describes_of_operands fun tensors =>
        addFunction_describes name tensors shape payload fun q hq s hs =>
          hgiven s (List.mem_flatMap.mpr ⟨some q, hq, hs⟩)
  | realize t shape =>
      exact describes_of_operand fun t ht =>
        realize_describes hg (hissued t ht).1 (hissued t ht).2 shape
  | slice t specs =>
      exact describes_of_operand fun t ht =>
        slice_describes (hdescribed t ht) fun spec hspec s hs =>
          hgiven s (List.mem_flatMap.mpr ⟨spec, hspec, hs⟩)
  | permute t axes =>
      exact describes_of_operand fun t ht => permute_describes (hdescribed t ht) axes
  | reshape t target =>
      exact describes_of_operand fun t ht => reshape_describes (hdescribed t ht) target
  | expand t axis dim =>
      exact describes_of_operand fun t ht => expand_describes (hdescribed t ht) axis dim
  | expandTo t target =>
      exact describes_of_operand fun t ht => expandTo_describes (hdescribed t ht) target
  | concat a b axis =>
      exact describes_of_operand fun a ha => describes_of_operand fun b hb =>
        concat_describes (hdescribed a ha) (hdescribed b hb) axis
  | contiguous t =>
      exact describes_of_operand fun t ht => pointwise_describes (hdescribed t ht) .contiguous
  | unary op t =>
      exact describes_of_operand fun t ht => pointwise_describes (hdescribed t ht) (.unary op)
  | binary op a b =>
      exact describes_of_operand fun a ha => describes_of_operand fun b _ =>
        binary_describes (hdescribed a ha) op b
  | scalar op t value =>
      exact describes_of_operand fun t ht => scalar_describes (hdescribed t ht) op value
  | reduce op t axis =>
      exact describes_of_operand fun t ht => reduce_describes (hdescribed t ht) op axis
  | softmax t axis =>
      exact describes_of_operand fun t ht => softmax_describes (hdescribed t ht) axis
  | matmul a b =>
      exact describes_of_operand fun a ha => describes_of_operand fun b hb =>
        matmul_describes (hdescribed a ha) (hdescribed b hb)
  | arange like axis =>
      exact describes_of_operand fun t ht => arange_describes (hdescribed t ht) axis
  | causalMask like axis =>
      exact describes_of_operand fun t ht => causalMask_describes (hdescribed t ht) axis

namespace Session

/-- The shapes of all handles describe the views behind them. -/
structure Described (s : Session) : Prop extends s.WellFormed where
  described : ∀ t ∈ s.issued, s.graph.Described t

omit [Unbounded] in
/-- A session that has issued nothing has nothing to describe. -/
theorem start_described (id : Nat) (settings : GraphSettings) :
    (start id settings).Described :=
  ⟨start_wellFormed id settings, fun _ ht => nomatch ht⟩

/-- A command on sizes in normal form leaves the shapes of all handles as descriptions. -/
theorem step_described (hs : s.Described) {command : Command}
    (hgiven : ∀ s ∈ command.given, s.Canonical) : (s.step command).Described := by
  have hcommand := Command.integral_of_given fun s hs => (hgiven s hs).integral
  obtain ⟨hwell, hext⟩ := step_wellFormed hs.toWellFormed hcommand
  refine ⟨hwell, ?_⟩
  have hissued : ∀ t ∈ s.issued, s.graph.Issued t ∧ s.graph.Described t :=
    fun t ht => ⟨hs.issued t ht, hs.described t ht⟩
  have hnew := command.describes hs.graph hissued hgiven
  unfold step at hext ⊢
  split
  · next t g hperform =>
    rw [hperform] at hext
    rw [List.forall_mem_append, List.forall_mem_singleton]
    exact ⟨fun t ht => hext.described (hs.described t ht), hnew t g hperform⟩
  · next g hperform =>
    rw [hperform] at hext
    exact fun t ht => hext.described (hs.described t ht)

/-- **After any commands the shape of every handle describes the view behind it.** -/
theorem run_described (hs : s.Described) {commands : List Command}
    (hgiven : ∀ command ∈ commands, ∀ s ∈ command.given, s.Canonical) :
    (s.run commands).Described := by
  induction commands generalizing s with
  | nil => exact hs
  | cons command rest ih =>
      obtain ⟨hcommand, hrest⟩ := List.forall_mem_cons.mp hgiven
      exact ih (step_described hs hcommand) hrest

end Session

end

end

/-- **Sizes that callers can have made**, and nothing rounded on the way: then the shapes of all
handles describe the views behind them. -/
theorem Session.described_of_run {id : Nat} {settings : GraphSettings} {commands : List Command}
    {s : Session} (hgiven : ∀ command ∈ commands, ∀ size ∈ command.given, size.Made)
    (hs : (start id settings).run commands = s)
    (hrun : Exact fun _ => (start id settings).run commands) : @Described .unbounded s := by
  have hrun : @run .unbounded (start id settings) commands = s := hrun.symm.trans hs
  rw [← hrun]
  exact @run_described .unbounded _ _ (@start_described .unbounded id settings) commands
    fun command hcommand size hsize => (hgiven command hcommand size hsize).canonical

end ShapeGraph
