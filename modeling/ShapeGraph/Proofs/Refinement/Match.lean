import ShapeGraph.Proofs.Graph.Operand
import ShapeGraph.Proofs.Refinement.Ground

/-!
# Graphs that match

Two graphs match if the one has sizes that are ready throughout and the other
one literals, and all equalities that are recorded on the one are met.  Nothing
is recorded on the other: literals are compared at once.  The nodes themselves
are not compared, because a reshape may lay out its input in one graph and not
in the other.  What is compared are the handles, each with the node behind it.

* `ShapesMatch`, `HandlesMatch`, `DraftsMatch`, `GraphsMatch` — what matches on
  the two sides;
* `Advances` — a step that goes through on the one side if it does on the other,
  and ends in handles and graphs that match;
* `derive_advances` — nodes derived from drafts that match.
-/

namespace ShapeGraph

open ShapeGraph.Numeric (Arithmetic Number Unbounded)

/-! ## Shapes -/

/-- A dimension that is constant on one side is the same constant on the other
side. -/
def Dimension.Matches : Dimension → Dimension → Prop
  | constant v, other => other = constant v
  | dynamic _, _ => True

/-- Axis by axis, constants on one side are the same constants on the other. -/
def ShapesMatch (shape other : Shape) : Prop :=
  List.Forall₂ Dimension.Matches shape other

namespace ShapesMatch

variable {shape other : Shape}

/-- Shapes still match when the dimensions of one axis are replaced by others that match. -/
theorem set (h : ShapesMatch shape other) (axis : Nat) {dim dim' : Dimension}
    (hdim : dim.Matches dim') : ShapesMatch (shape.set axis dim) (other.set axis dim') := by
  induction h generalizing axis with
  | nil => exact .nil
  | cons hhead htail ih =>
      cases axis with
      | zero => exact .cons hdim htail
      | succ axis => exact .cons hhead (ih axis)

theorem insertAt (h : ShapesMatch shape other) (axis : Nat) {dim dim' : Dimension}
    (hdim : dim.Matches dim') :
    ShapesMatch (Axis.insertAt shape axis dim) (Axis.insertAt other axis dim') :=
  List.rel_append (List.forall₂_take axis h) (.cons hdim (List.forall₂_drop axis h))

theorem removeAt (h : ShapesMatch shape other) (axis : Nat) :
    ShapesMatch (Axis.removeAt shape axis) (Axis.removeAt other axis) :=
  List.rel_append (List.forall₂_take axis h) (List.forall₂_drop (axis + 1) h)

/-- Shapes still match when their last dimensions are replaced by others that match. -/
theorem dropLast_append (h : ShapesMatch shape other) {dim dim' : Dimension}
    (hdim : dim.Matches dim') :
    ShapesMatch (shape.dropLast ++ [dim]) (other.dropLast ++ [dim']) := by
  rw [List.dropLast_eq_take, List.dropLast_eq_take, ← h.length_eq]
  exact List.rel_append (List.forall₂_take _ h) (.cons hdim .nil)

/-- The dimensions of an axis match. -/
theorem at_axis (h : ShapesMatch shape other) {axis : Nat} {dim dim' : Dimension}
    (hdim : shape[axis]? = some dim) (hdim' : other[axis]? = some dim') : dim.Matches dim' := by
  obtain ⟨hlt, rfl⟩ := List.getElem?_eq_some_iff.mp hdim
  obtain ⟨hlt', rfl⟩ := List.getElem?_eq_some_iff.mp hdim'
  exact (List.forall₂_iff_get.mp h).2 axis hlt hlt'

/-- A dimension that is looked up on both sides matches. -/
theorem dimAt_follows (h : ShapesMatch shape other) (axis : Number) :
    Follows Dimension.Matches (shape.dimAt axis) (other.dimAt axis) := by
  intro dim' hdim'
  unfold Shape.dimAt at hdim' ⊢
  split at hdim'
  · next held hheld =>
    obtain rfl := Except.ok.inj hdim'
    obtain ⟨k, hk, hget⟩ := Option.bind_eq_some_iff.mp hheld
    have hlt : k < shape.length := h.length_eq ▸ (List.getElem?_eq_some_iff.mp hget).1
    rw [hk, Option.bind_some, List.getElem?_eq_getElem hlt]
    exact ⟨_, rfl, h.at_axis (List.getElem?_eq_getElem hlt) hget⟩
  · cases hdim'

/-- The dimensions that are picked on both sides match. -/
theorem pick_follows (h : ShapesMatch shape other) (axes : List Number) :
    Follows ShapesMatch (Axis.pick shape axes) (Axis.pick other axes) := by
  induction axes with
  | nil => exact .ok .nil
  | cons axis rest ih =>
      intro picked' hpicked'
      unfold Axis.pick at hpicked' ⊢
      split at hpicked'
      · next held hheld =>
        obtain ⟨k, hk, hget⟩ := Option.bind_eq_some_iff.mp hheld
        have hlt : k < shape.length := h.length_eq ▸ (List.getElem?_eq_some_iff.mp hget).1
        rw [hk, Option.bind_some, List.getElem?_eq_getElem hlt]
        simp only [bind_eq_ok, pure_eq_ok] at hpicked' ⊢
        obtain ⟨others, hothers, rfl⟩ := hpicked'
        obtain ⟨picked, hpicked, hrest⟩ := ih others hothers
        exact ⟨_, ⟨picked, hpicked, rfl⟩,
          .cons (h.at_axis (List.getElem?_eq_getElem hlt) hget) hrest⟩
      · cases hpicked'

end ShapesMatch

/-! ## Handles -/

/-- Two handles whose shapes match, on nodes whose views match. -/
structure OperandsMatch (known : String → Prop) (ρ : Valuation) (g g' : Graph) (t t' : Tensor)
    (node node' : Node) : Prop where
  behind : g.Behind t node
  behind' : g'.Behind t' node'
  views : ViewsMatch known ρ node.view node'.view
  rank_eq : node.view.rank = t.rank
  shapes : ShapesMatch t.shape t'.shape

/-- Two handles with nodes behind them that match. -/
def HandlesMatch (known : String → Prop) (ρ : Valuation) (g g' : Graph) (t t' : Tensor) : Prop :=
  ∃ node node', OperandsMatch known ρ g g' t t' node node'

variable {known : String → Prop} {ρ : Valuation} {g g' h h' : Graph} {t t' : Tensor}

/-- Handles that match have the same rank. -/
theorem HandlesMatch.rank_eq (ht : HandlesMatch known ρ g g' t t') : t.rank = t'.rank := by
  obtain ⟨_, _, hop⟩ := ht
  exact hop.shapes.length_eq

/-- Handles that match still do when both graphs have grown. -/
theorem HandlesMatch.later (ht : HandlesMatch known ρ g g' t t') (hext : h.Extends g)
    (hext' : h'.Extends g') : HandlesMatch known ρ h h' t t' := by
  obtain ⟨node, node', hop⟩ := ht
  exact ⟨node, node', { hop with
    behind := hext.behind hop.behind
    behind' := hext'.behind hop.behind' }⟩

/-- What a check finds on both sides matches. -/
theorem HandlesMatch.check_follows (ht : HandlesMatch known ρ g g' t t') (operation : String) :
    Follows (OperandsMatch known ρ g g' t t') (g.check operation t) (g'.check operation t') := by
  obtain ⟨node, node', hop⟩ := ht
  intro other hother
  obtain rfl := (Graph.check_eq_ok.mp hother).unique hop.behind'
  exact ⟨node, Graph.check_eq_ok.mpr hop.behind, hop⟩

section

variable [Arithmetic] [Unbounded]

/-- Operands that match have lengths that match, one for each axis. -/
theorem OperandsMatch.lengths_follows {node node' : Node}
    (hop : OperandsMatch known ρ g g' t t' node node') :
    Follows (fun lengths others => SizesMatch known ρ lengths others ∧ lengths.length = t.rank)
      node.view.lengths node'.view.lengths :=
  hop.rank_eq ▸ hop.views.lengths_follows

/-- Handles that match have lengths that match, one for each axis. -/
theorem HandlesMatch.lengths_follows (ht : HandlesMatch known ρ g g' t t') :
    Follows (fun lengths others => SizesMatch known ρ lengths others ∧ lengths.length = t.rank)
      (g.lengths t) (g'.lengths t') :=
  .bind (.bind (ht.check_follows _) fun _ _ hop =>
    .ok (R := fun v v' => ViewsMatch known ρ v v' ∧ v.rank = t.rank) ⟨hop.views, hop.rank_eq⟩)
    fun _ _ hv => hv.2 ▸ hv.1.lengths_follows

end

/-! ## Drafts -/

/-- Two drafts that match, the inputs of the first of which are found. -/
structure DraftsMatch (known : String → Prop) (ρ : Valuation) (g : Graph) (draft other : Draft) :
    Prop where
  kind : draft.kind ≠ .function
  kind_eq : other.kind = draft.kind
  views : ViewsMatch known ρ draft.view other.view
  rank_eq : draft.view.rank = draft.shape.length
  shapes : ShapesMatch draft.shape other.shape
  equalities : EqualitiesMatch known ρ draft.equalities other.equalities
  inputs : ∃ ids, draft.inputs.mapM (g.inputId draft.kind) = .ok ids

/-- Drafts that match are started from views and shapes that match. -/
theorem start_follows (g : Graph) {kind : OpKind} (hkind : kind ≠ .function)
    {shape other : Shape} {v w : View} (hshapes : ShapesMatch shape other)
    (hviews : ViewsMatch known ρ v w) :
    Follows (DraftsMatch known ρ g) (Draft.start kind shape v) (Draft.start kind other w) := by
  intro draft' hdraft'
  obtain ⟨hrank, rfl⟩ := Draft.start_eq_ok.mp hdraft'
  have hrank' : v.rank = shape.length := by
    rw [hshapes.length_eq, ← hrank, hviews.eq, View.rank_ground]
  exact ⟨_, Draft.start_eq_ok.mpr ⟨hrank', rfl⟩, hkind, rfl, hviews, hrank', hshapes, .nil, [], rfl⟩

namespace DraftsMatch

variable {draft other : Draft}

/-- Drafts that match still do when both are given operands, those on the first side being
there. -/
theorem ofTensors (hd : DraftsMatch known ρ g draft other) {tensors tensors' : List Tensor}
    {nodes : List Node} (hnodes : List.Forall₂ g.Behind tensors nodes) :
    DraftsMatch known ρ g (draft.ofTensors tensors) (other.ofTensors tensors') :=
  { hd with inputs := ⟨_, inputs_ok hnodes⟩ }

/-- A draft may rely on equalities that are met, and still matches one that relies on none. -/
theorem relying (hd : DraftsMatch known ρ g draft other) {equalities equalities' : List Equality}
    (he : EqualitiesMatch known ρ equalities equalities') :
    DraftsMatch known ρ g (draft.relying equalities) (other.relying equalities') :=
  { hd with equalities := by rwa [Draft.equalities_relying, Draft.equalities_relying] }

/-- Attributes do not matter to a match. -/
theorem setAttribute (hd : DraftsMatch known ρ g draft other) (key : String)
    (value value' : Value) :
    DraftsMatch known ρ g (draft.setAttribute key value) (other.setAttribute key value') := by
  unfold Draft.setAttribute
  split
  · exact hd
  · exact { hd with }

end DraftsMatch

/-! ## Graphs -/

/-- A graph without host computations, whose views are ready and whose recorded
equalities are met. -/
structure Graph.Ready (known : String → Prop) (ρ : Valuation) (g : Graph) : Prop where
  nodes : ∀ node ∈ g.nodes, node.kind ≠ .function ∧ node.view.Ready known ρ
  obligations : ∀ o ∈ g.obligations, o.equality.Met known ρ

/-- A graph that is ready, and another one that is ready without any symbols and
has recorded nothing. -/
structure GraphsMatch (known : String → Prop) (ρ : Valuation) (g g' : Graph) : Prop where
  ready : g.Ready known ρ
  ready' : g'.Ready (Bindings.Bound []) ρ
  unrecorded : g'.obligations = []

/-- A graph stays ready when a draft without a computation is appended, whose view is ready and
whose equalities are met. -/
theorem Graph.Ready.append (hg : g.Ready known ρ) {draft : Draft} (inputs : List Nat)
    (hkind : draft.kind ≠ .function) (hview : draft.view.Ready known ρ)
    (he : ∀ e ∈ draft.equalities, e.Met known ρ) : (g.append draft inputs).Ready known ρ where
  nodes := by
    rw [append_nodes, hview.integral.settle_eq, List.forall_mem_append]
    exact ⟨hg.nodes, by simpa using ⟨hkind, hview⟩⟩
  obligations := by
    show ∀ o ∈ g.obligations ++ draft.pending.map (Pending.on g.size), _
    rw [List.forall_mem_append, Pending.forall_mem_on]
    exact ⟨hg.obligations, he⟩

/-! ## Steps -/

/-- A step on one graph goes through if one on the other does, and what they issue
and leave behind matches. -/
def Advances (known : String → Prop) (ρ : Valuation) (g g' : Graph)
    (x y : Except Fault Tensor × Graph) : Prop :=
  Follows (fun t t' => HandlesMatch known ρ x.2 y.2 t t' ∧ GraphsMatch known ρ x.2 y.2 ∧
    x.2.Extends g ∧ y.2.Extends g') x.1 y.1

namespace Advances

variable {x y : Except Fault Tensor × Graph}

/-- A step on graphs that have grown is one on the earlier graphs. -/
theorem later (ha : Advances known ρ h h' x y) (hext : h.Extends g) (hext' : h'.Extends g') :
    Advances known ρ g g' x y :=
  ha.mono fun _ _ ⟨ht, hm, hx, hy⟩ => ⟨ht, hm, hx.trans hext, hy.trans hext'⟩

/-- Appending drafts that match. -/
theorem appended (hg : GraphsMatch known ρ g g') {draft other : Draft}
    (hd : DraftsMatch known ρ g draft other) (ids ids' : List Nat) :
    Advances known ρ g g' (.ok (Build.handle g draft.shape), g.append draft ids)
      (.ok (Build.handle g' other.shape), g'.append other ids') := by
  obtain ⟨hnone, hmet⟩ := hd.equalities
  have hview' : other.view.Ready (Bindings.Bound []) ρ := hd.views.eq ▸ hd.views.ready.ground
  have hop := OperandsMatch.mk (g.append_behind ids hd.views.ready.integral)
    (g'.append_behind ids' hview'.integral) hd.views hd.rank_eq hd.shapes
  refine .ok ⟨⟨_, _, hop⟩, ⟨?_, ?_, ?_⟩, g.append_extends _ _, g'.append_extends _ _⟩
  · exact hg.ready.append ids hd.kind hd.views.ready hmet
  · exact hg.ready'.append ids' (hd.kind_eq ▸ hd.kind) hview' (by simp [hnone])
  · show g'.obligations ++ other.pending.map (Pending.on g'.size) = []
    rw [hg.unrecorded, List.map_eq_nil_iff.mp hnone]
    rfl

/-- A node is derived on one side if one is on the other. -/
theorem derive (hg : GraphsMatch known ρ g g') {plan plan' : Graph → Except Fault Draft}
    (hplan : Follows (DraftsMatch known ρ g) (plan g) (plan' g')) :
    Advances known ρ g g' ((Build.derive plan).perform g) ((Build.derive plan').perform g') := by
  rw [Build.perform_derive plan' g']
  cases hplanned : Build.planned plan' g' with
  | error fault => exact .refused _ _
  | ok result =>
      obtain ⟨other, ids'⟩ := result
      obtain ⟨hother, _⟩ := Build.planned_eq_ok.mp hplanned
      obtain ⟨draft, hdraft, hd⟩ := hplan other hother
      obtain ⟨ids, hids⟩ := hd.inputs
      rw [Build.perform_derive_ok hdraft hids]
      exact appended hg hd ids ids'

/-- What follows two readings that match. -/
theorem read {α β : Type} {R : α → β → Prop} {f : Graph → Except Fault α}
    {f' : Graph → Except Fault β} {next : α → Build Tensor} {next' : β → Build Tensor}
    (hf : Follows R (f g) (f' g'))
    (hnext : ∀ a b, R a b → Advances known ρ g g' ((next a).perform g) ((next' b).perform g')) :
    Advances known ρ g g' ((Build.read f >>= next).perform g)
      ((Build.read f' >>= next').perform g') := by
  cases hb : f' g' with
  | error fault =>
      rw [Build.perform_read_bind_error hb]
      exact .refused _ _
  | ok b =>
      obtain ⟨a, ha, hab⟩ := hf b hb
      rw [Build.perform_read_bind ha, Build.perform_read_bind hb]
      exact hnext a b hab

end Advances

end ShapeGraph
