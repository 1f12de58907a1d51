import ShapeGraph.Proofs.Graph.Change
import ShapeGraph.Proofs.Graph.Invariant
import ShapeGraph.Proofs.Size.Settled

/-!
# Where recorded equalities come from

An equality is recorded where two sizes cannot be compared yet.  One of its sides is the
length of an axis of an operand, or a size that has been declared for the new node, or a
product of lengths.  The other side is of the same kind, or is the size of a dimension,
which is a literal or a bare symbol.  So once the views are settled up to the node that an
equality is recorded on, at most a bare symbol is left of it.

* `View.Settled`, `Graph.Determines` — a view that is settled, and a size that is settled
  once the views before some place are;
* `Equality.Origin` — what the sides of a recorded equality are;
* `Graph.Traced` — the invariant: every recorded equality has an origin;
* `Session.step_traced`, `Session.run_traced` — it holds after one command, and after any
  number of them.
-/

namespace ShapeGraph

open ShapeGraph.Numeric (Arithmetic Number Unbounded)

/-! ## Settled views -/

/-- Both bounds of a range are settled. -/
structure AxisRange.Settled [Arithmetic] (bindings : Bindings) (range : AxisRange) : Prop where
  start : range.start.Settled bindings
  stop : range.stop.Settled bindings

/-- All bounds of a view are settled. -/
def View.Settled [Arithmetic] (bindings : Bindings) (v : View) : Prop :=
  ∀ range ∈ v.shown, range.Settled bindings

/-- The lengths of the axes of a view, in logical order. -/
def View.axisLengths [Arithmetic] (v : View) : List Size :=
  v.shown.map AxisRange.length

/-- A size that is a literal or a bare symbol. -/
def Size.Atomic : Size → Prop
  | literal _ => True
  | symbol _ => True
  | binary .. => False

/-- The size of a dimension is a literal or a bare symbol. -/
theorem Dimension.atomic_of_size {dim : Dimension} {size : Size}
    (h : dim.size? = .ok (some size)) : size.Atomic := by
  cases dim with
  | constant v =>
      simp only [size?, Size.ofNumber, bind_eq_ok, ite_ok_eq_ok, pure_eq_ok,
        Option.some.injEq] at h
      obtain ⟨_, ⟨_, rfl⟩, rfl⟩ := h
      trivial
  | dynamic symbol =>
      rw [size?] at h
      split at h
      · cases h
      · simp only [Size.ofSymbol, bind_eq_ok, ite_error_eq_ok, pure_eq_ok, Except.ok.injEq,
          Option.some.injEq] at h
        obtain ⟨_, ⟨_, rfl⟩, rfl⟩ := h
        trivial

namespace View

variable [Arithmetic] [Unbounded] {v : View} {bindings lower : Bindings}

/-- The lengths of the axes of a view of integers are made of integers. -/
theorem axisLengths_integral (hi : v.Integral) : ∀ s ∈ v.axisLengths, s.Integral := by
  intro s hs
  obtain ⟨range, hrange, rfl⟩ := List.mem_map.mp hs
  exact (AxisRange.length_means (hi.of_mem_shown hrange)).integral

/-- Where all bounds of a view are settled, the lengths of its axes are. -/
theorem Settled.axisLengths (h : v.Settled bindings) (hi : v.Integral) (hb : bindings.Integral) :
    ∀ s ∈ v.axisLengths, s.Settled bindings := by
  intro s hs
  obtain ⟨range, hrange, rfl⟩ := List.mem_map.mp hs
  have hsettled := h range hrange
  have hintegral := hi.of_mem_shown hrange
  exact hsettled.stop.sub hintegral.stop hintegral.start hb hsettled.start

/-- Ranges that have been resolved under some bindings are settled under all later ones. -/
theorem resolveFrom_settled {axis : Nat} {ranges : List AxisRange} {resolved : List ConcreteRange}
    (hi : ∀ range ∈ ranges, range.Integral) (hb : bindings.Integral)
    (hbelow : lower.Below bindings) (h : resolveFrom lower axis ranges = .ok resolved) :
    ∀ range ∈ ranges, range.Settled bindings := by
  induction ranges generalizing axis resolved with
  | nil => exact List.forall_mem_nil _
  | cons range rest ih =>
      obtain ⟨hrange, hrest⟩ := List.forall_mem_cons.mp hi
      simp only [resolveFrom, bind_eq_ok, ite_error_eq_ok, pure_eq_ok] at h
      obtain ⟨start, hstart, stop, hstop, _, others, hothers, _⟩ := h
      have hbounds : range.Settled bindings :=
        ⟨Size.settled_of_evaluate hrange.start hb hbelow hstart,
          Size.settled_of_evaluate hrange.stop hb hbelow hstop⟩
      exact List.forall_mem_cons.mpr ⟨hbounds, ih hrest hothers⟩

/-- **A view that has been resolved is settled**, and stays so. -/
theorem settled_of_resolve (hv : v.WellFormed) (hi : v.Integral) (hb : bindings.Integral)
    (hbelow : lower.Below bindings) {resolved : ResolvedView}
    (h : v.resolve lower = .ok resolved) : v.Settled bindings := by
  simp only [resolve, ranges_eq hv, bind_eq_ok, Except.ok.injEq, exists_eq_left'] at h
  obtain ⟨ranges, hranges, _⟩ := h
  exact resolveFrom_settled (fun range hr => hi.of_mem_shown hr) hb hbelow hranges

omit [Unbounded] in
/-- The lengths of a well-formed view are those of its axes. -/
theorem axisLengths_eq (hv : v.WellFormed) {lengths : List Size} (h : v.lengths = .ok lengths) :
    lengths = v.axisLengths :=
  Except.ok.inj (h.symm.trans (lengths_eq hv))

/-- Sizes that are laid out are the lengths of the view. -/
theorem axisLengths_contiguous {sizes : List Size} (h : ∀ s ∈ sizes, s.Integral) :
    (contiguous sizes).axisLengths = sizes := by
  have hlength : ∀ size ∈ sizes, (AxisRange.whole size false).length = size := by
    intro size hsize
    show size.sub (.literal (.int 0)) = size
    rw [Size.sub_literal (h size hsize), neg_zero, Size.addLiteral_zero (h size hsize)]
  rw [View.axisLengths, shown_contiguous h, List.map_map]
  exact (List.map_congr_left hlength).trans (List.map_id' sizes)

end View

/-! ## Origins -/

namespace Graph

variable [Arithmetic] {g g' : Graph} {place : Nat} {s : Size}

/-- The views of all nodes before a place are settled. -/
def SettledBefore (g : Graph) (place : Nat) (bindings : Bindings) : Prop :=
  ∀ earlier < place, ∀ node, g.nodes[earlier]? = some node → node.view.Settled bindings

/-- A size that is settled once the views of the nodes before a place are. -/
def Determines (g : Graph) (place : Nat) (s : Size) : Prop :=
  ∀ bindings : Bindings, bindings.Integral → g.SettledBefore place bindings → s.Settled bindings

/-- What is determined stays so in a larger graph and at a later place. -/
theorem Determines.later (h : g.Determines place s) (he : g'.Extends g) {later : Nat}
    (hle : place ≤ later) : g'.Determines later s := by
  intro bindings hb hbefore
  refine h bindings hb fun earlier hlt node hnode => ?_
  exact hbefore earlier (Nat.lt_of_lt_of_le hlt hle) node (he.nodes earlier node hnode)

variable [Unbounded] {t : Tensor} {node : Node} {lengths : List Size}

/-- The lengths of an operand are determined by the nodes that are there. -/
theorem Operand.determines (hop : g.Operand t node) (h : node.view.lengths = .ok lengths) :
    ∀ s ∈ lengths, g.Determines g.size s := by
  intro s hs bindings hb hbefore
  rw [View.axisLengths_eq hop.wellFormed h] at hs
  exact (hbefore node.id hop.id_lt node hop.at_id).axisLengths hop.integral hb s hs

/-- The lengths of an issued handle are settled once the nodes that are there now are. -/
theorem Issued.determines (hg : g.WellFormed) (ht : g.Issued t) (h : g.lengths t = .ok lengths) :
    ∀ s ∈ lengths, g.Determines g.size s := by
  simp only [Graph.lengths, Graph.view, bind_eq_ok, pure_eq_ok] at h
  obtain ⟨_, ⟨node, hnode, rfl⟩, hlengths⟩ := h
  exact (ht.operand hg hnode).determines hlengths

end Graph

/-- What the sides of an equality are that is recorded on the node of a place: sizes of
operands, the size of an operand and that of a dimension, the size of a dimension and one
that is declared for a function, or an axis of the node and a dimension that it is given. -/
inductive Equality.Origin [Arithmetic] (g : Graph) (place : Nat) (e : Equality) : Prop
  | operands (left : g.Determines place e.left) (right : g.Determines place e.right)
  | expanded (left : g.Determines place e.left) (right : e.right.Atomic)
  | declared {node : Node} (hnode : g.nodes[place]? = some node) (kind : node.kind = .function)
      (left : e.left.Atomic) (right : e.right ∈ node.view.axisLengths)
  | relabelled {node : Node} (hnode : g.nodes[place]? = some node)
      (operation : e.operation = "realize") (left : e.left ∈ node.view.axisLengths)
      (right : e.right.Atomic)

section

variable [Arithmetic] {g g' : Graph} {e : Equality} {place : Nat}

/-- An origin stays one when the graph grows. -/
theorem Equality.Origin.extends_graph (h : e.Origin g place) (he : g'.Extends g) :
    e.Origin g' place := by
  cases h with
  | operands left right => exact .operands (left.later he le_rfl) (right.later he le_rfl)
  | expanded left right => exact .expanded (left.later he le_rfl) right
  | declared hnode kind left right => exact .declared (he.nodes _ _ hnode) kind left right
  | relabelled hnode operation left right =>
      exact .relabelled (he.nodes _ _ hnode) operation left right

/-- A recorded equality is on a node that is there, and has an origin. -/
structure Obligation.Traced (g : Graph) (o : Obligation) (place : Nat) : Prop where
  node_eq : o.node = .ofNat place
  place_lt : place < g.size
  origin : o.equality.Origin g place

/-- A recorded equality stays on a node that is there, with its origin. -/
theorem Obligation.Traced.extends_graph {o : Obligation} (h : o.Traced g place)
    (he : g'.Extends g) (hsize : g.size ≤ g'.size) : o.Traced g' place :=
  ⟨h.node_eq, Nat.lt_of_lt_of_le h.place_lt hsize, h.origin.extends_graph he⟩

/-- All recorded equalities are on nodes that are there, and have origins. -/
def Graph.Traced (g : Graph) : Prop :=
  ∀ o ∈ g.obligations, ∃ place, o.Traced g place

/-- **A draft that is appended** records equalities that have an origin on its own node. -/
theorem Graph.append_traced (hg : g.Traced) {draft : Draft} {equalities : List Equality}
    (hpending : draft.pending = equalities.map Equality.pending) {inputs : List Nat}
    (h : ∀ e ∈ equalities, e.Origin (g.append draft inputs) g.size) :
    (g.append draft inputs).Traced := by
  have hext := append_extends g draft inputs
  show ∀ o ∈ g.obligations ++ draft.pending.map (Pending.on g.size), _
  rw [hpending, Equality.map_pending_on, List.forall_mem_append, List.forall_mem_map]
  refine ⟨fun o ho => ?_, fun e he => ⟨g.size, rfl, by simp, h e he⟩⟩
  obtain ⟨place, hplace⟩ := hg o ho
  exact ⟨place, hplace.extends_graph hext (by simp)⟩

/-- A draft that relies on nothing records nothing. -/
theorem Graph.append_traced_of_none (hg : g.Traced) {draft : Draft} (hnone : draft.pending = [])
    (inputs : List Nat) : (g.append draft inputs).Traced := by
  have hpending : draft.pending = ([] : List Equality).map Equality.pending := hnone
  exact append_traced hg hpending (List.forall_mem_nil _)

/-- Equalities that are recorded on a node that is there have an origin if they do so before. -/
theorem Graph.relying_traced (hg : g.Traced) {equalities : List Equality} {line : String}
    (hplace : place < g.size) (h : ∀ e ∈ equalities, e.Origin g place) :
    (g.relying place equalities line).Traced := by
  have hext := relying_extends g place equalities line
  rw [Graph.Traced, relying_obligations, List.forall_mem_append, List.forall_mem_map]
  refine ⟨fun o ho => ?_, fun e he => ⟨place, rfl, hplace, (h e he).extends_graph hext⟩⟩
  obtain ⟨held, hheld⟩ := hg o ho
  exact ⟨held, hheld.extends_graph hext le_rfl⟩

/-! ## Steps -/

namespace Build

variable {α : Type} {call : Build Tensor} {draft : α → Draft}

/-- Appending what is found records the equalities of its draft. -/
theorem Derives.traced (h : call.Derives g draft) (hg : g.Traced)
    {equalities : α → List Equality}
    (hpending : ∀ found, (draft found).pending = (equalities found).map Equality.pending)
    (horigin : ∀ found inputs, ∀ e ∈ equalities found,
      e.Origin (g.append (draft found) inputs) g.size) : (call.perform g).2.Traced :=
  h.left hg fun found inputs _ => Graph.append_traced hg (hpending found) (horigin found inputs)

/-- A draft that relies on nothing records nothing. -/
theorem Derives.traced_of_none (h : call.Derives g draft) (hg : g.Traced)
    (hnone : ∀ found, (draft found).pending = []) : (call.perform g).2.Traced :=
  h.left hg fun found inputs _ => Graph.append_traced_of_none hg (hnone found) inputs

end Build

end

end ShapeGraph
