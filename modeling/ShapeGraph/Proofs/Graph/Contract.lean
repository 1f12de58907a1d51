import ShapeGraph.Graph.Basic
import ShapeGraph.Proofs.View.Storage

/-!
# What nodes promise about their sizes

A shape says of each axis that it has a constant size or the size that a symbol
stands for.  A node promises more: how its sizes go with those of its inputs.
Both are meant under a valuation of the symbols that satisfies every equality
that the graph has recorded.

* `Shape.Fits` — the sizes of a shape are those of an extent;
* `OpKind.Contract` — how the extent of a node goes with those of its inputs;
* `Graph.Stores` — whose storage a node shows: its own, or that of its first
  input;
* `Graph.Holds` — every recorded equality holds;
* `Graph.WellFormed` — the invariant of a graph: its nodes are in order, their
  views are well formed, and each of them keeps its contract;
* `Graph.Issued` — the invariant of a tensor: its shape fits.
-/

namespace ShapeGraph

open ShapeGraph.Numeric (Arithmetic Number)

/-! ## Shapes and extents -/

/-- An axis of the given size may have this dimension. -/
def Dimension.Fits (ρ : Valuation) : Dimension → Int → Prop
  | constant v, n => v = .int n
  | dynamic symbol, n => symbol = anonymousSymbol ∨ ρ symbol = n

/-- Axes of the given sizes may have this shape. -/
def Shape.Fits (ρ : Valuation) (shape : Shape) (extent : List Int) : Prop :=
  List.Forall₂ (Dimension.Fits ρ) shape extent

namespace Shape.Fits

variable {ρ : Valuation} {shape : Shape} {extent : List Int}

/-- A dimension of a shape fits the length of its axis. -/
theorem at_axis (h : shape.Fits ρ extent) {axis : Nat} {dim : Dimension} {n : Int}
    (hdim : shape[axis]? = some dim) (hn : extent[axis]? = some n) : dim.Fits ρ n := by
  obtain ⟨hshape, rfl⟩ := List.getElem?_eq_some_iff.mp hdim
  obtain ⟨hextent, rfl⟩ := List.getElem?_eq_some_iff.mp hn
  exact (List.forall₂_iff_get.mp h).2 axis hshape hextent

/-- The first dimensions of a shape fit the first lengths. -/
theorem take (h : shape.Fits ρ extent) (n : Nat) :
    Shape.Fits ρ (shape.take n) (extent.take n) :=
  List.forall₂_take n h

theorem drop (h : shape.Fits ρ extent) (n : Nat) :
    Shape.Fits ρ (shape.drop n) (extent.drop n) :=
  List.forall₂_drop n h

/-- Two shapes that fit do so when they are put together. -/
theorem append {others : Shape} {more : List Int} (h : shape.Fits ρ extent)
    (h' : Shape.Fits ρ others more) : Shape.Fits ρ (shape ++ others) (extent ++ more) :=
  List.rel_append h h'

theorem singleton {dim : Dimension} {n : Int} (h : dim.Fits ρ n) : Shape.Fits ρ [dim] [n] :=
  .cons h .nil

/-- A shape fits without its last dimension. -/
theorem dropLast (h : shape.Fits ρ extent) : Shape.Fits ρ shape.dropLast extent.dropLast :=
  Axis.forall₂_dropLast h

/-- A shape fits without the dimension of an axis. -/
theorem removeAt (h : shape.Fits ρ extent) (axis : Nat) :
    Shape.Fits ρ (Axis.removeAt shape axis) (Axis.removeAt extent axis) :=
  Axis.forall₂_removeAt h axis

/-- The dimensions that are picked fit the lengths that are picked. -/
theorem picked (h : shape.Fits ρ extent) {positions : List Nat}
    (hwithin : Axis.Within positions shape.length) :
    Shape.Fits ρ (Axis.picked shape positions) (Axis.picked extent positions) :=
  Axis.forall₂_picked h hwithin

/-- A shape still fits when the dimension of an axis and its length are replaced. -/
theorem set (h : shape.Fits ρ extent) (axis : Nat) {dim : Dimension} {n : Int}
    (hdim : dim.Fits ρ n) : Shape.Fits ρ (shape.set axis dim) (extent.set axis n) :=
  forall₂_set h axis hdim

/-- A shape still fits when a dimension is inserted with its length. -/
theorem insertAt (h : shape.Fits ρ extent) (axis : Nat) {dim : Dimension} {n : Int}
    (hdim : dim.Fits ρ n) :
    Shape.Fits ρ (Axis.insertAt shape axis dim) (Axis.insertAt extent axis n) :=
  Axis.forall₂_insertAt h axis hdim

end Shape.Fits

/-- The size of a dimension is what its axis has to have. -/
theorem Dimension.fits_of_size {dim : Dimension} {size : Size} (h : dim.size? = .ok (some size)) :
    size.Integral ∧ ∀ ρ, dim.Fits ρ (size.value ρ) := by
  cases dim with
  | constant v =>
      simp only [size?, Size.ofNumber, bind_eq_ok, ite_ok_eq_ok, pure_eq_ok,
        Option.some.injEq] at h
      obtain ⟨_, ⟨hsafe, rfl⟩, rfl⟩ := h
      obtain ⟨n, rfl⟩ := Number.eq_int_of_isSafe hsafe
      exact ⟨⟨n, rfl⟩, fun ρ => rfl⟩
  | dynamic symbol =>
      rw [size?] at h
      split at h
      · cases h
      · simp only [Size.ofSymbol, bind_eq_ok, ite_error_eq_ok, pure_eq_ok, Except.ok.injEq,
          Option.some.injEq] at h
        obtain ⟨_, ⟨_, rfl⟩, rfl⟩ := h
        exact ⟨trivial, fun ρ => .inr rfl⟩

/-- A dimension without a size is anonymous. -/
theorem Dimension.eq_anonymous {dim : Dimension} (h : dim.size? = .ok none) :
    dim = anonymous := by
  cases dim with
  | constant v => simp [size?, Size.ofNumber] at h
  | dynamic symbol =>
      rw [size?] at h
      split at h
      · next hsymbol => rw [hsymbol, anonymous]
      · simp [Size.ofSymbol] at h

/-! ## Equalities -/

namespace Equality

/-- Both sides have the same value. -/
def Holds (ρ : Valuation) (e : Equality) : Prop :=
  e.left.value ρ = e.right.value ρ

/-- Every literal of both sides is an integer. -/
structure Integral (e : Equality) : Prop where
  left : e.left.Integral
  right : e.right.Integral

end Equality

/-- What has to be equal is so where the recorded equalities hold. -/
theorem requireEqual_ok {operation relation : String} {left right : Size}
    {equalities : List Equality} (hl : left.Integral) (hr : right.Integral)
    (h : requireEqual operation relation left right = .ok equalities) :
    (∀ e ∈ equalities, e.Integral) ∧
      ∀ ρ, (∀ e ∈ equalities, e.Holds ρ) → left.value ρ = right.value ρ := by
  unfold requireEqual at h
  split at h
  · next l r hlv hrv =>
    simp only [ite_ok_eq_ok] at h
    obtain ⟨hsame, rfl⟩ := h
    refine ⟨by simp, fun ρ _ => ?_⟩
    rw [hl.literal_eq hlv ρ, hr.literal_eq hrv ρ] at hsame
    simpa using hsame
  · split at h
    · next hsame =>
      obtain rfl := Except.ok.inj h
      obtain rfl := (Size.same_iff hl hr).mp hsame
      simp
    · obtain rfl := Except.ok.inj h
      refine ⟨?_, fun ρ hall => hall _ (List.mem_singleton.mpr rfl)⟩
      intro e he
      obtain rfl := List.mem_singleton.mp he
      exact ⟨hl, hr⟩

/-! ## Contracts -/

/-- The attribute names an axis. -/
def Entries.NamesAxis (attributes : Entries Value) (key : String) (axis : Nat) : Prop :=
  attributes.get? key = some (.number (.ofNat axis))

/-- The attribute lists axes. -/
def Entries.ListsAxes (attributes : Entries Value) (key : String) (axes : List Nat) : Prop :=
  attributes.get? key = some (.list ((axes.map Number.ofNat).map .number))

/-- An axis of size one may be repeated, any other keeps its size. -/
def Repeats (m n : Int) : Prop :=
  m = 1 ∨ n = m

/-- How the sizes of a node go with those of its inputs.

An expansion that inserts an axis names it; the other kind of expansion repeats
axes of size one and adds leading ones.  Leaves, slices and the kinds of hosts
promise nothing. -/
def OpKind.Contract (kind : OpKind) (attributes : Entries Value) (inputs : List (List Int))
    (output : List Int) : Prop :=
  match kind with
  | .unary _ | .scalar _ | .softmax | .contiguous => inputs = [output]
  | .binary _ => inputs = [output, output]
  | .permute => ∃ x axes, inputs = [x] ∧ attributes.ListsAxes "axes" axes ∧
      axes.Perm (List.range x.length) ∧ output = Axis.picked x axes
  | .reduce _ => ∃ x axis, inputs = [x] ∧ attributes.NamesAxis "axis" axis ∧
      axis < x.length ∧ output = Axis.removeAt x axis
  | .expand => ∃ x, inputs = [x] ∧
      ((∃ axis n, attributes.NamesAxis "axis" axis ∧ axis ≤ x.length ∧
          output = Axis.insertAt x axis n) ∨
        (attributes.get? "axis" = none ∧ ∃ leading aligned, output = leading ++ aligned ∧
          List.Forall₂ Repeats x aligned))
  | .concat => ∃ x y axis m n, inputs = [x, y] ∧ attributes.NamesAxis "axis" axis ∧
      x.length = y.length ∧ (∀ i ≠ axis, x[i]? = y[i]?) ∧
      x[axis]? = some m ∧ y[axis]? = some n ∧ output = x.set axis (m + n)
  | .reshape => ∃ x, inputs = [x] ∧ output.prod = x.prod
  | .matmul => ∃ batch rows inner batch' columns, inputs =
        [batch ++ [rows, inner], batch' ++ [inner, columns]] ∧
      (batch' = [] ∨ batch' = batch) ∧ output = batch ++ [rows, columns]
  | .input | .constant | .function | .slice | .other _ => True

/-- The operations that show the storage of their input in another way. -/
def OpKind.isView : OpKind → Bool
  | .slice | .permute | .expand => true
  | _ => false

/-! ## Graphs -/

namespace Graph

variable {g g' : Graph} {ρ : Valuation}

/-- Every recorded equality holds. -/
def Holds (g : Graph) (ρ : Valuation) : Prop :=
  ∀ o ∈ g.obligations, o.equality.Holds ρ

/-- The extent of a node; none of the axes of a node that is not there. -/
def extentAt (g : Graph) (ρ : Valuation) (id : Nat) : List Int :=
  (g.nodes[id]?).elim [] fun node => node.view.extent ρ

/-- A view operation shows what lies within the view of its first input, and
every other operation shows the whole of storage of its own. -/
def Stores (g : Graph) (kind : OpKind) (inputs : List Nat) (view : View) : Prop :=
  if kind.isView then
    ∃ id node, inputs.head? = some id ∧ g.nodes[id]? = some node ∧ view.Within node.view
  else view.Laid

/-- A node that is in its place, has a well-formed view of the rank of its shape,
shows storage as its kind has it and keeps its contract. -/
structure Keeps (g : Graph) (place : Nat) (node : Node) : Prop where
  id_eq : node.id = place
  inputs_lt : ∀ id ∈ node.inputs, id < place
  wellFormed : node.view.WellFormed
  integral : node.view.Integral
  rank_eq : node.view.rank = node.shape.length
  storage : g.Stores node.kind node.inputs node.view
  contract : ∀ ρ, g.Holds ρ → node.kind.Contract node.attributes
    (node.inputs.map (g.extentAt ρ)) (node.view.extent ρ)

/-- Every node keeps what it promises, and the recorded equalities are about
sizes of integers. -/
structure WellFormed (g : Graph) : Prop where
  keeps : ∀ place node, g.nodes[place]? = some node → g.Keeps place node
  obligations : ∀ o ∈ g.obligations, o.equality.Integral

/-- The node that a tensor is a handle on. -/
def Behind (g : Graph) (t : Tensor) (node : Node) : Prop :=
  t.graph = .ofNat g.id ∧ ∃ place : Nat, t.id = .ofNat place ∧ g.nodes[place]? = some node

/-- A handle that the graph has issued: the shape fits the node behind it. -/
def Issued (g : Graph) (t : Tensor) : Prop :=
  ∃ node, g.Behind t node ∧ node.view.rank = t.rank ∧
    ∀ ρ, g.Holds ρ → t.shape.Fits ρ (node.view.extent ρ)

/-- A graph that has all that another one has, and may have more. -/
structure Extends (g' g : Graph) : Prop where
  id_eq : g'.id = g.id
  settings_eq : g'.settings = g.settings
  nodes : ∀ (place : Nat) (node : Node), g.nodes[place]? = some node → g'.nodes[place]? = some node
  holds : ∀ ρ, g'.Holds ρ → g.Holds ρ

theorem Extends.refl (g : Graph) : g.Extends g :=
  ⟨rfl, rfl, fun _ _ h => h, fun _ h => h⟩

/-- Extending is transitive. -/
theorem Extends.trans {g'' : Graph} (h : g''.Extends g') (h' : g'.Extends g) : g''.Extends g :=
  ⟨h.id_eq.trans h'.id_eq, h.settings_eq.trans h'.settings_eq,
    fun place node hn => h.nodes place node (h'.nodes place node hn),
    fun ρ hρ => h'.holds ρ (h.holds ρ hρ)⟩

/-- The node of an id is the one at that place. -/
theorem find_eq_ok {operation : String} {id : Number} {node : Node} :
    g.find operation id = .ok node ↔
      ∃ place : Nat, id = .ofNat place ∧ g.nodes[place]? = some node := by
  unfold find
  constructor
  · intro h
    split at h
    · next held hheld =>
      obtain rfl := Except.ok.inj h
      obtain ⟨place, hplace, hnode⟩ := Option.bind_eq_some_iff.mp hheld
      refine ⟨place, ?_, hnode⟩
      cases id with
      | int n =>
          simp only [Number.index?] at hplace
          split at hplace
          · cases hplace
          · rw [← Option.some.inj hplace, Number.ofNat, Int.toNat_of_nonneg (by omega)]
      | real x => simp [Number.index?] at hplace
      | undefined which => simp [Number.index?] at hplace
    · cases h
  · rintro ⟨place, rfl, hnode⟩
    simp [hnode]

/-- A check finds the node behind a handle, and no other. -/
theorem check_eq_ok {operation : String} {t : Tensor} {node : Node} :
    g.check operation t = .ok node ↔ g.Behind t node := by
  unfold check Behind
  by_cases hgraph : t.graph = .ofNat g.id
  · rw [if_pos hgraph, find_eq_ok]
    exact (and_iff_right hgraph).symm
  · simp [hgraph]

/-- The view of a tensor is that of the node behind it. -/
theorem Behind.view_eq {t : Tensor} {node : Node} (h : g.Behind t node) :
    g.view t = .ok node.view := by
  rw [view, check_eq_ok.mpr h]
  rfl

/-- There is one node behind a tensor. -/
theorem Behind.unique {t : Tensor} {node other : Node} (h : g.Behind t node)
    (h' : g.Behind t other) : node = other := by
  have hcheck : g.check "tracker" t = .ok node := check_eq_ok.mpr h
  exact Except.ok.inj (hcheck.symm.trans (check_eq_ok.mpr h'))

/-- The node behind a tensor stays so when the graph grows. -/
theorem Extends.behind (he : g'.Extends g) {t : Tensor} {node : Node} (h : g.Behind t node) :
    g'.Behind t node := by
  obtain ⟨hgraph, place, hid, hnode⟩ := h
  exact ⟨he.id_eq ▸ hgraph, place, hid, he.nodes place node hnode⟩

/-- A tensor that has been issued stays so when the graph grows. -/
theorem Extends.issued (he : g'.Extends g) {t : Tensor} (h : g.Issued t) : g'.Issued t := by
  obtain ⟨node, hnode, hrank, hfits⟩ := h
  exact ⟨node, he.behind hnode, hrank, fun ρ hρ => hfits ρ (he.holds ρ hρ)⟩

/-- The extent of a node that is there does not change when the graph grows. -/
theorem Extends.extentAt_eq (he : g'.Extends g) {id : Nat} (hid : id < g.size) :
    g'.extentAt ρ id = g.extentAt ρ id := by
  have hnode : g.nodes[id]? = some g.nodes[id] := List.getElem?_eq_getElem hid
  simp [extentAt, hnode, he.nodes id _ hnode]

/-- What a node has been stored as does not change when the graph grows. -/
theorem Extends.stores (he : g'.Extends g) {kind : OpKind} {inputs : List Nat} {view : View}
    (h : g.Stores kind inputs view) : g'.Stores kind inputs view := by
  unfold Stores at h ⊢
  split
  · next hkind =>
    rw [if_pos hkind] at h
    obtain ⟨id, node, hid, hnode, hwithin⟩ := h
    exact ⟨id, node, hid, he.nodes id node hnode, hwithin⟩
  · next hkind =>
    rwa [if_neg hkind] at h

/-- What a node keeps, it keeps in every extension of its graph. -/
theorem Extends.keeps (he : g'.Extends g) {place : Nat} {node : Node}
    (hnode : g.nodes[place]? = some node) (h : g.Keeps place node) : g'.Keeps place node where
  id_eq := h.id_eq
  inputs_lt := h.inputs_lt
  wellFormed := h.wellFormed
  integral := h.integral
  rank_eq := h.rank_eq
  storage := he.stores h.storage
  contract ρ hρ := by
    have hplace : place < g.size := (List.getElem?_eq_some_iff.mp hnode).1
    have hinputs : node.inputs.map (g'.extentAt ρ) = node.inputs.map (g.extentAt ρ) :=
      List.map_congr_left fun id hid =>
        he.extentAt_eq (Nat.lt_trans (h.inputs_lt id hid) hplace)
    rw [hinputs]
    exact h.contract ρ (he.holds ρ hρ)

end Graph

end ShapeGraph
