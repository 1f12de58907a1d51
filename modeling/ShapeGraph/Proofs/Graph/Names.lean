import ShapeGraph.Proofs.Graph.Trace
import ShapeGraph.Proofs.Refinement.Instance
import ShapeGraph.Proofs.View.Names

/-!
# The symbols that callers supply

Callers name symbols in the dimensions of shapes, in the bounds of slices and in the sizes that
they declare for host computations.  What the operations derive from these keeps to their symbols:
a shape has no others, and the sizes and spans have those and the ones of the lengths that they
are put together with.

* `Command.supplied` — the symbols that a caller names in a command;
* `Dimension.Among`, `Shape.Among` — the symbols of a shape, to which anonymous axes add none;
* `mapAxes_among`, `targetAxes_among`, `joinedSizes_among` — what is derived of them.
-/

namespace ShapeGraph

open ShapeGraph.Numeric (Arithmetic Number)

/-- The symbols that a caller names in a command. -/
def Command.supplied : Command → List String
  | newTensor _ shape | realize _ shape | expandTo _ shape => shape.flatMap Dimension.names
  | addFunction _ _ shape _ sizes => shape.flatMap Dimension.names ++
      (sizes.getD []).flatMap fun declared => declared.elim [] Quantity.names
  | slice _ specs => specs.flatMap RangeSpec.names
  | expand _ _ dim => dim.names
  | constant _ | permute _ _ | reshape _ _ | concat _ _ _ | contiguous _ | unary _ _
  | binary _ _ _ | scalar _ _ _ | reduce _ _ _ | softmax _ _ | matmul _ _ | arange _ _
  | causalMask _ _ => []

variable {P Q : String → Prop}

/-! ## Shapes -/

/-- The symbol of a dimension has a property, unless the dimension is anonymous. -/
def Dimension.Among (P : String → Prop) (dim : Dimension) : Prop :=
  dim = anonymous ∨ ∀ name ∈ dim.names, P name

/-- A constant dimension names no symbol. -/
theorem Dimension.among_constant (size : Number) : (constant size).Among P :=
  .inr (List.forall_mem_nil _)

theorem Dimension.among_anonymous : anonymous.Among P :=
  .inl rfl

/-- The size of a dimension has its symbol. -/
theorem Dimension.Among.size {dim : Dimension} (h : dim.Among P) {size : Size}
    (hsize : dim.size? = .ok (some size)) : size.Among P := by
  rcases h with rfl | hnames
  · cases hsize
  · cases dim with
    | constant v =>
        simp only [size?, bind_eq_ok, pure_eq_ok, Option.some.injEq] at hsize
        obtain ⟨_, hnumber, rfl⟩ := hsize
        exact Size.among_ofNumber hnumber
    | dynamic symbol =>
        rw [size?] at hsize
        split at hsize
        · cases hsize
        · simp only [Size.ofSymbol, bind_eq_ok, ite_error_eq_ok, pure_eq_ok, Except.ok.injEq,
            Option.some.injEq] at hsize
          obtain ⟨_, ⟨_, rfl⟩, rfl⟩ := hsize
          exact Size.among_symbol (hnames symbol (List.mem_singleton.mpr rfl))

namespace Shape

/-- All symbols of a shape have a property. -/
def Among (P : String → Prop) (shape : Shape) : Prop :=
  ∀ dim ∈ shape, dim.Among P

variable {shape : Shape}

/-- What is true of the symbols of a shape may be weakened. -/
theorem Among.mono (h : shape.Among P) (hPQ : ∀ name, P name → Q name) : shape.Among Q :=
  fun dim hdim => (h dim hdim).imp_right fun hnames name hname => hPQ name (hnames name hname)

/-- What is true of all names in a shape is true of its symbols. -/
theorem among_of_names (h : ∀ name ∈ shape.flatMap Dimension.names, P name) : shape.Among P :=
  fun dim hdim => .inr fun name hname => h name (List.mem_flatMap.mpr ⟨dim, hdim, hname⟩)

/-- The size of a dimension has the symbols of the shape. -/
theorem Among.size (h : shape.Among P) {size : Size} (hsize : shape.Sizes size) :
    size.Among P := by
  obtain ⟨dim, hdim, hown⟩ := hsize
  exact (h dim hdim).size hown

end Shape

/-- The dimension of a join names no symbol. -/
theorem joinedDimension_among [Arithmetic] {a b joined : Dimension}
    (h : joinedDimension a b = .ok joined) : joined.Among P := by
  unfold joinedDimension at h
  split at h
  · obtain ⟨_, rfl⟩ := ite_ok_eq_ok.mp h
    exact Dimension.among_constant _
  · obtain rfl := Except.ok.inj h
    exact Dimension.among_anonymous

/-- An axis of a reshape target is a number or copied. -/
theorem targetAxes_among {shape : Shape} (hshape : shape.Among P) {lengths : List Size}
    {position : Nat} {entries : List ReshapeEntry} {axes : List (Dimension × Size)}
    (h : targetAxes shape lengths position entries = .ok axes) :
    Shape.Among P (axes.map (·.1)) := by
  induction entries generalizing position axes with
  | nil =>
      obtain rfl := Except.ok.inj h
      exact List.forall_mem_nil _
  | cons entry rest ih =>
      simp only [targetAxes, bind_eq_ok, pure_eq_ok] at h
      obtain ⟨first, hfirst, others, hothers, rfl⟩ := h
      refine List.forall_mem_cons.mpr ⟨?_, ih hothers⟩
      cases entry with
      | size n =>
          obtain ⟨_, rfl⟩ := ite_ok_eq_ok.mp hfirst
          exact Dimension.among_constant n
      | copied axis =>
          obtain ⟨k, hdim, _⟩ := targetAxis_copied hfirst
          exact hshape first.1 (List.mem_of_getElem? hdim)

/-- A sliced axis keeps its dimension or becomes anonymous. -/
theorem mapSlice_among [Arithmetic] {sentinel : Number} {shape : Shape} (hshape : shape.Among P)
    {specs : List RangeSpec} {sizes : List (Option Size)} {mapping : SliceMapping}
    (h : mapSlice shape specs sizes sentinel = .ok mapping) : mapping.shape.Among P := by
  obtain ⟨_, hmapped⟩ := ite_error_eq_ok.mp h
  intro dim hdim
  rw [mapAxes_shape hmapped] at hdim
  obtain ⟨axis, hlt, rfl⟩ := List.mem_mapIdx.mp hdim
  unfold RangeSpec.dimension
  split
  · exact hshape _ (List.getElem_mem hlt)
  · exact Dimension.among_anonymous

/-! ## Spans -/

/-- The size that a quantity stands for has the symbols of the quantity. -/
theorem Quantity.among {q : Quantity} (hq : ∀ name ∈ q.names, P name) {size : Size}
    (h : q.toSize = .ok size) : size.Among P := by
  cases q with
  | number v => exact Size.among_ofNumber h
  | size s =>
      obtain rfl := Except.ok.inj h
      exact hq

section

variable [Arithmetic]

/-- A span starts at a size with the symbols of its lower bound. -/
theorem Bound.start_among {bound : Bound} (hb : ∀ name ∈ bound.names, P name) {size : Size}
    (h : bound.start = .ok size) : size.Among P := by
  cases bound with
  | included value => exact Quantity.among hb h
  | excluded value =>
      simp only [start, bind_eq_ok, pure_eq_ok] at h
      obtain ⟨s, hs, rfl⟩ := h
      exact (Quantity.among hb hs).add (Size.among_literal 1)
  | unbounded =>
      obtain rfl := Except.ok.inj h
      exact Size.among_literal 0

/-- A span stops at a size with the symbols of its upper bound and of the length. -/
theorem Bound.stop_among {bound : Bound} (hb : ∀ name ∈ bound.names, P name)
    {length : Option Size} (hlength : ∀ s, length = some s → s.Among P) {sentinel : Number}
    {size : Size} (h : bound.stop length sentinel = .ok size) : size.Among P := by
  cases bound with
  | included value =>
      simp only [stop, bind_eq_ok, pure_eq_ok] at h
      obtain ⟨s, hs, rfl⟩ := h
      exact (Quantity.among hb hs).add (Size.among_literal 1)
  | excluded value => exact Quantity.among hb h
  | unbounded =>
      cases length with
      | none => exact Size.among_ofNumber h
      | some s =>
          obtain rfl := Except.ok.inj h
          exact hlength s rfl

/-- A span has the symbols of its specification and of the length. -/
theorem RangeSpec.span_among {spec : RangeSpec} (hspec : ∀ name ∈ spec.names, P name)
    {length : Option Size} (hlength : ∀ s, length = some s → s.Among P) {sentinel : Number}
    {span : Span} (h : spec.span length sentinel = .ok span) : span.Among P := by
  obtain ⟨hlower, hupper⟩ := List.forall_mem_append.mp hspec
  simp only [RangeSpec.span, bind_eq_ok, pure_eq_ok] at h
  obtain ⟨start, hstart, stop, hstop, rfl⟩ := h
  exact ⟨Bound.start_among hlower hstart, Bound.stop_among hupper hlength hstop⟩

/-- The spans of a slice have the symbols of its bounds, of the lengths and of the shape. -/
theorem mapAxes_among {sentinel : Number} {dims : Shape} (hdims : dims.Among P)
    {specs : List RangeSpec} (hspecs : ∀ spec ∈ specs, ∀ name ∈ spec.names, P name)
    {sizes : List (Option Size)} (hsizes : ∀ s, some s ∈ sizes → s.Among P)
    {mapping : SliceMapping} (h : mapAxes sentinel dims specs sizes = .ok mapping) :
    ∀ span ∈ mapping.spans, span.Among P := by
  induction dims generalizing specs sizes mapping with
  | nil =>
      obtain rfl := Except.ok.inj h
      exact List.forall_mem_nil _
  | cons dim dims ih =>
      obtain ⟨hdim, hrest⟩ := List.forall_mem_cons.mp hdims
      -- an axis whose length is not given is as long as its dimension says
      obtain ⟨length, hlength, span, hspan, rest, hmapped, rfl⟩ : ∃ length,
          (∀ s, length = some s → s.Among P) ∧ ∃ span,
            (specs.head?.getD .full).span length sentinel = .ok span ∧ ∃ rest,
              mapAxes sentinel dims specs.tail sizes.tail = .ok rest ∧
              mapping = ⟨span :: rest.spans, _ :: rest.shape⟩ := by
        rw [mapAxes] at h
        split at h
        · next size hsize =>
          simp only [bind_eq_ok, pure_eq_ok, Except.ok.injEq, exists_eq_left'] at h
          obtain ⟨span, hspan, rest, hmapped, rfl⟩ := h
          refine ⟨some size, ?_, span, hspan, rest, hmapped, rfl⟩
          intro s hs
          obtain rfl := Option.some.inj hs
          exact hsizes size (List.mem_of_head? (Option.join_eq_some_iff.mp hsize))
        · simp only [bind_eq_ok, pure_eq_ok] at h
          obtain ⟨length, hown, span, hspan, rest, hmapped, rfl⟩ := h
          refine ⟨length, ?_, span, hspan, rest, hmapped, rfl⟩
          intro s hs
          rw [hs] at hown
          exact hdim.size hown
      have hspec : ∀ name ∈ (specs.head?.getD .full).names, P name := by
        cases specs with
        | nil => exact List.forall_mem_nil _
        | cons spec specs => exact hspecs spec List.mem_cons_self
      refine List.forall_mem_cons.mpr ⟨RangeSpec.span_among hspec hlength hspan, ?_⟩
      exact ih hrest (fun spec hs => hspecs spec (List.mem_of_mem_tail hs))
        (fun s hs => hsizes s (List.mem_of_mem_tail hs)) hmapped

/-! ## Sizes -/

/-- Joined sizes have the symbols of both operands. -/
theorem joinedSizes_among {left right sizes : List Size} {joined : Nat}
    (hleft : ∀ s ∈ left, s.Among P) (hright : ∀ s ∈ right, s.Among P)
    (h : joinedSizes left right joined = .ok sizes) : ∀ s ∈ sizes, s.Among P := by
  unfold joinedSizes at h
  split at h
  · next length hlength =>
    simp only [bind_eq_ok, pure_eq_ok, lengthAt_eq_ok] at h
    obtain ⟨other, hother, rfl⟩ := h
    intro s hs
    rcases List.mem_or_eq_of_mem_set hs with hold | rfl
    · exact hleft s hold
    · exact (hleft _ (List.mem_of_getElem? hlength)).add (hright _ (List.mem_of_getElem? hother))
  · obtain rfl := Except.ok.inj h
    exact hleft

end

end ShapeGraph
