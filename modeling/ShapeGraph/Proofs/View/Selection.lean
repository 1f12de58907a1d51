import ShapeGraph.Proofs.Graph.Movement
import ShapeGraph.Proofs.View.Narrowing

/-!
# The positions that a slice selects

A range specification says which positions of an axis to keep, by a lower and an upper bound.
Each bound becomes one end of a span: a bound that excludes its value starts one later, one
that includes it ends one later, and one that is missing is the end of the axis itself.  So
the positions in the span are those within both bounds, and narrowing keeps just these, since
the start of the span counts from that of the range and its end is clamped to that of the
range.

* `Bound.AdmitsFrom`, `Bound.AdmitsTo` — a position is within a lower or an upper bound;
* `RangeSpec.Selects`, `selects_iff` — the positions within both are those of the span;
* `RangeSpec.Cuts`, `narrow_cuts` — one range that is narrowed by the span of a specification;
* `View.sliceBy` — a slice by specifications, as callers ask for it;
* `slice_selects` — slices by specifications of any view that can be reached.
-/

namespace ShapeGraph

open ShapeGraph.Numeric (Arithmetic Exact Number Unbounded)

variable {ρ : Valuation} {j : Int}

/-! ## Bounds -/

/-- The value of a quantity. -/
def Quantity.value (ρ : Valuation) : Quantity → Int
  | number v => v.toInt
  | size s => s.value ρ

/-- A quantity that stands for a size has its value. -/
theorem Quantity.value_toSize {q : Quantity} {size : Size} (h : q.toSize = .ok size) :
    size.value ρ = q.value ρ := by
  cases q with
  | number v =>
      simp only [toSize, Size.ofNumber, ite_ok_eq_ok] at h
      obtain ⟨_, rfl⟩ := h
      rfl
  | size s =>
      obtain rfl := Except.ok.inj h
      rfl

namespace Bound

/-- The position is not before a lower bound. -/
def AdmitsFrom (ρ : Valuation) (j : Int) : Bound → Prop
  | included value => value.value ρ ≤ j
  | excluded value => value.value ρ < j
  | unbounded => True

/-- The position is not beyond an upper bound. -/
def AdmitsTo (ρ : Valuation) (j : Int) : Bound → Prop
  | included value => j ≤ value.value ρ
  | excluded value => j < value.value ρ
  | unbounded => True

section

variable [Arithmetic] [Unbounded] {bound : Bound}

/-- The positions of an axis within a lower bound are those from the start that it sets. -/
theorem admitsFrom_iff (hbound : bound.Integral) {start : Size} (h : bound.start = .ok start)
    (hj : 0 ≤ j) : bound.AdmitsFrom ρ j ↔ start.value ρ ≤ j := by
  cases bound with
  | included value => rw [AdmitsFrom, ← Quantity.value_toSize h]
  | excluded value =>
      simp only [Bound.start, bind_eq_ok, pure_eq_ok] at h
      obtain ⟨size, hsize, rfl⟩ := h
      have hsum : (size.add .one).value ρ = size.value ρ + 1 :=
        (Size.add_means (Quantity.Integral.toSize hbound hsize).means Size.means_one).value_eq ρ
      rw [AdmitsFrom, ← Quantity.value_toSize hsize, hsum]
      omega
  | unbounded =>
      obtain rfl := Except.ok.inj h
      exact ⟨fun _ => hj, fun _ => trivial⟩

/-- The positions of an axis within an upper bound are those before the end that it sets. -/
theorem admitsTo_iff (hbound : bound.Integral) {length stop : Size} {sentinel : Number}
    (h : bound.stop (some length) sentinel = .ok stop) (hj : j < length.value ρ) :
    bound.AdmitsTo ρ j ↔ j < stop.value ρ := by
  cases bound with
  | included value =>
      simp only [Bound.stop, bind_eq_ok, pure_eq_ok] at h
      obtain ⟨size, hsize, rfl⟩ := h
      have hsum : (size.add .one).value ρ = size.value ρ + 1 :=
        (Size.add_means (Quantity.Integral.toSize hbound hsize).means Size.means_one).value_eq ρ
      rw [AdmitsTo, ← Quantity.value_toSize hsize, hsum]
      omega
  | excluded value => rw [AdmitsTo, ← Quantity.value_toSize h]
  | unbounded =>
      obtain rfl := Except.ok.inj h
      exact ⟨fun _ => hj, fun _ => trivial⟩

end

end Bound

/-! ## Specifications -/

namespace RangeSpec

/-- The position is within both bounds of a specification. -/
def Selects (ρ : Valuation) (spec : RangeSpec) (j : Int) : Prop :=
  spec.bounds.1.AdmitsFrom ρ j ∧ spec.bounds.2.AdmitsTo ρ j

/-- The part of a resolved range that a specification keeps: the positions that it selects,
counted from where the range starts.  The full specification keeps the range as it is. -/
structure Cuts (ρ : Valuation) (spec : RangeSpec) (whole part : ConcreteRange) : Prop where
  broadcast_eq : part.broadcast = whole.broadcast
  positions : ∃ s n p q : Int, whole.start = .int s ∧ whole.stop = .int (s + n) ∧
    part.start = .int p ∧ part.stop = .int q ∧
      ∀ k, p ≤ k ∧ k < q ↔ ∃ j, 0 ≤ j ∧ j < n ∧ spec.Selects ρ j ∧ k = s + j
  whole_of_full : spec = .full → part = whole

/-- An axis without a specification has one of integers, as the others have. -/
theorem integral_getD {specs : List RangeSpec} (hspecs : ∀ spec ∈ specs, spec.Integral)
    (axis : Nat) : (specs[axis]?.getD .full).Integral := by
  cases hheld : specs[axis]? with
  | none => exact ⟨trivial, trivial⟩
  | some spec => exact hspecs spec (List.mem_of_getElem? hheld)

section

variable [Arithmetic] [Unbounded] {spec : RangeSpec} {span : Span} {sentinel : Number}

/-- **The positions of an axis that a specification selects** are those of its span. -/
theorem selects_iff (hspec : spec.Integral) {length : Size}
    (h : spec.span (some length) sentinel = .ok span) (hj : 0 ≤ j) (hj' : j < length.value ρ) :
    spec.Selects ρ j ↔ span.start.value ρ ≤ j ∧ j < span.stop.value ρ := by
  simp only [RangeSpec.span, bind_eq_ok, pure_eq_ok] at h
  obtain ⟨start, hstart, stop, hstop, rfl⟩ := h
  rw [Selects, Bound.admitsFrom_iff hspec.1 hstart hj, Bound.admitsTo_iff hspec.2 hstop hj']

/-- **Narrowing by the span of a specification** keeps the positions that it selects, if the
span does not start before the range. -/
theorem narrow_cuts (hspec : spec.Integral) {range : AxisRange} (hrange : range.Integral)
    (h : spec.span (some range.length) sentinel = .ok span) (hstart : 0 ≤ span.start.value ρ) :
    spec.Cuts ρ (range.concrete ρ) ((View.narrow range span).concrete ρ) := by
  have hlength := AxisRange.length_means hrange
  obtain ⟨hfirst, hlast, hfull⟩ := span_ok hspec hlength.integral h
  have hn : range.length.value ρ = range.stop.value ρ - range.start.value ρ :=
    hlength.value_eq ρ
  have hp : (View.narrow range span).start.value ρ = range.start.value ρ + span.start.value ρ :=
    (Size.add_means hrange.start.means hfirst.means).value_eq ρ
  have hq : (View.narrow range span).stop.value ρ =
      min (range.start.value ρ + span.stop.value ρ) (range.stop.value ρ) :=
    (Size.min_means (Size.add_means hrange.start.means hlast.means) hrange.stop.means).value_eq ρ
  have hend : range.stop.value ρ = range.start.value ρ + range.length.value ρ := by omega
  refine ⟨rfl, ⟨_, _, _, _, rfl, congrArg Number.int hend, rfl, rfl, ?_⟩, ?_⟩
  · intro k
    rw [hp, hq]
    constructor
    · rintro ⟨hfrom, hto⟩
      have hj : 0 ≤ k - range.start.value ρ := by omega
      have hj' : k - range.start.value ρ < range.length.value ρ := by omega
      refine ⟨_, hj, hj', (selects_iff hspec h hj hj').mpr ⟨?_, ?_⟩, ?_⟩ <;> omega
    · rintro ⟨j, hj, hj', hselected, rfl⟩
      obtain ⟨hfrom, hto⟩ := (selects_iff hspec h hj hj').mp hselected
      constructor <;> omega
  · rintro rfl
    obtain rfl := hfull rfl
    have hzero : Size.zero.value ρ = 0 := Size.means_zero.value_eq ρ
    have hp' : (View.narrow range ⟨.zero, range.length⟩).start.value ρ = range.start.value ρ := by
      rw [hp]
      simp only [hzero]
      omega
    have hq' : (View.narrow range ⟨.zero, range.length⟩).stop.value ρ = range.stop.value ρ := by
      rw [hq]
      simp only [hend]
      omega
    rw [AxisRange.concrete, hp', hq']
    rfl

end

end RangeSpec

/-! ## Views that can be reached -/

namespace View

/-- The slice of a view by specifications, one for each of the first axes of a shape: the spans
and the dimensions that they come to, and the view that is left. -/
def sliceBy [Arithmetic] (v : View) (shape : Shape) (specs : List RangeSpec) (sentinel : Number) :
    Except Fault (SliceMapping × View) := do
  let lengths ← v.lengths
  let mapping ← mapSlice shape specs (lengths.map some) sentinel
  let w ← v.slice mapping.spans
  return (mapping, w)

section

variable [Arithmetic] {v w : View} {shape : Shape} {specs : List RangeSpec} {sentinel : Number}
  {mapping : SliceMapping}

/-- A slice by specifications narrows the view by the spans that they come to. -/
theorem sliceBy_made (hv : v.WellFormed)
    (h : v.sliceBy shape specs sentinel = .ok (mapping, w)) :
    mapAxes sentinel shape specs ((v.shown.map AxisRange.length).map some) = .ok mapping ∧
      v.slice mapping.spans = .ok w := by
  simp only [sliceBy, lengths_eq hv, mapSlice, bind_eq_ok, ite_error_eq_ok, pure_eq_ok,
    Except.ok.injEq, exists_eq_left', Prod.mk.injEq] at h
  obtain ⟨mapping, ⟨_, hmapping⟩, w, hslice, rfl, rfl⟩ := h
  exact ⟨hmapping, hslice⟩

/-- Every axis of a slice by specifications is narrowed by the span of its own one. -/
theorem sliceBy_shown_at (hv : v.WellFormed) (hrank : shape.length = v.rank)
    (h : v.sliceBy shape specs sentinel = .ok (mapping, w)) {axis : Nat} {range : AxisRange}
    (hrange : v.shown[axis]? = some range) :
    ∃ span ∈ mapping.spans,
      (specs[axis]?.getD .full).span (some range.length) sentinel = .ok span ∧
      w.shown[axis]? = some (narrow range span) := by
  obtain ⟨hmapping, hslice⟩ := sliceBy_made hv h
  have hcount : (v.shown.map AxisRange.length).length = shape.length := by
    rw [List.length_map, hv.length_shown, hrank]
  have hlength : (v.shown.map AxisRange.length)[axis]? = some range.length := by
    rw [List.getElem?_map, hrange]
    rfl
  obtain ⟨span, hspan, hmeant⟩ := (mapAxes_at hcount hmapping axis).2 _ hlength
  refine ⟨span, List.mem_of_getElem? hspan, hmeant, ?_⟩
  rw [slice_shown_at hv hslice, hrange, hspan]
  rfl

/-- Every axis of a slice by specifications has the dimension that its own one leaves: that of
the shape if it is the full one, and none of its own otherwise. -/
theorem sliceBy_shape_at (hv : v.WellFormed)
    (h : v.sliceBy shape specs sentinel = .ok (mapping, w)) {axis : Nat} {dim : Dimension}
    (hdim : shape[axis]? = some dim) :
    (specs[axis]?.getD .full = .full → mapping.shape[axis]? = some dim) ∧
      (specs[axis]?.getD .full ≠ .full → mapping.shape[axis]? = some .anonymous) := by
  rw [mapAxes_shape (sliceBy_made hv h).1, List.getElem?_mapIdx, hdim]
  cases specs[axis]?.getD .full with
  | full => exact ⟨fun _ => rfl, fun hother => absurd rfl hother⟩
  | bounded | starting | ending | within =>
      refine ⟨fun hfull => ?_, fun _ => rfl⟩
      cases hfull

/-- The spans that specifications of integers come to are spans of integers. -/
theorem sliceBy_spans [Unbounded] (hv : v.WellFormed) (hi : v.Integral)
    (hrank : shape.length = v.rank) (hspecs : ∀ spec ∈ specs, spec.Integral)
    (h : v.sliceBy shape specs sentinel = .ok (mapping, w)) :
    ∀ span ∈ mapping.spans, span.start.Integral ∧ span.stop.Integral := by
  have hcount : shape.length = v.shown.length := hrank.trans hv.length_shown.symm
  have hshown := fun r (hr : r ∈ v.shown) => hi.of_mem_shown hr
  exact (mapAxes_ok hcount hspecs hshown (sliceBy_made hv h).1).2.1

end

/-- **What a slice by specifications selects.**  Let any view that can be reached be sliced by
specifications, with a shape of its rank, and let both resolve under a binding for which no
relative start is negative.  Then the axes are as many and in the same order, and on each of
them the positions that are left are those of the view that lie within both bounds of the
specification, counted from where the range of the view starts.  An axis with the full
specification or none keeps its range and its dimension; any other has an anonymous one. -/
theorem slice_selects {v w : View} (hv : v.Reachable) {shape : Shape}
    (hrank : shape.length = v.rank) {specs : List RangeSpec}
    (hspecs : ∀ spec ∈ specs, spec.Integral) {sentinel : Number} {mapping : SliceMapping}
    (hslice : Exact fun _ => v.sliceBy shape specs sentinel)
    (h : v.sliceBy shape specs sentinel = .ok (mapping, w))
    {bindings : Bindings} (hb : bindings.Integral)
    (hstarts : ∀ span ∈ mapping.spans, (Exact fun _ => span.start.evaluate bindings) ∧
      ∃ s : Int, 0 ≤ s ∧ span.start.evaluate bindings = .ok (.int s))
    {outer inner : ResolvedView} (houter : Exact fun _ => v.resolve bindings)
    (hinner : Exact fun _ => w.resolve bindings) (hbefore : v.resolve bindings = .ok outer)
    (hafter : w.resolve bindings = .ok inner) :
    inner.order = outer.order ∧ outer.ranges.length = shape.length ∧
      inner.ranges.length = shape.length ∧ mapping.shape.length = shape.length ∧
      ∀ (axis : Nat) (dim : Dimension) (whole part : ConcreteRange), shape[axis]? = some dim →
        outer.ranges[axis]? = some whole → inner.ranges[axis]? = some part →
          (∀ ρ, bindings.Agrees ρ → (specs[axis]?.getD .full).Cuts ρ whole part) ∧
          (specs[axis]?.getD .full = .full → mapping.shape[axis]? = some dim) ∧
          (specs[axis]?.getD .full ≠ .full → mapping.shape[axis]? = some .anonymous) := by
  have hwell := hv.wellFormed
  have hvi := hv.integral
  have hcut := hslice.symm.trans h
  have hmade := (@sliceBy_made .unbounded _ _ _ _ _ _ hwell hcut).2
  have hspans := @sliceBy_spans .unbounded _ _ _ _ _ _ _ hwell hvi hrank hspecs hcut
  have hw := @slice_ok _ _ .unbounded hwell _ hmade
  have hwi := @slice_integral _ _ .unbounded _ hwell hvi _ hspans hmade
  have hresolved := fun ρ (hρ : bindings.Agrees ρ) =>
    And.intro (@resolve_value _ ρ .unbounded _ _ hwell hvi hρ _ (houter.symm.trans hbefore)).1
      (@resolve_value _ ρ .unbounded _ _ hw.1 hwi hρ _ (hinner.symm.trans hafter)).1
  obtain ⟨rfl, rfl⟩ := hresolved _ (hb.agrees_completed fun _ => 0)
  refine ⟨slice_order (sliceBy_made hwell h).2, ?_, ?_, ?_, ?_⟩
  · rw [concrete, List.length_map, hwell.length_shown, hrank]
  · rw [concrete, List.length_map, hw.1.length_shown, hw.2.1, hrank]
  · rw [mapAxes_shape (sliceBy_made hwell h).1, List.length_mapIdx]
  · intro axis dim whole part hdim hwhole hpart
    refine ⟨fun ρ hρ => ?_, sliceBy_shape_at hwell h hdim⟩
    obtain ⟨houtside, hinside⟩ := hresolved ρ hρ
    rw [houtside, concrete, List.getElem?_map] at hwhole
    obtain ⟨range, hrange, rfl⟩ := Option.map_eq_some_iff.mp hwhole
    obtain ⟨span, hspan, hmeant, hshown⟩ :=
      @sliceBy_shown_at .unbounded _ _ _ _ _ _ hwell hrank hcut _ _ hrange
    rw [hinside, concrete, List.getElem?_map, hshown] at hpart
    obtain rfl := Option.some.inj hpart
    have hspec := RangeSpec.integral_getD hspecs axis
    have hri := hvi.of_mem_shown (List.mem_of_getElem? hrange)
    have hstart : 0 ≤ span.start.value ρ := by
      obtain ⟨hexact, s, hs, hstart⟩ := hstarts span hspan
      have hvalue := @Size.evaluate_value .unbounded _ _ _ _ _ (hspans span hspan).1 hρ
        (hexact.symm.trans hstart)
      rw [← Number.int.inj hvalue]
      exact hs
    exact @RangeSpec.narrow_cuts ρ .unbounded _ _ _ _ hspec _ hri hmeant hstart

/-- From `n` up to and with the fourth. -/
def upToFourth : RangeSpec :=
  .within (.size (.symbol "n")) (.number 4) true

/-- The middle rows from `n` up to and with the fourth. -/
def rowsUpToFourth : View :=
  ⟨[⟨.binary .add (.symbol "n") (.literal 2), .literal 7, .literal 10, false⟩], [0]⟩

/-- For `n = 1` they are rows three to six of storage, and the axis has lost its size. -/
theorem slice_selects_rows :
    middleRows.sliceBy [.constant 6] [upToFourth] defaultSentinel =
        .ok (⟨[⟨.symbol "n", .literal 5⟩], [.anonymous]⟩, rowsUpToFourth) ∧
      rowsUpToFourth.resolve [("n", 1)] = .ok ⟨[4], [⟨3, 7, false⟩], [0]⟩ ∧
      ∀ ρ, Bindings.Agrees [("n", 1)] ρ → upToFourth.Cuts ρ ⟨2, 8, false⟩ ⟨3, 7, false⟩ := by
  have hb : Bindings.Integral [("n", 1)] := Bindings.integral_nil.cons "n" 1
  have hspecs : ∀ spec ∈ [upToFourth], spec.Integral := by
    simpa using ⟨trivial, trivial⟩
  have hslice : middleRows.sliceBy [.constant 6] [upToFourth] defaultSentinel =
      .ok (⟨[⟨.symbol "n", .literal 5⟩], [.anonymous]⟩, rowsUpToFourth) := rfl
  have hbefore : middleRows.resolve [("n", 1)] = .ok ⟨[6], [⟨2, 8, false⟩], [0]⟩ := rfl
  have hafter : rowsUpToFourth.resolve [("n", 1)] = .ok ⟨[4], [⟨3, 7, false⟩], [0]⟩ := rfl
  have hstarts : ∀ span ∈ [Span.mk (.symbol "n") (.literal 5)],
      (Exact fun _ => span.start.evaluate [("n", 1)]) ∧
        ∃ s : Int, 0 ≤ s ∧ span.start.evaluate [("n", 1)] = .ok (.int s) := by
    intro span hspan
    obtain rfl := List.mem_singleton.mp hspan
    exact ⟨.of_eq (.ok 1) rfl rfl, 1, by omega, rfl⟩
  have hselects := slice_selects reachable_middleRows rfl hspecs (.of_eq _ hslice rfl) hslice hb
    hstarts (.of_eq _ hbefore rfl) (.of_eq _ hafter rfl) hbefore hafter
  refine ⟨hslice, hafter, fun ρ hρ => ?_⟩
  exact (hselects.2.2.2.2 0 _ _ _ rfl rfl rfl).1 ρ hρ

end View

end ShapeGraph
