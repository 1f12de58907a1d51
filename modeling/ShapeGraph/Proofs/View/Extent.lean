import ShapeGraph.Proofs.Size.Substitution
import ShapeGraph.Proofs.View.Shown

/-!
# The extent of a view

Under a valuation of the symbols a view has an extent, an integer for every
logical axis.  Its lengths are sizes with the values of the extent, and
resolving the view gives the extent.

* `extent` — the length of every logical axis under a valuation;
* `HasLengths`, `lengths_ok` — the lengths of a view have the values of its
  extent;
* `resolve_value` — what a view resolves to under a binding of its symbols;
* `resolve_of_defined` — a view without reversed ranges does resolve.
-/

namespace ShapeGraph

open ShapeGraph.Numeric (Arithmetic Number Unbounded)

namespace AxisRange

/-- The length of a range under a valuation. -/
def extent (ρ : Valuation) (range : AxisRange) : Int :=
  range.stop.value ρ - range.start.value ρ

/-- A range with the values of its bounds. -/
def concrete (ρ : Valuation) (range : AxisRange) : ConcreteRange :=
  ⟨.int (range.start.value ρ), .int (range.stop.value ρ), range.broadcast⟩

/-- A range that starts in storage and does not end before it starts. -/
structure Proper (ρ : Valuation) (range : AxisRange) : Prop where
  start_nonneg : 0 ≤ range.start.value ρ
  start_le_stop : range.start.value ρ ≤ range.stop.value ρ

/-- Every symbol of the bounds of a range is known and no divisor is zero. -/
structure Defined (known : String → Prop) (ρ : Valuation) (range : AxisRange) : Prop where
  start : range.start.Defined known ρ
  stop : range.stop.Defined known ρ

@[simp] theorem extent_whole (ρ : Valuation) (size : Size) (broadcast : Bool) :
    (whole size broadcast).extent ρ = size.value ρ :=
  Int.sub_zero _

/-- The length of a range of integers means its extent. -/
theorem length_means [Arithmetic] [Unbounded] {range : AxisRange} (h : range.Integral) :
    range.length.Means fun ρ => range.extent ρ :=
  Size.sub_means h.stop.means h.start.means

end AxisRange

namespace View

/-- The length of every logical axis under a valuation. -/
def extent (ρ : Valuation) (v : View) : List Int :=
  v.shown.map (AxisRange.extent ρ)

/-- A view with the values of the bounds of its ranges. -/
def concrete (ρ : Valuation) (v : View) : ResolvedView :=
  ⟨(v.extent ρ).map .int, v.shown.map (AxisRange.concrete ρ), v.order⟩

variable {v w : View} {ρ : Valuation}

theorem WellFormed.length_extent (hv : v.WellFormed) (ρ : Valuation) :
    (v.extent ρ).length = v.rank := by
  simp [extent, hv.length_shown]

/-- The extent of storage is the values of its sizes. -/
theorem extent_contiguous {sizes : List Size} (h : ∀ s ∈ sizes, s.Integral) (ρ : Valuation) :
    (contiguous sizes).extent ρ = sizes.map (Size.value ρ) := by
  simp [extent, shown_contiguous h]

/-- Sizes of integers that have the values of the extent of a view. -/
structure HasLengths (v : View) (lengths : List Size) : Prop where
  integral : ∀ s ∈ lengths, s.Integral
  values : ∀ ρ, lengths.map (Size.value ρ) = v.extent ρ

section

variable [Arithmetic] [Unbounded]

/-- The lengths of a view of integers have the values of its extent. -/
theorem lengths_ok (hv : v.WellFormed) (hi : v.Integral) {lengths : List Size}
    (h : v.lengths = .ok lengths) : v.HasLengths lengths := by
  obtain rfl := Except.ok.inj ((lengths_eq hv).symm.trans h)
  have hmeans := fun range (hr : range ∈ v.shown) => AxisRange.length_means (hi.of_mem_shown hr)
  refine ⟨List.forall_mem_map.mpr fun range hr => (hmeans range hr).integral, fun ρ => ?_⟩
  rw [List.map_map]
  exact List.map_congr_left fun range hr => (hmeans range hr).value_eq ρ

/-! ## Operations -/

/-- Narrowing a range to a span of integers. -/
theorem narrow_integral {range : AxisRange} {span : Span} (hrange : range.Integral)
    (hstart : span.start.Integral) (hstop : span.stop.Integral) :
    (narrow range span).Integral :=
  ⟨(Size.add_means hrange.start.means hstart.means).integral,
    (Size.min_means (Size.add_means hrange.start.means hstop.means) hrange.stop.means).integral,
    hrange.size⟩

/-- A slice of a view of integers by spans of integers is one of integers. -/
theorem slice_integral (hv : v.WellFormed) (hi : v.Integral) {spans : List Span}
    (hspans : ∀ span ∈ spans, span.start.Integral ∧ span.stop.Integral)
    (h : v.slice spans = .ok w) : w.Integral := by
  obtain ⟨hw, _, hshown⟩ := slice_ok hv h
  rw [integral_iff hw, hshown]
  intro range hr
  rcases List.mem_append.mp hr with hr | hr
  · rw [← List.map_uncurry_zip_eq_zipWith] at hr
    obtain ⟨⟨old, span⟩, hmem, rfl⟩ := List.mem_map.mp hr
    obtain ⟨hold, hspan⟩ := List.of_mem_zip hmem
    exact narrow_integral (hi.of_mem_shown hold) (hspans span hspan).1 (hspans span hspan).2
  · exact hi.of_mem_shown (List.mem_of_mem_drop hr)

/-! ## Resolution -/

variable {bindings : Bindings}

/-- Ranges that are resolved have the values of their bounds, and none of them is reversed. -/
theorem resolveFrom_value {axis : Nat} {ranges : List AxisRange} {resolved : List ConcreteRange}
    (hi : ∀ range ∈ ranges, range.Integral) (hb : bindings.Agrees ρ)
    (h : resolveFrom bindings axis ranges = .ok resolved) :
    resolved = ranges.map (AxisRange.concrete ρ) ∧ ∀ range ∈ ranges, range.Proper ρ := by
  induction ranges generalizing axis resolved with
  | nil =>
      obtain rfl := Except.ok.inj h
      simp
  | cons range rest ih =>
      have hrange := hi range List.mem_cons_self
      simp only [resolveFrom, bind_eq_ok, ite_error_eq_ok, pure_eq_ok] at h
      obtain ⟨start, hstart, stop, hstop, hproper, others, hothers, rfl⟩ := h
      obtain rfl := Size.evaluate_value hrange.start hb hstart
      obtain rfl := Size.evaluate_value hrange.stop hb hstop
      obtain ⟨rfl, hrest⟩ := ih (fun r hr => hi r (List.mem_cons_of_mem _ hr)) hothers
      refine ⟨rfl, List.forall_mem_cons.mpr ⟨?_, hrest⟩⟩
      have hbounds : ¬ (range.start.value ρ < 0 ∨ range.stop.value ρ < range.start.value ρ) := by
        simpa [show (0 : Number) = .int 0 from rfl] using hproper
      exact ⟨by omega, by omega⟩

/-- **A resolved view has its extent**, whatever the symbols that are not bound
stand for, and none of its ranges is reversed. -/
theorem resolve_value (hv : v.WellFormed) (hi : v.Integral) (hb : bindings.Agrees ρ)
    {resolved : ResolvedView} (h : v.resolve bindings = .ok resolved) :
    resolved = v.concrete ρ ∧ ∀ range ∈ v.shown, range.Proper ρ := by
  simp only [resolve, ranges_eq hv, bind_eq_ok, pure_eq_ok, Except.ok.injEq,
    exists_eq_left'] at h
  obtain ⟨ranges, hranges, rfl⟩ := h
  obtain ⟨rfl, hproper⟩ := resolveFrom_value (fun r hr => hi.of_mem_shown hr) hb hranges
  refine ⟨?_, hproper⟩
  simp [concrete, extent, AxisRange.concrete, AxisRange.extent]

/-- Ranges are resolved if their symbols are known and none of them comes out reversed. -/
theorem resolveFrom_of_defined {axis : Nat} {ranges : List AxisRange}
    (hi : ∀ range ∈ ranges, range.Integral) (hb : bindings.Agrees ρ)
    (hd : ∀ range ∈ ranges, range.Defined bindings.Bound ρ)
    (hproper : ∀ range ∈ ranges, range.Proper ρ) :
    resolveFrom bindings axis ranges = .ok (ranges.map (AxisRange.concrete ρ)) := by
  induction ranges generalizing axis with
  | nil => rfl
  | cons range rest ih =>
      have hrange := hi range List.mem_cons_self
      have hdefined := hd range List.mem_cons_self
      obtain ⟨hstart, hstop⟩ := hproper range List.mem_cons_self
      have hothers : resolveFrom bindings (axis + 1) rest = .ok _ :=
        ih (fun r hr => hi r (List.mem_cons_of_mem _ hr))
          (fun r hr => hd r (List.mem_cons_of_mem _ hr))
          (fun r hr => hproper r (List.mem_cons_of_mem _ hr))
      simp only [resolveFrom, bind_eq_ok, ite_error_eq_ok, pure_eq_ok]
      refine ⟨_, Size.evaluate_of_defined hrange.start hb hdefined.start, _,
        Size.evaluate_of_defined hrange.stop hb hdefined.stop, ?_, _, hothers, rfl⟩
      simp [show (0 : Number) = .int 0 from rfl]
      omega

/-- **A view without reversed ranges resolves** to its extent if all its symbols
are bound and no divisor is zero. -/
theorem resolve_of_defined (hv : v.WellFormed) (hi : v.Integral) (hb : bindings.Agrees ρ)
    (hd : ∀ range ∈ v.shown, range.Defined bindings.Bound ρ)
    (hproper : ∀ range ∈ v.shown, range.Proper ρ) :
    v.resolve bindings = .ok (v.concrete ρ) := by
  simp only [resolve, ranges_eq hv, bind_eq_ok, pure_eq_ok, Except.ok.injEq, exists_eq_left']
  refine ⟨_, resolveFrom_of_defined (fun r hr => hi.of_mem_shown hr) hb hd hproper, ?_⟩
  simp [concrete, extent, AxisRange.concrete, AxisRange.extent]

end

end View

end ShapeGraph
