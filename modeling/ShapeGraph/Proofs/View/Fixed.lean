import ShapeGraph.Proofs.Size.Combine
import ShapeGraph.Proofs.View.Whole

/-!
# Views that are fixed

The bounds of a range are fixed if they are literals that start in storage and do not end
before they start.  Sizes that are numbers are folded as they are put together, so
every operation that is given numbers keeps a view fixed: a slice because its checks see
the bounds that it leaves, and all others because they put in whole axes.

* `Size.IsCount`, `Size.IsInt` — sizes that are known numbers;
* `AxisRange.Fixed`, `View.Fixed` — ranges and views whose bounds are fixed;
* `slice_fixed`, `permute_fixed`, `expand_fixed`, `broadcastAxis_fixed` — one law for each
  operation;
* `Fixed.resolves` — a fixed view resolves, whatever is bound.
-/

namespace ShapeGraph

open ShapeGraph.Numeric (Arithmetic Number Unbounded)

/-! ## Known sizes -/

namespace Size

/-- A number that counts something. -/
def IsCount (s : Size) : Prop :=
  ∃ n : Nat, s = .literal (.ofNat n)

/-- An integer. -/
def IsInt (s : Size) : Prop :=
  ∃ n : Int, s = .literal (.int n)

/-- A count is an integer. -/
theorem IsCount.isInt {s : Size} (h : s.IsCount) : s.IsInt := by
  obtain ⟨n, rfl⟩ := h
  exact ⟨n, rfl⟩

/-- An integer is a size of integers. -/
theorem IsInt.integral {s : Size} (h : s.IsInt) : s.Integral := by
  obtain ⟨n, rfl⟩ := h
  exact ⟨n, rfl⟩

/-- An integer that is not negative is a count. -/
theorem isCount_of_nonneg {n : Int} (h : 0 ≤ n) : (literal (.int n)).IsCount :=
  ⟨n.toNat, by rw [Number.ofNat, Int.toNat_of_nonneg h]⟩

theorem isCount_one : one.IsCount :=
  ⟨1, rfl⟩

/-- A number that callers give is an integer once it has been accepted. -/
theorem isInt_of_ofNumber {v : Number} {s : Size} (h : ofNumber v = .ok s) : s.IsInt := by
  obtain ⟨hsafe, rfl⟩ := ite_ok_eq_ok.mp h
  obtain ⟨n, rfl⟩ := Number.eq_int_of_isSafe hsafe
  exact ⟨n, rfl⟩

section

variable [Arithmetic] [Unbounded]

theorem IsInt.add {l r : Size} (hl : l.IsInt) (hr : r.IsInt) : (l.add r).IsInt := by
  obtain ⟨a, rfl⟩ := hl
  obtain ⟨b, rfl⟩ := hr
  exact ⟨a + b, add_int a b⟩

/-- Sums of counts are counts. -/
theorem IsCount.add {l r : Size} (hl : l.IsCount) (hr : r.IsCount) : (l.add r).IsCount := by
  obtain ⟨a, rfl⟩ := hl
  obtain ⟨b, rfl⟩ := hr
  exact ⟨a + b, add_int a b⟩

theorem IsCount.mul {l r : Size} (hl : l.IsCount) (hr : r.IsCount) : (l.mul r).IsCount := by
  obtain ⟨a, rfl⟩ := hl
  obtain ⟨b, rfl⟩ := hr
  exact ⟨a * b, mul_int a b⟩

/-- A product of counts is a count. -/
theorem isCount_product {sizes : List Size} (h : ∀ s ∈ sizes, s.IsCount) :
    (product sizes).IsCount := by
  suffices ∀ acc : Size, acc.IsCount → (sizes.foldl mul acc).IsCount from this one isCount_one
  induction sizes with
  | nil => exact fun _ hacc => hacc
  | cons size rest ih =>
      obtain ⟨hsize, hrest⟩ := List.forall_mem_cons.mp h
      exact fun acc hacc => ih hrest _ (hacc.mul hsize)

end

end Size

/-! ## Fixed ranges -/

namespace AxisRange

/-- Both bounds are literals, and the range starts in storage and does not end before it
starts. -/
def Fixed (range : AxisRange) : Prop :=
  ∃ start stop : Nat, range.start = .literal (.ofNat start) ∧
    range.stop = .literal (.ofNat stop) ∧ start ≤ stop

/-- The whole of a counted axis is fixed. -/
theorem fixed_whole {size : Size} (h : size.IsCount) (broadcast : Bool) :
    (whole size broadcast).Fixed := by
  obtain ⟨n, rfl⟩ := h
  exact ⟨0, n, rfl, rfl, Nat.zero_le n⟩

/-- There is nothing to number in literals, and nothing to own. -/
theorem Fixed.pin {range : AxisRange} (h : range.Fixed) (n : Nat) : (range.pin n).Fixed := by
  obtain ⟨start, stop, hstart, hstop, hle⟩ := h
  exact ⟨start, stop, by rw [AxisRange.pin, hstart]; rfl, by rw [AxisRange.pin, hstop]; rfl, hle⟩

/-- A fixed range stays so when it is settled. -/
theorem Fixed.settle {range : AxisRange} (h : range.Fixed) (owner : Nat) :
    (range.settle owner).Fixed := by
  obtain ⟨start, stop, hstart, hstop, hle⟩ := h
  exact ⟨start, stop, by rw [AxisRange.settle, hstart]; rfl,
    by rw [AxisRange.settle, hstop]; rfl, hle⟩

/-- The length of a fixed range is a count. -/
theorem Fixed.length_isCount [Arithmetic] [Unbounded] {range : AxisRange} (h : range.Fixed) :
    range.length.IsCount := by
  obtain ⟨start, stop, hstart, hstop, hle⟩ := h
  rw [length, hstart, hstop, Number.ofNat, Number.ofNat, Size.sub_int]
  exact Size.isCount_of_nonneg (by omega)

end AxisRange

/-- Both ends of a span are integers. -/
structure Span.Literal (span : Span) : Prop where
  start : span.start.IsInt
  stop : span.stop.IsInt

namespace View

/-- All ranges of a view are fixed. -/
def Fixed (v : View) : Prop :=
  ∀ range ∈ v.axes, range.Fixed

variable {v w : View}

/-- Storage of counts is fixed. -/
theorem contiguous_fixed {sizes : List Size} (h : ∀ s ∈ sizes, s.IsCount) :
    (contiguous sizes).Fixed := by
  rw [Fixed, contiguous, Size.pinned_of_integral fun s hs => (h s hs).isInt.integral,
    List.forall_mem_map]
  exact fun s hs => AxisRange.fixed_whole (h s hs) false

/-- Fixed ranges stay so when they are pinned. -/
theorem pinAxes_fixed {n : Nat} {axes : List AxisRange} (h : ∀ range ∈ axes, range.Fixed) :
    ∀ range ∈ pinAxes n axes, range.Fixed := by
  induction axes generalizing n with
  | nil => exact List.forall_mem_nil _
  | cons range rest ih =>
      obtain ⟨hrange, hrest⟩ := List.forall_mem_cons.mp h
      exact List.forall_mem_cons.mpr ⟨hrange.pin n, ih hrest⟩

/-- A node keeps the fixed view that it is given. -/
theorem Fixed.settle (h : v.Fixed) (owner : Nat) : (v.settle owner).Fixed := by
  rw [Fixed, View.settle, List.forall_mem_map]
  exact fun range hr => (pinAxes_fixed h range hr).settle owner

/-- The lengths of a fixed view are counts. -/
theorem Fixed.lengths_isCount [Arithmetic] [Unbounded] (hv : v.Fixed) {lengths : List Size}
    (h : v.lengths = .ok lengths) : ∀ s ∈ lengths, s.IsCount := by
  intro s hs
  obtain ⟨range, hr, rfl⟩ := mem_lengths h hs
  exact (hv range hr).length_isCount

/-! ## Operations -/

theorem permute_fixed (hv : v.Fixed) {axes : List Number} (h : v.permute axes = .ok w) :
    w.Fixed := by
  simp only [permute, bind_eq_ok, pure_eq_ok] at h
  obtain ⟨_, _, order, _, rfl⟩ := h
  exact hv

theorem expand_fixed (hv : v.Fixed) {axis : Number} {size : Size} (hsize : size.IsCount)
    (h : v.expand axis (.size size) = .ok w) : w.Fixed := by
  simp only [expand, Quantity.toSize, bind_eq_ok, pure_eq_ok, Except.ok.injEq,
    exists_eq_left'] at h
  obtain ⟨position, _, rfl⟩ := h
  rw [hsize.isInt.integral.pin_eq]
  exact List.forall_mem_append.mpr
    ⟨hv, List.forall_mem_singleton.mpr (AxisRange.fixed_whole hsize true)⟩

section

variable [Arithmetic]

/-- A fixed view stays so when an axis is repeated a number of times. -/
theorem broadcastAxis_fixed (hv : v.Fixed) {axis : Number} {size : Size} (hsize : size.IsCount)
    (h : v.broadcastAxis axis (.size size) = .ok w) : w.Fixed := by
  obtain ⟨position, extent, _, hextent, rfl⟩ := broadcastAxis_made h
  obtain rfl := Except.ok.inj hextent
  intro range hr
  rcases mem_setAxis hr with hr | rfl
  · exact hv range hr
  · rw [hsize.isInt.integral.pin_eq]
    exact AxisRange.fixed_whole hsize true

variable [Unbounded]

/-- A range that is narrowed by integers stays fixed, if its checks go through. -/
theorem narrow_fixed {current : AxisRange} (hcurrent : current.Fixed) {span : Span}
    (hspan : span.Literal) {axis : Nat}
    (hnonneg : refuseNegative axis span.start span.stop = .ok ())
    (hordered : refuseReversed axis (narrow current span).start (narrow current span).stop =
      .ok ()) : (narrow current span).Fixed := by
  obtain ⟨start, stop, hstart, hstop, _⟩ := hcurrent
  obtain ⟨⟨a, ha⟩, b, hb⟩ := hspan
  have hsigns : 0 ≤ a ∧ 0 ≤ b := by
    simpa [refuseNegative, ha, hb, Size.value?, show (0 : Number) = .int 0 from rfl]
      using hnonneg
  obtain ⟨first, rfl⟩ := Int.eq_ofNat_of_zero_le hsigns.1
  obtain ⟨last, rfl⟩ := Int.eq_ofNat_of_zero_le hsigns.2
  have hfirst : (narrow current span).start = .literal (.ofNat (start + first)) := by
    rw [narrow, hstart, ha]
    exact Size.add_int start first
  have hlast : (narrow current span).stop = .literal (.ofNat (min (start + last) stop)) := by
    simp only [narrow, hstart, hstop, hb, Number.ofNat, Size.add_int, Size.min_int]
    exact congrArg (fun n => Size.literal (.int n)) (by omega)
  refine ⟨_, _, hfirst, hlast, ?_⟩
  have hbounds : (start : Int) + first ≤ (min (start + last) stop : Nat) := by
    simpa [refuseReversed, hfirst, hlast, Size.value?, Number.ofNat] using hordered
  exact_mod_cast hbounds

/-- Ranges that are narrowed by integers stay fixed, as bounds that leave storage are refused.
-/
theorem sliceFrom_fixed (hv : v.Fixed) {spans : List Span} (hspans : ∀ span ∈ spans, span.Literal)
    {axis : Nat} {axes narrowed : List AxisRange} (haxes : ∀ range ∈ axes, range.Fixed)
    (h : v.sliceFrom axis spans axes = .ok narrowed) : ∀ range ∈ narrowed, range.Fixed := by
  induction spans generalizing axis axes with
  | nil =>
      obtain rfl := Except.ok.inj h
      exact haxes
  | cons span rest ih =>
      obtain ⟨hspan, hrest⟩ := List.forall_mem_cons.mp hspans
      simp only [sliceFrom, bind_eq_ok] at h
      obtain ⟨_, hnonneg, _, _, current, hcurrent, _, hordered, h⟩ := h
      refine ih hrest (fun range hr => ?_) h
      rcases mem_setAxis hr with hr | rfl
      · exact haxes range hr
      · exact narrow_fixed (hv current (mem_axes_of_axisAt hcurrent)) hspan hnonneg hordered

/-- **A slice by integers leaves a fixed view fixed.** -/
theorem slice_fixed (hv : v.Fixed) {spans : List Span} (hspans : ∀ span ∈ spans, span.Literal)
    (h : v.slice spans = .ok w) : w.Fixed := by
  simp only [slice, ite_error_eq_ok, bind_eq_ok, pure_eq_ok] at h
  obtain ⟨_, axes, haxes, rfl⟩ := h
  exact sliceFrom_fixed hv hspans hv haxes

end

/-! ## Resolution -/

variable [Arithmetic]

/-- Fixed ranges are resolved whatever is bound. -/
theorem resolveFrom_fixed (bindings : Bindings) (axis : Nat) {ranges : List AxisRange}
    (h : ∀ range ∈ ranges, range.Fixed) :
    ∃ resolved, resolveFrom bindings axis ranges = .ok resolved := by
  induction ranges generalizing axis with
  | nil => exact ⟨[], rfl⟩
  | cons range rest ih =>
      obtain ⟨⟨start, stop, hstart, hstop, hle⟩, hrest⟩ := List.forall_mem_cons.mp h
      obtain ⟨others, hothers⟩ := ih (axis + 1) hrest
      refine ⟨⟨.ofNat start, .ofNat stop, range.broadcast⟩ :: others, ?_⟩
      simp only [resolveFrom, bind_eq_ok, ite_error_eq_ok, pure_eq_ok]
      refine ⟨_, by rw [hstart]; rfl, _, by rw [hstop]; rfl, ?_, others, hothers, rfl⟩
      simp [Number.ofNat, show (0 : Number) = .int 0 from rfl]
      omega

/-- **A fixed view resolves**, whatever is bound. -/
theorem Fixed.resolves (hwell : v.WellFormed) (hv : v.Fixed) (bindings : Bindings) :
    ∃ resolved, v.resolve bindings = .ok resolved := by
  obtain ⟨ranges, hranges⟩ := resolveFrom_fixed bindings 0
    fun range hr => hv range (hwell.mem_shown.mp hr)
  simp only [resolve, ranges_eq hwell, bind_eq_ok, pure_eq_ok, Except.ok.injEq, exists_eq_left']
  exact ⟨_, ranges, hranges, rfl⟩

end View

end ShapeGraph
