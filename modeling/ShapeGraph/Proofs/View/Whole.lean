import ShapeGraph.Proofs.View.Shown

/-!
# Views of whole storage

The test whether a view is contiguous compares the end of every axis with its size.  A
view that passes it is the contiguous view of its own lengths, whatever numbers are in it:
the lengths are differences from zero, and zero can be taken away from any size.  Taking it
away from an undefined value gives another one, so undefined values count as equal here.

* `View.unmark` — a view whose undefined values count as equal;
* `Size.sub_zero` — taking zero away from a size;
* `isContiguous_settle` — a view that is laid out passes the test, once it is settled;
* `View.Whole`, `whole_of_isContiguous` — what passes the test is whole storage.
-/

namespace ShapeGraph

open ShapeGraph.Numeric (Arithmetic Number)

/-! ## Undefined values -/

namespace Numeric.Number

/-- The number with one undefined value for all of them, which is identical to itself. -/
def unmark : Number → Number
  | .undefined _ => .undefined (.numbered 0)
  | a => a

/-- Without marks, a number is what it was before it was pinned. -/
theorem unmark_pin (a : Number) (n : Nat) : (a.pin n).unmark = a.unmark := by
  rcases a with m | x | (_ | m | ⟨owner, m⟩) <;> rfl

/-- Without its mark, a number is not made anew. -/
theorem isFresh_unmark (a : Number) : a.unmark.isFresh = false := by
  cases a <;> rfl

/-- Numbers that are identical are so without their marks. -/
theorem identical_unmark {a b : Number} (h : a.identical b = true) :
    a.unmark.identical b.unmark = true := by
  simp only [identical, Bool.or_eq_true, Bool.and_eq_true, decide_eq_true_eq] at h
  rcases h with ⟨rfl, _⟩ | hsame
  · exact identical_self a.isFresh_unmark
  · cases a <;> cases b <;> simp_all [identical, same, unmark]

end Numeric.Number

namespace Size

/-- The size with one undefined value for all of them. -/
def unmark : Size → Size
  | literal v => literal v.unmark
  | symbol name => symbol name
  | binary op l r => binary op l.unmark r.unmark

/-- Without marks, a size is what it was before it was pinned. -/
theorem unmark_pin (s : Size) (n : Nat) : (s.pin n).unmark = s.unmark := by
  induction s generalizing n with
  | literal v => exact congrArg literal (v.unmark_pin n)
  | symbol name => rfl
  | binary op l r ihl ihr => simp [pin, unmark, ihl, ihr]

theorem unmark_pinFrom (n : Nat) (sizes : List Size) :
    (pinFrom n sizes).map unmark = sizes.map unmark := by
  induction sizes generalizing n with
  | nil => rfl
  | cons size rest ih => simp [pinFrom, unmark_pin, ih]

/-- Without marks, no number in a size is made anew. -/
theorem freshCount_unmark (s : Size) : s.unmark.freshCount = 0 := by
  induction s with
  | literal v => simp [unmark, freshCount, v.isFresh_unmark]
  | symbol name => rfl
  | binary op l r ihl ihr => simp [unmark, freshCount, ihl, ihr]

/-- Sizes that are the same are so without marks. -/
theorem same_unmark {s t : Size} (h : s.same t = true) : s.unmark.same t.unmark = true := by
  induction s generalizing t with
  | literal v => cases t <;> simp_all [same, unmark, Number.identical_unmark]
  | symbol name => cases t <;> simp_all [same, unmark]
  | binary op l r ihl ihr => cases t <;> simp_all [same, unmark]

/-- Zero can be taken away from the size if it is a bare number, as it can from any double. -/
def LessZero [Arithmetic] (s : Size) : Prop :=
  ∀ v, s = literal v → (v.sub 0).unmark = v.unmark

/-- Zero can be taken away from a size: from a bare number by assumption, and from the
others always. -/
theorem sub_zero [Arithmetic] {s : Size} (h : s.LessZero) : (s.sub zero).unmark = s.unmark := by
  cases s with
  | literal v => exact congrArg literal (h v rfl)
  | symbol name => rfl
  | binary op l r => cases op <;> cases r <;> rfl

/-- No number in a pinned size is made anew. -/
theorem freshCount_pin (s : Size) (n : Nat) : (s.pin n).freshCount = 0 := by
  induction s generalizing n with
  | literal v =>
      rcases v with m | x | (_ | m | ⟨owner, m⟩) <;>
        simp [pin, freshCount, Number.pin, Number.isFresh]
  | symbol name => rfl
  | binary op l r ihl ihr => simp [pin, freshCount, ihl, ihr]

theorem freshCount_pinFrom {n : Nat} {sizes : List Size} :
    ∀ s ∈ pinFrom n sizes, s.freshCount = 0 := by
  induction sizes generalizing n with
  | nil => exact List.forall_mem_nil _
  | cons size rest ih => exact List.forall_mem_cons.mpr ⟨freshCount_pin size n, ih⟩

/-- A size in which nothing is made anew stays so when it is settled. -/
theorem freshCount_settle {s : Size} (h : s.freshCount = 0) (owner : Nat) :
    (s.settle owner).freshCount = 0 := by
  induction s with
  | literal v =>
      rcases v with m | x | (_ | m | ⟨owner, m⟩) <;>
        simp_all [settle, freshCount, Number.settle, Number.isFresh]
  | symbol name => rfl
  | binary op l r ihl ihr =>
      simp only [freshCount, Nat.add_eq_zero_iff] at h
      simp [settle, freshCount, ihl h.1, ihr h.2]

end Size

namespace AxisRange

/-- The range with one undefined value for all of them. -/
def unmark (range : AxisRange) : AxisRange :=
  { range with
    start := range.start.unmark
    stop := range.stop.unmark
    size := range.size.unmark }

/-- There is nothing to pin in a range in which nothing is made anew. -/
theorem pin_of_freshCount {range : AxisRange} (h : range.freshCount = 0) (n : Nat) :
    range.pin n = range := by
  simp only [freshCount, Nat.add_eq_zero_iff] at h
  simp [pin, Size.pin_eq_self h.1.1, Size.pin_eq_self h.1.2, Size.pin_eq_self h.2]

end AxisRange

namespace View

variable {v : View}

/-- The view with one undefined value for all of them. -/
def unmark (v : View) : View :=
  { v with axes := v.axes.map AxisRange.unmark }

@[simp] theorem length_pinAxes (n : Nat) (axes : List AxisRange) :
    (pinAxes n axes).length = axes.length := by
  induction axes generalizing n with
  | nil => rfl
  | cons range rest ih => simp [pinAxes, ih]

/-- There is nothing to pin in ranges in which nothing is made anew. -/
theorem pinAxes_eq_self {axes : List AxisRange} (h : ∀ range ∈ axes, range.freshCount = 0)
    (n : Nat) : pinAxes n axes = axes := by
  induction axes generalizing n with
  | nil => rfl
  | cons range rest ih =>
      obtain ⟨hrange, hrest⟩ := List.forall_mem_cons.mp h
      rw [pinAxes, AxisRange.pin_of_freshCount hrange, ih hrest]

/-- A well-formed view stays so when it is settled. -/
theorem settle_wellFormed (h : v.WellFormed) (owner : Nat) : (v.settle owner).WellFormed := by
  show v.order.Perm (List.range ((pinAxes v.pinBound v.axes).map _).length)
  rw [List.length_map, length_pinAxes]
  exact h

@[simp] theorem rank_settle (v : View) (owner : Nat) : (v.settle owner).rank = v.rank := rfl

/-- The undefined values of a view that is laid out are told apart. -/
theorem freshCount_contiguous (sizes : List Size) :
    ∀ range ∈ (contiguous sizes).axes, range.freshCount = 0 := by
  show ∀ range ∈ (Size.pinned sizes).map _, _
  rw [List.forall_mem_map]
  intro size hsize
  have hfresh : size.freshCount = 0 := Size.freshCount_pinFrom size hsize
  simp [AxisRange.whole, AxisRange.freshCount, hfresh, Size.zero, Size.freshCount,
    Number.isFresh]

/-! ## The test -/

/-- A view passes for contiguous if its axes are in order, and each one is not repeated and goes
from zero to its size. -/
theorem isContiguous_iff : v.isContiguous = true ↔
    v.order = List.range v.rank ∧ ∀ range ∈ v.axes, range.broadcast = false ∧
      range.start = .zero ∧ range.stop.same range.size = true := by
  have hzero : ∀ s : Size, s.same .zero = true ↔ s = .zero := by
    intro s
    rcases s with (n | x | which) | name | ⟨op, l, r⟩ <;>
      simp [Size.same, Size.zero, Number.identical, Number.same, Number.isFresh]
  simp [isContiguous, AxisRange.isWhole, hzero, and_assoc]

/-- A view that is laid out passes the test, once it is settled. -/
theorem isContiguous_settle (sizes : List Size) (owner : Nat) :
    ((contiguous sizes).settle owner).isContiguous = true := by
  refine isContiguous_iff.mpr ⟨by simp [settle, rank, contiguous], ?_⟩
  show ∀ range ∈ (pinAxes _ (contiguous sizes).axes).map (AxisRange.settle owner), _
  rw [pinAxes_eq_self (freshCount_contiguous sizes), List.forall_mem_map]
  show ∀ range ∈ (Size.pinned sizes).map _, _
  rw [List.forall_mem_map]
  intro size hsize
  have hfresh : size.freshCount = 0 := Size.freshCount_pinFrom size hsize
  exact ⟨rfl, rfl, Size.same_self (Size.freshCount_settle hfresh owner)⟩

/-- A view of whole storage in its own order, which is the contiguous view of its lengths,
undefined values counting as equal, if zero can be taken away from the ends of its axes. -/
structure Whole [Arithmetic] (v : View) : Prop where
  contiguous : v.isContiguous = true
  lengths : ∃ lengths, v.lengths = .ok lengths ∧
    ((∀ range ∈ v.axes, range.stop.LessZero) →
      (View.contiguous lengths).unmark.same v.unmark = true)

/-- Views with the same order and the same ranges are the same. -/
theorem same_of_axes {w : View} (horder : v.order = w.order)
    (haxes : List.Forall₂ (fun a b => AxisRange.same a b = true) v.axes w.axes) :
    v.same w = true := by
  have hlength := haxes.length_eq
  have hpairs : (v.axes.zip w.axes).all (fun pair => pair.1.same pair.2) = true := by
    rw [List.all_eq_true]
    intro pair hpair
    exact (List.forall₂_iff_zip.mp haxes).2 hpair
  simp [same, horder, hlength, hpairs]

/-- Without marks, storage is the storage of its sizes without marks. -/
theorem axes_contiguous_unmark (sizes : List Size) :
    (contiguous sizes).unmark.axes = (sizes.map Size.unmark).map (AxisRange.whole · false) := by
  show ((Size.pinned sizes).map (AxisRange.whole · false)).map AxisRange.unmark = _
  rw [← Size.unmark_pinFrom (Size.listBound sizes), Size.pinned, List.map_map, List.map_map]
  rfl

variable [Arithmetic]

/-- **A view that passes the test shows whole storage.** -/
theorem whole_of_isContiguous (hv : v.WellFormed) (h : v.isContiguous = true) : v.Whole := by
  obtain ⟨horder, haxes⟩ := isContiguous_iff.mp h
  have hrank : v.rank = v.axes.length := by
    simpa [rank] using hv.length_eq
  have hshown : v.shown = v.axes := by
    rw [shown, horder, hrank, Axis.picked_range]
  refine ⟨h, _, lengths_eq hv, fun hless => ?_⟩
  have hlengths : (v.axes.map AxisRange.length).map Size.unmark =
      v.axes.map fun range => range.stop.unmark := by
    rw [List.map_map]
    refine List.map_congr_left fun range hr => ?_
    show (range.stop.sub range.start).unmark = _
    rw [(haxes range hr).2.1, Size.sub_zero (hless range hr)]
  rw [hshown]
  refine same_of_axes ?_ ?_
  · simp [View.contiguous, unmark, horder, hrank]
  · rw [axes_contiguous_unmark, hlengths, List.map_map, unmark, List.forall₂_map_left_iff,
      List.forall₂_map_right_iff, List.forall₂_same]
    intro range hr
    obtain ⟨hbroadcast, hstart, hstop⟩ := haxes range hr
    have hself : range.stop.unmark.same range.stop.unmark = true :=
      Size.same_self range.stop.freshCount_unmark
    have hzero : Size.zero.same Size.zero.unmark = true := Size.same_self rfl
    simp [AxisRange.same, AxisRange.whole, AxisRange.unmark, hbroadcast, hstart, hself, hzero,
      Size.same_unmark hstop]

end View

end ShapeGraph
