import ShapeGraph.Proofs.Size.Parts
import ShapeGraph.Proofs.View.Acceptance
import ShapeGraph.Proofs.View.Narrowing

/-!
# Ranges whose bounds evaluate

A view resolves just if the bounds of every range it shows evaluate, to a range of storage
that is not reversed.  Narrowing a range keeps what its bounds are made of: a narrowed range
evaluates just if the range and the span do.  Nothing that evaluates to a range of storage is
refused, as only literals are checked when a view is sliced, and a literal has the same value
everywhere.

* `Span.Evaluates`, `AxisRange.Evaluates` — both bounds come to integers;
* `narrow_evaluates_iff` — what a narrowed range evaluates to;
* `resolve_iff` — a view resolves just if its ranges evaluate to ranges of storage;
* `slice_of_admits` — a slice is accepted if its spans evaluate to parts of storage.
-/

namespace ShapeGraph

open ShapeGraph.Numeric (Arithmetic Number Unbounded)

/-- The bounds of a span come to integers. -/
structure Span.Evaluates [Arithmetic] (bindings : Bindings) (span : Span) (s e : Int) : Prop where
  start : span.start.evaluate bindings = .ok (.int s)
  stop : span.stop.evaluate bindings = .ok (.int e)

/-- Every literal of a span is an integer. -/
def Span.Integral (span : Span) : Prop :=
  span.start.Integral ∧ span.stop.Integral

/-- The bounds of a range come to integers. -/
structure AxisRange.Evaluates [Arithmetic] (bindings : Bindings) (range : AxisRange) (m n : Int) :
    Prop where
  start : range.start.evaluate bindings = .ok (.int m)
  stop : range.stop.evaluate bindings = .ok (.int n)

namespace Size

variable [Arithmetic] {bindings : Bindings} {s : Size} {m n : Int}

/-- A size evaluates to one integer. -/
theorem evaluate_unique (h : s.evaluate bindings = .ok (.int m))
    (h' : s.evaluate bindings = .ok (.int n)) : m = n :=
  Number.int.inj (Except.ok.inj (h.symm.trans h'))

variable [Unbounded]

/-- What a size of integers evaluates to is an integer. -/
theorem evaluate_integral {v : Number} (hs : s.Integral) (hb : bindings.Integral)
    (h : s.evaluate bindings = .ok v) : ∃ n : Int, v = .int n :=
  substitute_integral hs hb (evaluate_eq_ok.mp h)

end Size

namespace View

variable {v w : View} {bindings : Bindings} {range : AxisRange} {span : Span}

/-! ## Narrowing -/

section

variable [Arithmetic] [Unbounded]

/-- **A narrowed range evaluates** just if the range and the span do: it starts as far on as
the span says, and ends where the span or the range does. -/
theorem narrow_evaluates_iff (hrange : range.Integral) (hspan : span.Integral)
    (hb : bindings.Integral) {p q : Int} :
    (narrow range span).Evaluates bindings p q ↔
      ∃ m n s e, range.Evaluates bindings m n ∧ span.Evaluates bindings s e ∧
        p = m + s ∧ q = min (m + e) n := by
  have hsum := (Size.add_means hrange.start.means hspan.2.means).integral
  constructor
  · rintro ⟨hstart, hstop⟩
    obtain ⟨m, s, hm, hs, hp⟩ := (Size.evaluate_add_iff hrange.start hspan.1 hb).mp hstart
    obtain ⟨k, n, hk, hn, hq⟩ := (Size.evaluate_min_iff hsum hrange.stop hb).mp hstop
    obtain ⟨m', e, hm', he, hk⟩ := (Size.evaluate_add_iff hrange.start hspan.2 hb).mp hk
    obtain rfl := Size.evaluate_unique hm hm'
    obtain rfl := Number.int.inj hk
    exact ⟨m, n, s, e, ⟨hm, hn⟩, ⟨hs, he⟩, Number.int.inj hp, Number.int.inj hq⟩
  · rintro ⟨m, n, s, e, ⟨hm, hn⟩, ⟨hs, he⟩, rfl, rfl⟩
    have hstop := (Size.evaluate_add_iff hrange.start hspan.2 hb).mpr ⟨m, e, hm, he, rfl⟩
    exact ⟨(Size.evaluate_add_iff hrange.start hspan.1 hb).mpr ⟨m, s, hm, hs, rfl⟩,
      (Size.evaluate_min_iff hsum hrange.stop hb).mpr ⟨m + e, n, hstop, hn, rfl⟩⟩

end

/-! ## Resolution -/

/-- A range evaluates to one of storage that is not reversed. -/
def ResolvesTo [Arithmetic] (bindings : Bindings) (range : AxisRange) (concrete : ConcreteRange) :
    Prop :=
  ∃ m n : Int, range.Evaluates bindings m n ∧ 0 ≤ m ∧ m ≤ n ∧
    concrete = ⟨.int m, .int n, range.broadcast⟩

section

variable [Arithmetic] [Unbounded]

/-- Ranges are resolved one by one, each to what it evaluates to. -/
theorem resolveFrom_iff {axis : Nat} {ranges : List AxisRange} {resolved : List ConcreteRange}
    (hi : ∀ range ∈ ranges, range.Integral) (hb : bindings.Integral) :
    resolveFrom bindings axis ranges = .ok resolved ↔
      List.Forall₂ (ResolvesTo bindings) ranges resolved := by
  have hbounds : ∀ m n : Int, ¬ ((Number.int m).lt 0 || (Number.int n).lt (.int m)) = true ↔
      0 ≤ m ∧ m ≤ n := by
    intro m n
    simp [show (0 : Number) = .int 0 from rfl]
  induction ranges generalizing axis resolved with
  | nil => cases resolved <;> simp [resolveFrom]
  | cons range rest ih =>
      have hrange := hi range List.mem_cons_self
      have hrest := fun r hr => hi r (List.mem_cons_of_mem _ hr)
      simp only [resolveFrom, bind_eq_ok, ite_error_eq_ok, pure_eq_ok, List.forall₂_cons_left_iff]
      constructor
      · rintro ⟨start, hstart, stop, hstop, hproper, others, hothers, rfl⟩
        obtain ⟨m, rfl⟩ := Size.evaluate_integral hrange.start hb hstart
        obtain ⟨n, rfl⟩ := Size.evaluate_integral hrange.stop hb hstop
        obtain ⟨hm, hn⟩ := (hbounds m n).mp hproper
        exact ⟨_, others, ⟨m, n, ⟨hstart, hstop⟩, hm, hn, rfl⟩, (ih hrest).mp hothers, rfl⟩
      · rintro ⟨_, others, ⟨m, n, ⟨hstart, hstop⟩, hm, hn, rfl⟩, hothers, rfl⟩
        exact ⟨_, hstart, _, hstop, (hbounds m n).mpr ⟨hm, hn⟩, others, (ih hrest).mpr hothers, rfl⟩

/-- The lengths, the ranges and the order of a view whose ranges are known. -/
def resolvedBy (ranges : List ConcreteRange) (order : List Nat) : ResolvedView :=
  ⟨ranges.map fun range => range.stop.sub range.start, ranges, order⟩

/-- **A view resolves** just if every range it shows evaluates to one of storage that is not
reversed. -/
theorem resolve_iff (hv : v.WellFormed) (hi : v.Integral) (hb : bindings.Integral)
    {resolved : ResolvedView} :
    v.resolve bindings = .ok resolved ↔
      ∃ ranges, ranges.length = v.rank ∧
        (∀ (axis : Nat) (range : AxisRange) (concrete : ConcreteRange),
          v.shown[axis]? = some range → ranges[axis]? = some concrete →
            ResolvesTo bindings range concrete) ∧
        resolved = resolvedBy ranges v.order := by
  have hshown := fun r (hr : r ∈ v.shown) => hi.of_mem_shown hr
  simp only [resolve, ranges_eq hv, bind_eq_ok, pure_eq_ok, Except.ok.injEq, exists_eq_left',
    resolveFrom_iff hshown hb, forall₂_iff_getElem?, hv.length_shown]
  constructor
  · rintro ⟨ranges, ⟨hlength, hranges⟩, rfl⟩
    exact ⟨ranges, hlength, hranges, rfl⟩
  · rintro ⟨ranges, hlength, hranges, rfl⟩
    exact ⟨ranges, ⟨hlength, hranges⟩, rfl⟩

end

/-! ## Slices that are accepted -/

section

variable [Arithmetic]

/-- A span evaluates to a part of a range that is in storage and not reversed. -/
def Admits (bindings : Bindings) (range : AxisRange) (span : Span) : Prop :=
  ∃ m n s e, range.Evaluates bindings m n ∧ span.Evaluates bindings s e ∧ 0 ≤ s ∧ s ≤ e ∧
    m + s ≤ min (m + e) n

variable [Unbounded]

/-- What a size evaluates to is its value under any valuation that agrees with the bindings. -/
theorem Admits.takes (hrange : range.Integral) (hspan : span.Integral) (hb : bindings.Integral)
    (h : Admits bindings range span) : range.Takes span := by
  obtain ⟨m, n, s, e, ⟨hm, hn⟩, ⟨hs, he⟩, hstart, hstop, hpart⟩ := h
  have hρ := hb.agrees_completed fun _ => 0
  obtain rfl := Number.int.inj (Size.evaluate_value hrange.start hρ hm)
  obtain rfl := Number.int.inj (Size.evaluate_value hrange.stop hρ hn)
  obtain rfl := Number.int.inj (Size.evaluate_value hspan.1 hρ hs)
  obtain rfl := Number.int.inj (Size.evaluate_value hspan.2 hρ he)
  exact AxisRange.takes_of_value hrange hspan.1 hspan.2 hstart hstop hpart

/-- **A slice is accepted** if every span evaluates to a part of its range that is in storage
and not reversed. -/
theorem slice_of_admits (hv : v.WellFormed) (hi : v.Integral) (hb : bindings.Integral)
    {spans : List Span} (hcount : spans.length ≤ v.rank) (hspans : ∀ span ∈ spans, span.Integral)
    (h : ∀ (axis : Nat) (range : AxisRange) (span : Span), v.shown[axis]? = some range →
      spans[axis]? = some span → Admits bindings range span) :
    ∃ w, v.slice spans = .ok w := by
  apply (slice_succeeds_iff hv).mpr
  intro axis span hspan
  have hlt : axis < v.shown.length := by
    have haxis : axis < spans.length := (List.getElem?_eq_some_iff.mp hspan).1
    rw [hv.length_shown]
    omega
  have hrange : v.shown[axis]? = some v.shown[axis] := List.getElem?_eq_getElem hlt
  exact ⟨_, hrange, (h axis _ span hrange hspan).takes (hi.of_mem_shown (List.getElem_mem hlt))
    (hspans span (List.mem_of_getElem? hspan)) hb⟩

end

end View

end ShapeGraph
