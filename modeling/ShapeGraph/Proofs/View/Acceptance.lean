import ShapeGraph.Proofs.View.Extent

/-!
# Which slices are accepted

A slice is checked axis by axis, and only where the bounds are literals: a span may not begin
or end before its range and may not end before it begins, and neither may the range that is
left.  The number of the axis gets into the text of a refusal alone.  So a slice is accepted
just if every span has a range that takes it, wherever the two stand.

* `AxisRange.Takes` — one range takes one span;
* `AxisRange.takes_of_value` — it does if their values, whatever they are, are in order;
* `sliceFrom_succeeds_iff` — the axes from some number on;
* `slice_succeeds_iff` — the whole slice.
-/

namespace ShapeGraph

open ShapeGraph.Numeric (Arithmetic Number Unbounded)

namespace Size

/-- If the size is a literal, it is no negative number. -/
def NotNegative (s : Size) : Prop :=
  ∀ v, s.value? = some v → v.lt 0 = false

/-- A size is no negative number if the check for one does not find it. -/
theorem notNegative_iff {s : Size} :
    s.NotNegative ↔ (s.value?.any fun v => v.lt 0) = false := by
  cases hvalue : s.value? <;> simp [NotNegative, hvalue]

/-- If both sizes are literals, the second is no smaller number than the first. -/
def NotReversed (start stop : Size) : Prop :=
  ∀ s e, start.value? = some s → stop.value? = some e → e.lt s = false

variable {s start stop : Size} {ρ : Valuation}

/-- A size whose value is not negative is no negative number. -/
theorem Integral.notNegative (hs : s.Integral) (h : 0 ≤ s.value ρ) : s.NotNegative := by
  intro v hv
  rw [hs.literal_eq hv ρ]
  simpa [show (0 : Number) = .int 0 from rfl] using h

/-- Sizes whose values are in order are not reversed numbers. -/
theorem Integral.notReversed (hstart : start.Integral) (hstop : stop.Integral)
    (h : start.value ρ ≤ stop.value ρ) : start.NotReversed stop := by
  intro s e hs he
  rw [hstart.literal_eq hs ρ, hstop.literal_eq he ρ]
  simpa using h

end Size

namespace View

variable {start stop : Size} {axis : Nat} {done : Unit}

/-- The check for negative bounds lets a span through if neither bound is a negative number. -/
theorem refuseNegative_eq_ok :
    refuseNegative axis start stop = .ok done ↔ start.NotNegative ∧ stop.NotNegative := by
  simp [refuseNegative, Size.notNegative_iff]

/-- The check for reversed bounds lets a span through if they are not reversed numbers. -/
theorem refuseReversed_eq_ok :
    refuseReversed axis start stop = .ok done ↔ start.NotReversed stop := by
  unfold refuseReversed
  split
  · next s e hs he => simp [Size.NotReversed, hs, he]
  · next hnone =>
    simp only [true_iff]
    intro s e hs he
    exact (hnone s e hs he).elim

end View

variable [Arithmetic]

/-- A range is narrowed by a span, which is not refused. -/
structure AxisRange.Takes (range : AxisRange) (span : Span) : Prop where
  start : span.start.NotNegative
  stop : span.stop.NotNegative
  ordered : span.start.NotReversed span.stop
  narrowed : (View.narrow range span).start.NotReversed (View.narrow range span).stop

/-- A literal has its own value whatever the symbols stand for, so a range takes a span if
under some valuation the span is a part of it. -/
theorem AxisRange.takes_of_value [Unbounded] {range : AxisRange} {span : Span}
    (hrange : range.Integral) (hstart : span.start.Integral) (hstop : span.stop.Integral)
    {ρ : Valuation} (h : 0 ≤ span.start.value ρ) (h' : span.start.value ρ ≤ span.stop.value ρ)
    (hpart : range.start.value ρ + span.start.value ρ ≤
      min (range.start.value ρ + span.stop.value ρ) (range.stop.value ρ)) :
    range.Takes span := by
  have hfirst := Size.add_means hrange.start.means hstart.means
  have hlast := Size.min_means (Size.add_means hrange.start.means hstop.means) hrange.stop.means
  have hend : 0 ≤ span.stop.value ρ := by omega
  refine ⟨hstart.notNegative h, hstop.notNegative hend, hstart.notReversed hstop h', ?_⟩
  apply hfirst.integral.notReversed hlast.integral
  rwa [hfirst.value_eq, hlast.value_eq]

namespace View

variable {v : View} {spans : List Span}

/-- What has been narrowed before has no say in whether the next axes are. -/
theorem sliceFrom_succeeds_iff (hv : v.WellFormed) {axis : Nat} {axes : List AxisRange} :
    (∃ narrowed, v.sliceFrom axis spans axes = .ok narrowed) ↔
      ∀ (k : Nat) (span : Span), spans[k]? = some span →
        ∃ range, v.shown[axis + k]? = some range ∧ range.Takes span := by
  induction spans generalizing axis axes with
  | nil => simp [sliceFrom]
  | cons span rest ih =>
      simp only [sliceFrom, bind_eq_ok, refuseNegative_eq_ok, refuseReversed_eq_ok,
        axisAt_eq_ok hv]
      constructor
      · rintro ⟨narrowed, _, ⟨hstart, hstop⟩, _, hordered, range, hrange, _, hnarrowed, hrest⟩
        intro k other hother
        cases k with
        | zero =>
            obtain rfl := Option.some.inj hother
            exact ⟨range, hrange, hstart, hstop, hordered, hnarrowed⟩
        | succ k =>
            have hlater := ih.mp ⟨narrowed, hrest⟩ k other hother
            rwa [Nat.add_right_comm, Nat.add_assoc] at hlater
      · intro h
        obtain ⟨range, hrange, htakes⟩ := h 0 span rfl
        have hlater : ∀ (k : Nat) (other : Span), rest[k]? = some other →
            ∃ held, v.shown[axis + 1 + k]? = some held ∧ held.Takes other := by
          intro k other hother
          rw [Nat.add_right_comm, Nat.add_assoc]
          exact h (k + 1) other hother
        obtain ⟨narrowed, hrest⟩ := ih.mpr hlater
        exact ⟨narrowed, (), ⟨htakes.start, htakes.stop⟩, (), htakes.ordered, range, hrange, (),
          htakes.narrowed, hrest⟩

/-- **A slice is accepted** just if every span has a range that takes it. -/
theorem slice_succeeds_iff (hv : v.WellFormed) : (∃ w, v.slice spans = .ok w) ↔
    ∀ (axis : Nat) (span : Span), spans[axis]? = some span →
      ∃ range, v.shown[axis]? = some range ∧ range.Takes span := by
  have hsteps : (∃ narrowed, v.sliceFrom 0 spans v.axes = .ok narrowed) ↔ _ :=
    sliceFrom_succeeds_iff hv
  simp only [Nat.zero_add] at hsteps
  rw [← hsteps]
  simp only [slice, ite_error_eq_ok, bind_eq_ok, pure_eq_ok]
  constructor
  · rintro ⟨w, _, narrowed, hnarrowed, _⟩
    exact ⟨narrowed, hnarrowed⟩
  · intro h
    have hcount : spans.length ≤ v.rank := by
      rw [← hv.length_shown]
      by_contra hlonger
      have hlt : v.shown.length < spans.length := by omega
      obtain ⟨_, hrange, _⟩ := hsteps.mp h _ _ (List.getElem?_eq_getElem hlt)
      simp at hrange
    obtain ⟨narrowed, hnarrowed⟩ := h
    exact ⟨_, by omega, narrowed, hnarrowed, rfl⟩

end View

end ShapeGraph
