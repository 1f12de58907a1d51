import ShapeGraph.Proofs.View.Evaluation

/-!
# Slices of slices

A span of a span counts from where the outer one starts and ends where either of them does.
So two slices in sequence are one slice by the spans of spans, axis by axis.  That slice
checks other sizes than the two do, and clamps its ends once where they clamp them twice; but
whatever resolves after the two slices has been in storage and not reversed, so nothing of it
can be refused.

* `Span.compose` — the part that a span is of another one;
* `compose_evaluates_iff` — what it evaluates to;
* `narrow_compose` — narrowing by it comes to the same as narrowing twice, and is admitted
  where that resolves;
* `slice_slice` — slices of any view that can be reached.
-/

namespace ShapeGraph

open ShapeGraph.Numeric (Arithmetic Exact Number Unbounded)

/-- The part `second` of the part `first` of a range. -/
def Span.compose [Arithmetic] (first second : Span) : Span :=
  ⟨first.start.add second.start, (first.start.add second.stop).min first.stop⟩

/-- The spans of spans, axis by axis. -/
def Span.composed [Arithmetic] (first second : List Span) : List Span :=
  List.zipWith Span.compose first second

namespace View

/-! ## One axis -/

section

variable [Arithmetic] [Unbounded] {bindings : Bindings} {range : AxisRange} {first second : Span}

/-- A span is narrowed as a range is. -/
theorem compose_evaluates_iff (hfirst : first.Integral) (hsecond : second.Integral)
    (hb : bindings.Integral) {s e : Int} :
    (first.compose second).Evaluates bindings s e ↔
      ∃ s₁ e₁ s₂ e₂, first.Evaluates bindings s₁ e₁ ∧ second.Evaluates bindings s₂ e₂ ∧
        s = s₁ + s₂ ∧ e = min (s₁ + e₂) e₁ := by
  have hrange : AxisRange.Integral ⟨first.start, first.stop, .zero, false⟩ :=
    ⟨hfirst.1, hfirst.2, Size.means_zero.integral⟩
  have hnarrow := narrow_evaluates_iff hrange hsecond hb (p := s) (q := e)
  constructor
  · rintro ⟨hs, he⟩
    obtain ⟨s₁, e₁, s₂, e₂, ⟨hs₁, he₁⟩, hsecond', rfl, rfl⟩ := hnarrow.mp ⟨hs, he⟩
    exact ⟨s₁, e₁, s₂, e₂, ⟨hs₁, he₁⟩, hsecond', rfl, rfl⟩
  · rintro ⟨s₁, e₁, s₂, e₂, ⟨hs₁, he₁⟩, hsecond', rfl, rfl⟩
    obtain ⟨hs, he⟩ := hnarrow.mpr ⟨s₁, e₁, s₂, e₂, ⟨hs₁, he₁⟩, hsecond', rfl, rfl⟩
    exact ⟨hs, he⟩

/-- A span of a span is one of integers if both are. -/
theorem compose_integral (hfirst : first.Integral) (hsecond : second.Integral) :
    (first.compose second).Integral :=
  ⟨(Size.add_means hfirst.1.means hsecond.1.means).integral,
    (Size.min_means (Size.add_means hfirst.1.means hsecond.2.means) hfirst.2.means).integral⟩

/-- **Narrowing twice is narrowing once** by the span of the span.  Where the range that is
left resolves and no start is negative, the span of the span is admitted. -/
theorem narrow_compose (hrange : range.Integral) (hfirst : first.Integral)
    (hsecond : second.Integral) (hb : bindings.Integral) {concrete : ConcreteRange}
    (h : ResolvesTo bindings (narrow (narrow range first) second) concrete)
    (hstart : ∃ s : Int, 0 ≤ s ∧ first.start.evaluate bindings = .ok (.int s))
    (hstart' : ∃ s : Int, 0 ≤ s ∧ second.start.evaluate bindings = .ok (.int s)) :
    Admits bindings range (first.compose second) ∧
      ResolvesTo bindings (narrow range (first.compose second)) concrete := by
  obtain ⟨p, q, hpq, hp, hle, rfl⟩ := h
  have honce := narrow_integral hrange hfirst.1 hfirst.2
  obtain ⟨m', n', s₂, e₂, houter, hinner, rfl, rfl⟩ :=
    (narrow_evaluates_iff honce hsecond hb).mp hpq
  obtain ⟨m, n, s₁, e₁, hmn, hspan, rfl, rfl⟩ := (narrow_evaluates_iff hrange hfirst hb).mp houter
  obtain ⟨s, hs, hs₁⟩ := hstart
  obtain ⟨s', hs', hs₂⟩ := hstart'
  obtain rfl := Size.evaluate_unique hspan.start hs₁
  obtain rfl := Size.evaluate_unique hinner.start hs₂
  have hcompose := (compose_evaluates_iff hfirst hsecond hb).mpr
    ⟨s₁, e₁, s₂, e₂, hspan, hinner, rfl, rfl⟩
  have hnarrow := (narrow_evaluates_iff hrange (compose_integral hfirst hsecond) hb).mpr
    ⟨m, n, _, _, hmn, hcompose, rfl, rfl⟩
  have hstarts : m + (s₁ + s₂) = m + s₁ + s₂ := by omega
  have hstops : min (m + min (s₁ + e₂) e₁) n = min (m + s₁ + e₂) (min (m + e₁) n) := by omega
  constructor
  · exact ⟨m, n, s₁ + s₂, min (s₁ + e₂) e₁, hmn, hcompose, by omega, by omega, by omega⟩
  · rw [hstarts, hstops] at hnarrow
    exact ⟨_, _, hnarrow, hp, hle, rfl⟩

end

/-! ## All axes -/

section

variable [Arithmetic] [Unbounded] {u v w : View} {bindings : Bindings} {first second : List Span}

omit [Unbounded] in
/-- Two slices by spans of all axes narrow every range twice. -/
theorem slice_slice_shown (hv : v.WellFormed) (hu : v.slice first = .ok u)
    (hw : u.slice second = .ok w) {axis : Nat} {range : AxisRange} {outer inner : Span}
    (hrange : v.shown[axis]? = some range) (houter : first[axis]? = some outer)
    (hinner : second[axis]? = some inner) :
    w.shown[axis]? = some (narrow (narrow range outer) inner) := by
  have huw := (slice_ok hv hu).1
  rw [slice_shown_at huw hw, slice_shown_at hv hu, hrange, houter, hinner]
  rfl

omit [Unbounded] in
/-- Each composed span is made of one of the first and one of the second spans. -/
theorem mem_composed {span : Span} (h : span ∈ Span.composed first second) :
    ∃ outer ∈ first, ∃ inner ∈ second, span = outer.compose inner := by
  obtain ⟨axis, haxis⟩ := List.mem_iff_getElem?.mp h
  obtain ⟨outer, inner, houter, hinner, rfl⟩ := List.getElem?_zipWith_eq_some.mp haxis
  exact ⟨outer, List.mem_of_getElem? houter, inner, List.mem_of_getElem? hinner, rfl⟩

/-- Composed spans are spans of integers if all the spans are. -/
theorem composed_integral (hfirst : ∀ span ∈ first, span.Integral)
    (hsecond : ∀ span ∈ second, span.Integral) :
    ∀ span ∈ Span.composed first second, span.Integral := by
  intro span hspan
  obtain ⟨outer, houter, inner, hinner, rfl⟩ := mem_composed hspan
  exact compose_integral (hfirst outer houter) (hsecond inner hinner)

/-- On each axis the span of the spans is admitted, and narrowing by it comes to what the two
slices have come to. -/
theorem composed_at (hv : v.WellFormed) (hi : v.Integral) (hb : bindings.Integral)
    (hfirst : ∀ span ∈ first, span.Integral) (hsecond : ∀ span ∈ second, span.Integral)
    (hstarts : ∀ span ∈ first ++ second,
      ∃ s : Int, 0 ≤ s ∧ span.start.evaluate bindings = .ok (.int s))
    (hu : v.slice first = .ok u) (hw : u.slice second = .ok w) {axis : Nat} {range : AxisRange}
    {span : Span} {concrete : ConcreteRange} (hrange : v.shown[axis]? = some range)
    (hspan : (Span.composed first second)[axis]? = some span)
    (hresolves : ∀ left, w.shown[axis]? = some left → ResolvesTo bindings left concrete) :
    Admits bindings range span ∧ ResolvesTo bindings (narrow range span) concrete := by
  obtain ⟨outer, inner, houter, hinner, rfl⟩ := List.getElem?_zipWith_eq_some.mp hspan
  have hom := List.mem_of_getElem? houter
  have him := List.mem_of_getElem? hinner
  apply narrow_compose (hi.of_mem_shown (List.mem_of_getElem? hrange)) (hfirst outer hom)
    (hsecond inner him) hb
  · exact hresolves _ (slice_slice_shown hv hu hw hrange houter hinner)
  · exact hstarts outer (List.mem_append_left _ hom)
  · exact hstarts inner (List.mem_append_right _ him)

/-- Nothing that is rounded stands between two slices and one. -/
theorem slice_composed (hv : v.WellFormed) (hi : v.Integral) (hb : bindings.Integral)
    (hcount : first.length = v.rank) (hcount' : second.length = v.rank)
    (hfirst : ∀ span ∈ first, span.Integral) (hsecond : ∀ span ∈ second, span.Integral)
    (hstarts : ∀ span ∈ first ++ second,
      ∃ s : Int, 0 ≤ s ∧ span.start.evaluate bindings = .ok (.int s))
    (hu : v.slice first = .ok u) (hw : u.slice second = .ok w) {resolved : ResolvedView}
    (hresolved : w.resolve bindings = .ok resolved) :
    ∃ x, v.slice (Span.composed first second) = .ok x ∧ x.resolve bindings = .ok resolved := by
  have huw := slice_ok hv hu
  have hww := slice_ok huw.1 hw
  have hui := slice_integral hv hi hfirst hu
  have hwi := slice_integral huw.1 hui hsecond hw
  obtain ⟨ranges, hlength, hranges, rfl⟩ := (resolve_iff hww.1 hwi hb).mp hresolved
  have hspans := composed_integral hfirst hsecond
  have hlast : (Span.composed first second).length = v.rank := by
    rw [Span.composed, List.length_zipWith, hcount, hcount', Nat.min_self]
  have haxis : ∀ (axis : Nat) (range : AxisRange) (span : Span) (concrete : ConcreteRange),
      v.shown[axis]? = some range → (Span.composed first second)[axis]? = some span →
      ranges[axis]? = some concrete →
        Admits bindings range span ∧ ResolvesTo bindings (narrow range span) concrete := by
    intro axis range span concrete hrange hspan hconcrete
    apply composed_at hv hi hb hfirst hsecond hstarts hu hw hrange hspan
    intro left hleft
    exact hranges axis left concrete hleft hconcrete
  have hrank : w.rank = v.rank := hww.2.1.trans huw.2.1
  obtain ⟨x, hx⟩ : ∃ x, v.slice (Span.composed first second) = .ok x := by
    apply slice_of_admits hv hi hb (by omega) hspans
    intro axis range span hrange hspan
    have hlt : axis < ranges.length := by
      have hplace := (List.getElem?_eq_some_iff.mp hspan).1
      omega
    exact (haxis axis range span _ hrange hspan (List.getElem?_eq_getElem hlt)).1
  have hxw := slice_ok hv hx
  have hxi := slice_integral hv hi hspans hx
  have horder : x.order = w.order := by
    rw [slice_order hx, slice_order hw, slice_order hu]
  refine ⟨x, hx, (resolve_iff hxw.1 hxi hb).mpr ⟨ranges, ?_, ?_, by rw [horder]⟩⟩
  · rw [hlength, rank, rank, horder]
  · intro axis range concrete hrange hconcrete
    rw [slice_shown_at hv hx] at hrange
    obtain ⟨old, hold, rfl⟩ := Option.map_eq_some_iff.mp hrange
    have hplace : axis < (Span.composed first second).length := by
      have hshown := (List.getElem?_eq_some_iff.mp hold).1
      rw [hv.length_shown] at hshown
      omega
    have hspan := List.getElem?_eq_getElem hplace
    rw [hspan]
    exact (haxis axis old _ concrete hold hspan hconcrete).2

end

/-! ## Views that can be reached -/

/-- **Nested slices compose.**  Let any view that can be reached be sliced on all axes, and
what that gives once more.  Under a binding under which the last view resolves and no start is
negative, the view can be sliced at once by the spans of the spans, and that resolves to the
same shape, ranges and order. -/
theorem slice_slice {v : View} (hv : v.Reachable) {first second : List Span}
    (hcount : first.length = v.rank) (hcount' : second.length = v.rank)
    (hspans : ∀ span ∈ first ++ second, span.Integral) {bindings : Bindings}
    (hb : bindings.Integral)
    (hstarts : ∀ span ∈ first ++ second, (Exact fun _ => span.start.evaluate bindings) ∧
      ∃ s : Int, 0 ≤ s ∧ span.start.evaluate bindings = .ok (.int s))
    (hnested : Exact fun _ => do
      let u ← v.slice first
      let w ← u.slice second
      w.resolve bindings)
    (honce : Exact fun _ => do
      let w ← v.slice (Span.composed first second)
      w.resolve bindings)
    {resolved : ResolvedView}
    (h : (do
      let u ← v.slice first
      let w ← u.slice second
      w.resolve bindings) = .ok resolved) :
    ∃ w, v.slice (Span.composed first second) = .ok w ∧ w.resolve bindings = .ok resolved := by
  have htwice := hnested.symm.trans h
  simp only [bind_eq_ok] at htwice
  obtain ⟨u, hu, w, hw, hresolved⟩ := htwice
  have hunbounded : ∀ span ∈ first ++ second, ∃ s : Int, 0 ≤ s ∧
      @Size.evaluate Arithmetic.unbounded bindings span.start = .ok (.int s) := by
    intro span hspan
    obtain ⟨hexact, s, hs, hstart⟩ := hstarts span hspan
    exact ⟨s, hs, hexact.symm.trans hstart⟩
  obtain ⟨hfirst, hsecond⟩ := List.forall_mem_append.mp hspans
  have hcomposed := @slice_composed Arithmetic.unbounded _ u v w bindings first second
    hv.wellFormed hv.integral hb hcount hcount' hfirst hsecond hunbounded hu hw resolved hresolved
  exact bind_eq_ok.mp (honce.trans (bind_eq_ok.mpr hcomposed))

/-- Of the middle rows those from `n` on, but not more than five, and of these the second up
to the one before `m`: for `n = 1` and `m = 3` they are rows four and five, at once as one
after the other. -/
theorem slice_slice_rows :
    ∃ w, middleRows.slice (Span.composed [⟨.symbol "n", .literal 5⟩] [⟨.one, .symbol "m"⟩]) =
        .ok w ∧
      w.resolve [("n", 1), ("m", 3)] = .ok ⟨[2], [⟨4, 6, false⟩], [0]⟩ := by
  have hb : Bindings.Integral [("n", 1), ("m", 3)] :=
    (Bindings.integral_nil.cons "m" 3).cons "n" 1
  refine slice_slice reachable_middleRows rfl rfl ?_ hb ?_ (.of_eq _ rfl rfl) (.of_eq _ rfl rfl) rfl
  · intro span hspan
    rcases List.mem_pair.mp hspan with rfl | rfl
    · exact ⟨trivial, 5, rfl⟩
    · exact ⟨⟨1, rfl⟩, trivial⟩
  · intro span hspan
    rcases List.mem_pair.mp hspan with rfl | rfl
    · exact ⟨.of_eq (.ok 1) rfl rfl, 1, by omega, rfl⟩
    · exact ⟨.of_eq (.ok 1) rfl rfl, 1, by omega, rfl⟩

end View

end ShapeGraph
