import ShapeGraph.Proofs.View.Selection
import ShapeGraph.Proofs.View.Evaluation

/-!
# Slices that do not know where an axis ends

A range without an upper bound ends where its axis does.  Where the size of the axis is not
known, it ends at a sentinel instead, and it is the clamping of narrowed ranges that puts the
end right: any end at or beyond that of the range comes to the end of the range.  The two ends
are different terms, so different checks see literals.  But a check refuses only what is
negative or reversed whatever the symbols stand for, and that would not have resolved either.

* `Span.ReachesEnd` — a span that ends at the end of a range or beyond it;
* `narrow_reaching` — two such spans from one start are taken and resolve alike;
* `slice_resolves_iff` — when a slice of all axes is accepted and resolves;
* `mapAxes_sentinel` — the spans of specifications, with the sizes of the axes and without;
* `sentinel_agrees` — slices by specifications of any view that can be reached.
-/

namespace ShapeGraph

open ShapeGraph.Numeric (Arithmetic Exact Number Unbounded)

/-- The span ends where the range ends, or beyond. -/
def Span.ReachesEnd [Arithmetic] (bindings : Bindings) (range : AxisRange) (span : Span) : Prop :=
  ∃ m n e : Int, range.Evaluates bindings m n ∧ span.stop.evaluate bindings = .ok (.int e) ∧
    n - m ≤ e

/-- Two spans that start at one place, and end at one place or both at the end of the range. -/
structure Span.AlikeOn [Arithmetic] (bindings : Bindings) (range : AxisRange)
    (first second : Span) : Prop where
  start_eq : first.start = second.start
  stop : first.stop = second.stop ∨
    first.ReachesEnd bindings range ∧ second.ReachesEnd bindings range

/-- That two spans are alike on a range does not depend on their order. -/
theorem Span.AlikeOn.symm [Arithmetic] {bindings : Bindings} {range : AxisRange}
    {first second : Span} (h : first.AlikeOn bindings range second) :
    second.AlikeOn bindings range first :=
  ⟨h.start_eq.symm, h.stop.imp Eq.symm And.symm⟩

namespace View

/-! ## One range -/

section

variable [Arithmetic] [Unbounded] {bindings : Bindings} {range : AxisRange}
  {span first second : Span} {concrete : ConcreteRange}

/-- A span that is neither negative nor reversed is taken by a range if what is left of that
resolves. -/
theorem takes_of_resolves (hrange : range.Integral) (hspan : span.Integral)
    (hb : bindings.Integral) (hstart : span.start.NotNegative) (hstop : span.stop.NotNegative)
    (hordered : span.start.NotReversed span.stop)
    (h : ResolvesTo bindings (narrow range span) concrete) : range.Takes span := by
  obtain ⟨p, q, ⟨hp, hq⟩, _, hle, _⟩ := h
  have hnarrowed := narrow_integral hrange hspan.1 hspan.2
  have hρ := hb.agrees_completed fun _ => 0
  have hpv := Number.int.inj (Size.evaluate_value hnarrowed.start hρ hp)
  have hqv := Number.int.inj (Size.evaluate_value hnarrowed.stop hρ hq)
  refine ⟨hstart, hstop, hordered, ?_⟩
  apply hnarrowed.start.notReversed hnarrowed.stop
  rw [← hpv, ← hqv]
  exact hle

/-- **Spans that reach the end of a range** from one start leave the same of it: if one is taken
and resolves, so does the other. -/
theorem narrow_reaching (hrange : range.Integral) (hfirst : first.Integral)
    (hsecond : second.Integral) (hb : bindings.Integral) (hstart : first.start = second.start)
    (hends : first.ReachesEnd bindings range) (hends' : second.ReachesEnd bindings range)
    (hproper : ∃ whole, ResolvesTo bindings range whole) (htakes : range.Takes first)
    (h : ResolvesTo bindings (narrow range first) concrete) :
    range.Takes second ∧ ResolvesTo bindings (narrow range second) concrete := by
  obtain ⟨m, n, e₁, hmn, he₁, hreach⟩ := hends
  obtain ⟨m₂, n₂, e₂, hmn₂, he₂, hreach₂⟩ := hends'
  obtain ⟨_, m₀, n₀, hmn₀, hm₀, hle₀, _⟩ := hproper
  obtain ⟨p, q, hpq, hp, hle, rfl⟩ := h
  obtain ⟨m', n', s, e, hmn', ⟨hs, he⟩, rfl, rfl⟩ :=
    (narrow_evaluates_iff hrange hfirst hb).mp hpq
  -- whatever evaluates does so to one number
  obtain rfl := Size.evaluate_unique hmn.start hmn'.start
  obtain rfl := Size.evaluate_unique hmn.stop hmn'.stop
  obtain rfl := Size.evaluate_unique hmn.start hmn₂.start
  obtain rfl := Size.evaluate_unique hmn.stop hmn₂.stop
  obtain rfl := Size.evaluate_unique hmn.start hmn₀.start
  obtain rfl := Size.evaluate_unique hmn.stop hmn₀.stop
  obtain rfl := Size.evaluate_unique he he₁
  have hs₂ : second.start.evaluate bindings = .ok (.int s) := hstart ▸ hs
  have hsame : min (m + e) n = min (m + e₂) n := by omega
  have hresolves : ResolvesTo bindings (narrow range second)
      ⟨.int (m + s), .int (min (m + e) n), range.broadcast⟩ := by
    refine ⟨m + s, min (m + e) n, ?_, hp, hle, rfl⟩
    exact (narrow_evaluates_iff hrange hsecond hb).mpr
      ⟨m, n, s, e₂, hmn, ⟨hs₂, he₂⟩, rfl, hsame⟩
  have hρ := hb.agrees_completed fun _ => 0
  have hsv := Number.int.inj (Size.evaluate_value hsecond.1 hρ hs₂)
  have hev := Number.int.inj (Size.evaluate_value hsecond.2 hρ he₂)
  have hnonneg : 0 ≤ second.stop.value (bindings.completed fun _ => 0) := by omega
  have hordered : second.start.value (bindings.completed fun _ => 0) ≤
      second.stop.value (bindings.completed fun _ => 0) := by omega
  refine ⟨?_, hresolves⟩
  apply takes_of_resolves hrange hsecond hb
  · exact hstart ▸ htakes.start
  · exact hsecond.2.notNegative hnonneg
  · exact hsecond.1.notReversed hsecond.2 hordered
  · exact hresolves

/-- Spans that are alike are taken and resolve alike. -/
theorem narrow_alike (hrange : range.Integral) (hfirst : first.Integral)
    (hsecond : second.Integral) (hb : bindings.Integral)
    (halike : first.AlikeOn bindings range second)
    (hproper : ∃ whole, ResolvesTo bindings range whole)
    (h : range.Takes first ∧ ResolvesTo bindings (narrow range first) concrete) :
    range.Takes second ∧ ResolvesTo bindings (narrow range second) concrete := by
  rcases halike.stop with hstop | ⟨hends, hends'⟩
  · have hsame : first = second := congrArg₂ Span.mk halike.start_eq hstop
    exact hsame ▸ h
  · exact narrow_reaching hrange hfirst hsecond hb halike.start_eq hends hends' hproper h.1 h.2

/-! ## All axes -/

variable {v w : View} {spans others : List Span}

/-- **A slice of all axes is accepted and resolves** just if every range takes its span and what
is left of it resolves. -/
theorem slice_resolves_iff (hv : v.WellFormed) (hi : v.Integral) (hb : bindings.Integral)
    (hcount : spans.length = v.rank) (hspans : ∀ span ∈ spans, span.Integral)
    {resolved : ResolvedView} :
    (∃ w, v.slice spans = .ok w ∧ w.resolve bindings = .ok resolved) ↔
      ∃ ranges, ranges.length = v.rank ∧ resolved = resolvedBy ranges v.order ∧
        ∀ (axis : Nat) (range : AxisRange) (span : Span) (concrete : ConcreteRange),
          v.shown[axis]? = some range → spans[axis]? = some span →
          ranges[axis]? = some concrete →
            range.Takes span ∧ ResolvesTo bindings (narrow range span) concrete := by
  constructor
  · rintro ⟨w, hw, hresolved⟩
    obtain ⟨hwell, hrank, _⟩ := slice_ok hv hw
    have hwi := slice_integral hv hi hspans hw
    obtain ⟨ranges, hlength, hranges, rfl⟩ := (resolve_iff hwell hwi hb).mp hresolved
    refine ⟨ranges, hlength.trans hrank, by rw [slice_order hw], ?_⟩
    intro axis range span concrete hrange hspan hconcrete
    obtain ⟨held, hheld, htakes⟩ := (slice_succeeds_iff hv).mp ⟨w, hw⟩ axis span hspan
    obtain rfl := Option.some.inj (hrange.symm.trans hheld)
    have hshown : w.shown[axis]? = some (narrow range span) := by
      rw [slice_shown_at hv hw, hrange, hspan]
      rfl
    exact ⟨htakes, hranges axis _ concrete hshown hconcrete⟩
  · rintro ⟨ranges, hlength, rfl, hall⟩
    have hplaces : ∀ axis : Nat, axis < v.rank → ∃ range span concrete,
        v.shown[axis]? = some range ∧ spans[axis]? = some span ∧
          ranges[axis]? = some concrete := by
      intro axis haxis
      have hshown : axis < v.shown.length := by
        rw [hv.length_shown]
        exact haxis
      exact ⟨_, _, _, List.getElem?_eq_getElem hshown,
        List.getElem?_eq_getElem (hcount ▸ haxis), List.getElem?_eq_getElem (hlength ▸ haxis)⟩
    obtain ⟨w, hw⟩ : ∃ w, v.slice spans = .ok w := by
      apply (slice_succeeds_iff hv).mpr
      intro axis span hspan
      have haxis : axis < v.rank := hcount ▸ (List.getElem?_eq_some_iff.mp hspan).1
      obtain ⟨range, _, concrete, hrange, _, hconcrete⟩ := hplaces axis haxis
      exact ⟨range, hrange, (hall axis range span concrete hrange hspan hconcrete).1⟩
    obtain ⟨hwell, hrank, _⟩ := slice_ok hv hw
    have hwi := slice_integral hv hi hspans hw
    refine ⟨w, hw, (resolve_iff hwell hwi hb).mpr ⟨ranges, hlength.trans hrank.symm, ?_, ?_⟩⟩
    · intro axis left concrete hleft hconcrete
      have haxis : axis < v.rank := hlength ▸ (List.getElem?_eq_some_iff.mp hconcrete).1
      obtain ⟨range, span, _, hrange, hspan, _⟩ := hplaces axis haxis
      rw [slice_shown_at hv hw, hrange, hspan] at hleft
      obtain rfl := Option.some.inj hleft
      exact (hall axis range span concrete hrange hspan hconcrete).2
    · rw [slice_order hw]

/-- Slices by spans that are alike axis by axis come to the same. -/
theorem slice_resolves_alike (hv : v.WellFormed) (hi : v.Integral) (hb : bindings.Integral)
    (hcount : spans.length = v.rank) (hcount' : others.length = v.rank)
    (hspans : ∀ span ∈ spans, span.Integral) (hothers : ∀ span ∈ others, span.Integral)
    {whole resolved : ResolvedView} (hwhole : v.resolve bindings = .ok whole)
    (halike : ∀ (axis : Nat) (range : AxisRange) (span other : Span),
      v.shown[axis]? = some range → spans[axis]? = some span → others[axis]? = some other →
        span.AlikeOn bindings range other)
    (h : ∃ w, v.slice spans = .ok w ∧ w.resolve bindings = .ok resolved) :
    ∃ w, v.slice others = .ok w ∧ w.resolve bindings = .ok resolved := by
  obtain ⟨outer, houter, hproper, _⟩ := (resolve_iff hv hi hb).mp hwhole
  obtain ⟨ranges, hlength, hresolved, hall⟩ :=
    (slice_resolves_iff hv hi hb hcount hspans).mp h
  refine (slice_resolves_iff hv hi hb hcount' hothers).mpr ⟨ranges, hlength, hresolved, ?_⟩
  intro axis range other concrete hrange hother hconcrete
  have haxis : axis < v.rank := hlength ▸ (List.getElem?_eq_some_iff.mp hconcrete).1
  have hspan : spans[axis]? = some spans[axis] := List.getElem?_eq_getElem (hcount ▸ haxis)
  have houter : outer[axis]? = some outer[axis] := List.getElem?_eq_getElem (houter ▸ haxis)
  exact narrow_alike (hi.of_mem_shown (List.mem_of_getElem? hrange))
    (hspans _ (List.mem_of_getElem? hspan)) (hothers _ (List.mem_of_getElem? hother)) hb
    (halike axis range _ other hrange hspan hother) ⟨_, hproper axis range _ hrange houter⟩
    (hall axis range _ concrete hrange hspan hconcrete)

end

end View

/-! ## Specifications -/

section

variable [Arithmetic] {sentinel : Number}

/-- The spans of one specification, where the axis has a length and where it has none: one ends
at the length where the other one ends at the sentinel. -/
structure Span.Resized (length : Size) (sentinel : Number) (sized unsized : Span) : Prop where
  start_eq : sized.start = unsized.start
  stop : sized.stop = unsized.stop ∨
    sized.stop = length ∧ unsized.stop = .literal sentinel

/-- Only a bound that is missing asks for the end of the axis. -/
theorem Bound.stop_sentinel (length : Size) (other : Number) (hsafe : sentinel.isSafe = true)
    (bound : Bound) :
    bound.stop none sentinel = bound.stop (some length) other ∨
      bound.stop (some length) other = .ok length ∧
        bound.stop none sentinel = .ok (.literal sentinel) := by
  cases bound with
  | included value => exact .inl rfl
  | excluded value => exact .inl rfl
  | unbounded =>
      refine .inr ⟨rfl, ?_⟩
      rw [stop, Size.ofNumber, if_pos hsafe]

/-- A specification means a span whether or not the length of the axis is known. -/
theorem RangeSpec.span_sentinel (length : Size) (other : Number) (hsafe : sentinel.isSafe = true)
    (spec : RangeSpec) :
    (∃ fault, spec.span (some length) other = .error fault ∧
        spec.span none sentinel = .error fault) ∨
      ∃ sized unsized, spec.span (some length) other = .ok sized ∧
        spec.span none sentinel = .ok unsized ∧ sized.Resized length sentinel unsized := by
  have hstop := Bound.stop_sentinel length other hsafe spec.bounds.2
  unfold span
  cases spec.bounds.1.start with
  | error fault => exact .inl ⟨fault, rfl, rfl⟩
  | ok start =>
      rcases hstop with hsame | ⟨hlength, hsentinel⟩
      · rw [hsame]
        cases spec.bounds.2.stop (some length) other with
        | error fault => exact .inl ⟨fault, rfl, rfl⟩
        | ok stop => exact .inr ⟨_, _, rfl, rfl, rfl, .inl rfl⟩
      · rw [hlength, hsentinel]
        exact .inr ⟨_, _, rfl, rfl, rfl, .inr ⟨rfl, rfl⟩⟩

/-- **The spans of specifications** on axes without a size of their own: with their lengths and
without, none is found, or they differ in ends at the length and at the sentinel only. -/
theorem mapAxes_sentinel (other : Number) (hsafe : sentinel.isSafe = true) {dims : Shape}
    (hdims : ∀ dim ∈ dims, dim = .anonymous) {lengths : List Size}
    (hcount : lengths.length = dims.length) (specs : List RangeSpec) :
    (∃ fault fault', mapAxes other dims specs (lengths.map some) = .error fault ∧
        mapAxes sentinel dims specs [] = .error fault') ∨
      ∃ known unknown, mapAxes other dims specs (lengths.map some) = .ok known ∧
        mapAxes sentinel dims specs [] = .ok unknown ∧
        known.spans.length = dims.length ∧ unknown.spans.length = dims.length ∧
        ∀ (axis : Nat) (length : Size) (sized unsized : Span), lengths[axis]? = some length →
          known.spans[axis]? = some sized → unknown.spans[axis]? = some unsized →
            sized.Resized length sentinel unsized := by
  induction dims generalizing specs lengths with
  | nil =>
      refine .inr ⟨_, _, rfl, rfl, rfl, rfl, ?_⟩
      intro axis length sized unsized _ hsized _
      cases hsized
  | cons dim dims ih =>
      obtain ⟨length, lengths, rfl⟩ := List.exists_cons_of_length_eq_add_one hcount
      obtain ⟨rfl, hrest⟩ := List.forall_mem_cons.mp hdims
      have hanonymous : Dimension.anonymous.size? = .ok none := rfl
      simp only [mapAxes, List.map_cons, List.head?_cons, Option.join_some, List.tail_cons,
        List.head?_nil, Option.join_none, List.tail_nil, hanonymous, ok_bind]
      have hspan := RangeSpec.span_sentinel length other hsafe (specs.head?.getD .full)
      rcases hspan with ⟨fault, hsized, hunsized⟩ | ⟨sized, unsized, hsized, hunsized, hspans⟩
      · rw [hsized, hunsized]
        exact .inl ⟨fault, fault, rfl, rfl⟩
      · rw [hsized, hunsized]
        rcases ih hrest (by simpa using hcount) specs.tail with
          ⟨fault, fault', hknown, hunknown⟩ |
          ⟨known, unknown, hknown, hunknown, hlength, hlength', hall⟩
        · rw [ok_bind, ok_bind, hknown, hunknown]
          exact .inl ⟨fault, fault', rfl, rfl⟩
        · rw [ok_bind, ok_bind, hknown, hunknown]
          refine .inr ⟨_, _, rfl, rfl, by simp [hlength], by simp [hlength'], ?_⟩
          intro axis held first second hheld hfirst hsecond
          cases axis with
          | zero =>
              obtain rfl := Option.some.inj hheld
              obtain rfl := Option.some.inj hfirst
              obtain rfl := Option.some.inj hsecond
              exact hspans
          | succ axis => exact hall axis held first second hheld hfirst hsecond

end

namespace View

/-- The slice of a view by specifications that goes by a shape alone: an end that is not given
is the size of its dimension, or else the sentinel. -/
def sliceUnsized [Arithmetic] (v : View) (shape : Shape) (specs : List RangeSpec)
    (sentinel : Number) : Except Fault View := do
  let mapping ← mapSlice shape specs [] sentinel
  v.slice mapping.spans

section

variable [Arithmetic] [Unbounded] {bindings : Bindings} {range : AxisRange}
  {sized unsized : Span} {v : View} {shape : Shape} {specs : List RangeSpec}

/-- With a sentinel that is not less than the length, the two spans of a specification are
alike. -/
theorem alike_of_resized (hrange : range.Integral) (hb : bindings.Integral) {sentinel m n : Int}
    (hmn : range.Evaluates bindings m n) (hle : n - m ≤ sentinel)
    (h : sized.Resized range.length (.int sentinel) unsized) :
    sized.AlikeOn bindings range unsized := by
  refine ⟨h.start_eq, h.stop.imp id fun ⟨hlength, hsentinel⟩ => ⟨?_, ?_⟩⟩
  · have hvalue : range.length.evaluate bindings = .ok (.int (n - m)) :=
      Size.evaluate_sub hrange.stop hrange.start hb hmn.stop hmn.start
    exact ⟨m, n, n - m, hmn, hlength ▸ hvalue, Int.le_refl _⟩
  · exact ⟨m, n, sentinel, hmn, hsentinel ▸ rfl, hle⟩

end

section

variable [Arithmetic]

/-- What a slice by specifications resolves to. -/
def resolveSized (bindings : Bindings) (v : View) (shape : Shape) (specs : List RangeSpec) :
    Except Fault ResolvedView := do
  let sliced ← v.sliceBy shape specs defaultSentinel
  sliced.2.resolve bindings

/-- What a slice by specifications resolves to that goes by a shape and a sentinel. -/
def resolveUnsized (bindings : Bindings) (v : View) (shape : Shape) (specs : List RangeSpec)
    (sentinel : Number) : Except Fault ResolvedView := do
  let w ← v.sliceUnsized shape specs sentinel
  w.resolve bindings

variable {bindings : Bindings} {v : View} {shape : Shape} {specs : List RangeSpec}
  {sentinel : Number} {resolved : ResolvedView}

/-- With the lengths known, a slice is resolved if its spans are accepted and their result is.
-/
theorem resolveSized_eq_ok (hv : v.WellFormed) :
    resolveSized bindings v shape specs = .ok resolved ↔ specs.length ≤ shape.length ∧
      ∃ known, mapAxes defaultSentinel shape specs ((v.shown.map AxisRange.length).map some) =
          .ok known ∧
        ∃ w, v.slice known.spans = .ok w ∧ w.resolve bindings = .ok resolved := by
  simp only [resolveSized, sliceBy, lengths_eq hv, mapSlice, bind_eq_ok, ite_error_eq_ok,
    pure_eq_ok, Except.ok.injEq, exists_eq_left', gt_iff_lt, Nat.not_lt]
  constructor
  · rintro ⟨_, ⟨known, ⟨hcount, hknown⟩, w, hw, rfl⟩, hresolved⟩
    exact ⟨hcount, known, hknown, w, hw, hresolved⟩
  · rintro ⟨hcount, known, hknown, w, hw, hresolved⟩
    exact ⟨(known, w), ⟨known, ⟨hcount, hknown⟩, w, hw, rfl⟩, hresolved⟩

/-- With no lengths known, a slice is resolved if the spans up to the sentinel are accepted and
their result is. -/
theorem resolveUnsized_eq_ok :
    resolveUnsized bindings v shape specs sentinel = .ok resolved ↔ specs.length ≤ shape.length ∧
      ∃ unknown, mapAxes sentinel shape specs [] = .ok unknown ∧
        ∃ w, v.slice unknown.spans = .ok w ∧ w.resolve bindings = .ok resolved := by
  simp only [resolveUnsized, sliceUnsized, mapSlice, bind_eq_ok, ite_error_eq_ok, gt_iff_lt,
    Nat.not_lt]
  constructor
  · rintro ⟨w, ⟨unknown, ⟨hcount, hunknown⟩, hw⟩, hresolved⟩
    exact ⟨hcount, unknown, hunknown, w, hw, hresolved⟩
  · rintro ⟨hcount, unknown, hunknown, w, hw, hresolved⟩
    exact ⟨w, ⟨unknown, ⟨hcount, hunknown⟩, hw⟩, hresolved⟩

end

section

variable [Arithmetic] [Unbounded] {bindings : Bindings} {v : View} {shape : Shape}
  {specs : List RangeSpec}

/-- No length is beyond a number that none of the resolved ones is beyond. -/
theorem lengths_within (hv : v.WellFormed) (hi : v.Integral) (hb : bindings.Integral)
    {whole : ResolvedView} (hwhole : v.resolve bindings = .ok whole) {sentinel : Nat}
    (hwithin : ∀ length ∈ whole.shape, (Number.ofNat sentinel).lt length = false) {axis : Nat}
    {range : AxisRange} (hrange : v.shown[axis]? = some range) :
    ∃ m n : Int, range.Evaluates bindings m n ∧ n - m ≤ sentinel := by
  obtain ⟨ranges, hlength, hall, rfl⟩ := (resolve_iff hv hi hb).mp hwhole
  have haxis : axis < ranges.length := by
    have hplace := (List.getElem?_eq_some_iff.mp hrange).1
    rw [hv.length_shown] at hplace
    omega
  have hconcrete : ranges[axis]? = some ranges[axis] := List.getElem?_eq_getElem haxis
  obtain ⟨m, n, hmn, _, _, heq⟩ := hall axis range _ hrange hconcrete
  have hmem : (Number.int n).sub (.int m) ∈ (resolvedBy ranges v.order).shape := by
    refine List.mem_map.mpr ⟨ranges[axis], List.getElem_mem haxis, ?_⟩
    rw [heq]
  have hle := hwithin _ hmem
  rw [Number.sub_int_int, Number.ofNat, Number.lt_int, decide_eq_false_iff_not] at hle
  exact ⟨m, n, hmn, by omega⟩

/-- **What a slice resolves to is the same** with the lengths of the view and with a sentinel
that is not less than any of them. -/
theorem resolveSized_iff_unsized (hv : v.WellFormed) (hi : v.Integral) (hb : bindings.Integral)
    (hrank : shape.length = v.rank) (hshape : ∀ dim ∈ shape, dim = .anonymous)
    (hspecs : ∀ spec ∈ specs, spec.Integral) {whole resolved : ResolvedView}
    (hwhole : v.resolve bindings = .ok whole) {sentinel : Nat}
    (hsafe : (Number.ofNat sentinel).isSafe = true)
    (hwithin : ∀ length ∈ whole.shape, (Number.ofNat sentinel).lt length = false) :
    resolveSized bindings v shape specs = .ok resolved ↔
      resolveUnsized bindings v shape specs (.ofNat sentinel) = .ok resolved := by
  rw [resolveSized_eq_ok hv, resolveUnsized_eq_ok]
  refine and_congr_right fun _ => ?_
  have hshown : shape.length = v.shown.length := hrank.trans hv.length_shown.symm
  have hcount : (v.shown.map AxisRange.length).length = shape.length := by simp [hshown]
  rcases mapAxes_sentinel defaultSentinel hsafe hshape hcount specs with
    ⟨_, _, hknown, hunknown⟩ | ⟨known, unknown, hknown, hunknown, hlength, hlength', hspans⟩
  · simp only [hknown, hunknown, reduceCtorEq, false_and]
  simp only [hknown, hunknown, Except.ok.injEq, exists_eq_left']
  have hranges := fun range (hr : range ∈ v.shown) => hi.of_mem_shown hr
  have hki := (mapAxes_ok hshown hspecs hranges hknown).2.1
  have hresized : ∀ (axis : Nat) (range : AxisRange) (sized unsized : Span),
      v.shown[axis]? = some range → known.spans[axis]? = some sized →
      unknown.spans[axis]? = some unsized →
        sized.Resized range.length (.ofNat sentinel) unsized := by
    intro axis range sized unsized hrange hsized hunsized
    apply hspans axis range.length sized unsized ?_ hsized hunsized
    rw [List.getElem?_map, hrange]
    rfl
  have hui : ∀ span ∈ unknown.spans, span.Integral := by
    intro unsized hunsized
    obtain ⟨axis, haxis⟩ := List.mem_iff_getElem?.mp hunsized
    have hlt : axis < shape.length := hlength' ▸ (List.getElem?_eq_some_iff.mp haxis).1
    have hsized := List.getElem?_eq_getElem (hlength.symm ▸ hlt : axis < known.spans.length)
    have hrange := List.getElem?_eq_getElem (hshown ▸ hlt : axis < v.shown.length)
    obtain ⟨hstart, hstop⟩ := hresized axis _ _ unsized hrange hsized haxis
    obtain ⟨hsi, hei⟩ := hki _ (List.mem_of_getElem? hsized)
    refine ⟨hstart ▸ hsi, ?_⟩
    rcases hstop with hsame | ⟨_, hsentinel⟩
    · exact hsame ▸ hei
    · exact hsentinel ▸ ⟨sentinel, rfl⟩
  have halike : ∀ (axis : Nat) (range : AxisRange) (sized unsized : Span),
      v.shown[axis]? = some range → known.spans[axis]? = some sized →
      unknown.spans[axis]? = some unsized → sized.AlikeOn bindings range unsized := by
    intro axis range sized unsized hrange hsized hunsized
    obtain ⟨m, n, hmn, hle⟩ := lengths_within hv hi hb hwhole hwithin hrange
    exact alike_of_resized (hi.of_mem_shown (List.mem_of_getElem? hrange)) hb hmn hle
      (hresized axis range sized unsized hrange hsized hunsized)
  have hcounts := hlength.trans hrank
  have hcounts' := hlength'.trans hrank
  constructor
  · apply slice_resolves_alike hv hi hb hcounts hcounts' hki hui hwhole halike
  · apply slice_resolves_alike hv hi hb hcounts' hcounts hui hki hwhole
    intro axis range unsized sized hrange hunsized hsized
    exact (halike axis range sized unsized hrange hsized hunsized).symm

end

end View

/-- Two outcomes of which one is a result just if the other one is the same result. -/
theorem agree_of_ok_iff {α : Type} {x y : Except Fault α}
    (h : ∀ a, x = .ok a ↔ y = .ok a) :
    (∃ a, x = .ok a ∧ y = .ok a) ∨
      ∃ fault fault', x = .error fault ∧ y = .error fault' := by
  cases x with
  | ok a => exact .inl ⟨a, rfl, (h a).mp rfl⟩
  | error fault =>
      cases y with
      | ok a => cases (h a).mpr rfl
      | error fault' => exact .inr ⟨fault, fault', rfl, rfl⟩

namespace View

/-! ## Views that can be reached -/

/-- **The sentinel stands in for the lengths.**  Let any view that can be reached be sliced by
specifications with a shape of its rank whose axes have no sizes of their own, once with the
lengths of the view and once with a sentinel instead.  Under any binding under which the view
resolves to lengths none of which is greater than the sentinel, both slices are accepted and
resolve, to the same shape, ranges and order, or each of them is refused or does not resolve. -/
theorem sentinel_agrees {v : View} (hv : v.Reachable) {shape : Shape}
    (hrank : shape.length = v.rank) (hshape : ∀ dim ∈ shape, dim = .anonymous)
    {specs : List RangeSpec} (hspecs : ∀ spec ∈ specs, spec.Integral) {sentinel : Nat}
    (hsafe : (Number.ofNat sentinel).isSafe = true) {bindings : Bindings}
    (hb : bindings.Integral) {whole : ResolvedView}
    (hexact : Exact fun _ => v.resolve bindings)
    (hsized : Exact fun _ => resolveSized bindings v shape specs)
    (hunsized : Exact fun _ => resolveUnsized bindings v shape specs (.ofNat sentinel))
    (hwhole : v.resolve bindings = .ok whole)
    (hwithin : ∀ length ∈ whole.shape, (Number.ofNat sentinel).lt length = false) :
    (∃ resolved, resolveSized bindings v shape specs = .ok resolved ∧
        resolveUnsized bindings v shape specs (.ofNat sentinel) = .ok resolved) ∨
      ∃ fault fault', resolveSized bindings v shape specs = .error fault ∧
        resolveUnsized bindings v shape specs (.ofNat sentinel) = .error fault' := by
  unfold Exact at hsized hunsized
  simp only [hsized, hunsized]
  apply agree_of_ok_iff
  intro resolved
  exact @resolveSized_iff_unsized .unbounded _ bindings v shape specs hv.wellFormed hv.integral hb
    hrank hshape hspecs whole resolved (hexact.symm.trans hwhole) sentinel hsafe hwithin

/-- The middle rows from `n` on. -/
theorem sentinel_agrees_rows :
    resolveSized [("n", 3)] middleRows [.anonymous] [.starting (.size (.symbol "n"))] =
        .ok ⟨[3], [⟨5, 8, false⟩], [0]⟩ ∧
      resolveUnsized [("n", 3)] middleRows [.anonymous] [.starting (.size (.symbol "n"))] 7 =
        .ok ⟨[3], [⟨5, 8, false⟩], [0]⟩ := by
  have hb : Bindings.Integral [("n", 3)] := Bindings.integral_nil.cons "n" 3
  have hshape : ∀ dim ∈ [Dimension.anonymous], dim = .anonymous := by simp
  have hspecs : ∀ spec ∈ [RangeSpec.starting (.size (.symbol "n"))], spec.Integral := by
    simpa using ⟨trivial, trivial⟩
  have hwhole : middleRows.resolve [("n", 3)] = .ok ⟨[6], [⟨2, 8, false⟩], [0]⟩ := rfl
  have hsized : resolveSized [("n", 3)] middleRows [.anonymous]
      [.starting (.size (.symbol "n"))] = .ok ⟨[3], [⟨5, 8, false⟩], [0]⟩ := rfl
  have hunsized : resolveUnsized [("n", 3)] middleRows [.anonymous]
      [.starting (.size (.symbol "n"))] (.ofNat 7) = .ok ⟨[3], [⟨5, 8, false⟩], [0]⟩ := rfl
  have hwithin : ∀ length ∈ [(6 : Number)], (Number.ofNat 7).lt length = false := by
    intro length hlength
    rw [List.mem_singleton.mp hlength]
    rfl
  rcases sentinel_agrees reachable_middleRows rfl hshape hspecs rfl hb (.of_eq _ hwhole rfl)
    (.of_eq _ hsized rfl) (.of_eq _ hunsized rfl) hwhole hwithin with
    ⟨resolved, hfirst, hsecond⟩ | ⟨fault, _, hfault, _⟩
  · obtain rfl := Except.ok.inj (hsized.symm.trans hfirst)
    exact ⟨hfirst, hsecond⟩
  · cases hsized.symm.trans hfault

end View

end ShapeGraph
