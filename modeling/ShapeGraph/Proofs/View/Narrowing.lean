import ShapeGraph.Proofs.View.Reachable
import ShapeGraph.Proofs.View.Storage

/-!
# Where a slice leaves its view

A slice counts from the start of the range that it narrows, and its end is clamped
to that of the range.  Its start is looked at only where it is a literal; a symbolic
start is added as it is.  So a slice stays inside the view that it is cut from
exactly as long as no symbolic start comes out negative.

* `ConcreteRange.Inside` — one resolved range is part of another one;
* `slice_shown_at` — what a slice shows on each axis;
* `narrow_inside_iff` — one range that is narrowed;
* `slice_inside_iff` — a slice of any view that can be reached;
* `slice_inside_fails` — a slice of a slice that starts before it.
-/

namespace ShapeGraph

open ShapeGraph.Numeric (Arithmetic Exact Number Unbounded)

/-- A range with known bounds is part of another one. -/
structure ConcreteRange.Inside (inner outer : ConcreteRange) : Prop where
  start_le : ∃ m n : Int, outer.start = .int m ∧ inner.start = .int n ∧ m ≤ n
  stop_le : ∃ m n : Int, inner.stop = .int m ∧ outer.stop = .int n ∧ m ≤ n

namespace View

variable {v w : View} {spans : List Span} {ρ : Valuation}

/-! ## What is narrowed -/

/-- A slice keeps the order of the axes. -/
theorem slice_order [Arithmetic] (h : v.slice spans = .ok w) : w.order = v.order := by
  simp only [slice, ite_error_eq_ok, bind_eq_ok, pure_eq_ok] at h
  obtain ⟨_, axes, _, rfl⟩ := h
  rfl

/-- Each axis of a slice is narrowed by its span, if it has one. -/
theorem slice_shown_at [Arithmetic] (hv : v.WellFormed) (h : v.slice spans = .ok w) (axis : Nat) :
    w.shown[axis]? =
      v.shown[axis]?.map fun range => spans[axis]?.elim range (narrow range) := by
  have hcount : spans.length ≤ v.shown.length := by
    have hspans := h
    simp only [slice, ite_error_eq_ok] at hspans
    rw [hv.length_shown]
    omega
  have hlength : (List.zipWith narrow v.shown spans).length = spans.length := by
    simp [hcount]
  rw [(slice_ok hv h).2.2]
  by_cases haxis : axis < spans.length
  · rw [List.getElem?_append_left (hlength.symm ▸ haxis), List.getElem?_zipWith,
      List.getElem?_eq_getElem haxis]
    cases v.shown[axis]? <;> rfl
  · have hspan : spans[axis]? = none := List.getElem?_eq_none (by omega)
    rw [List.getElem?_append_right (by omega), hlength, List.getElem?_drop, hspan,
      Nat.add_sub_cancel' (by omega)]
    simp

/-- Every literal start of a span that has been accepted is within its range. -/
theorem sliceFrom_starts [Arithmetic] {axis : Nat} {axes narrowed : List AxisRange}
    (h : v.sliceFrom axis spans axes = .ok narrowed) :
    ∀ span ∈ spans, ∀ s, span.start.value? = some s → s.lt 0 = false := by
  induction spans generalizing axis axes with
  | nil => exact fun span hspan => nomatch hspan
  | cons span rest ih =>
      simp only [sliceFrom, bind_eq_ok] at h
      obtain ⟨_, haccepted, _, _, _, _, _, _, h⟩ := h
      refine List.forall_mem_cons.mpr ⟨fun s hs => ?_, ih h⟩
      simp only [refuseNegative, ite_error_eq_ok, Bool.not_eq_true, Bool.or_eq_false_iff]
        at haccepted
      simpa [hs] using haccepted.1.1

/-- Only a symbolic start of a span that has been accepted can come out negative. -/
theorem slice_starts [Arithmetic] (h : v.slice spans = .ok w) {span : Span} (hspan : span ∈ spans)
    (hi : span.start.Integral) (ρ : Valuation)
    (hsymbolic : span.start.value? = none → 0 ≤ span.start.value ρ) :
    0 ≤ span.start.value ρ := by
  simp only [slice, ite_error_eq_ok, bind_eq_ok] at h
  obtain ⟨_, _, haxes, _⟩ := h
  cases hstart : span.start.value? with
  | none => exact hsymbolic hstart
  | some s =>
      have haccepted := sliceFrom_starts haxes span hspan s hstart
      obtain rfl := hi.literal_eq hstart ρ
      simpa [show (0 : Number) = .int 0 from rfl] using haccepted

section

variable [Arithmetic] [Unbounded]

/-- **A narrowed range leaves the range that it narrows** just if its start is
negative; its end never does. -/
theorem narrow_inside_iff {current : AxisRange} (hcurrent : current.Integral) {span : Span}
    (hstart : span.start.Integral) (hstop : span.stop.Integral) (ρ : Valuation) :
    ((narrow current span).concrete ρ).Inside (current.concrete ρ) ↔
      0 ≤ span.start.value ρ := by
  have hsum : (narrow current span).start.value ρ =
      current.start.value ρ + span.start.value ρ :=
    (Size.add_means hcurrent.start.means hstart.means).value_eq ρ
  constructor
  · rintro ⟨⟨m, n, hm, hn, hle⟩, _⟩
    have hm : current.start.value ρ = m := Number.int.inj hm
    have hn : (narrow current span).start.value ρ = n := Number.int.inj hn
    omega
  · intro hnonneg
    exact ⟨⟨_, _, rfl, rfl, by omega⟩, ⟨_, _, rfl, rfl, narrow_stop_le hcurrent hstop ρ⟩⟩

end

/-! ## Slices of views -/

/-- **Where a slice leaves its view.**  A slice of any view that can be reached shows as
many axes, in the same order, and each of its ranges is resolved to a part of the range
that the view is resolved to just if its start, if it is symbolic, is not negative. -/
theorem slice_inside_iff (hv : v.Reachable)
    (hspans : ∀ span ∈ spans, span.start.Integral ∧ span.stop.Integral)
    (hslice : Exact fun _ => v.slice spans) (h : v.slice spans = .ok w)
    {bindings : Bindings} (hb : bindings.Integral) {outer inner : ResolvedView}
    (houter : Exact fun _ => v.resolve bindings) (hinner : Exact fun _ => w.resolve bindings)
    (hbefore : v.resolve bindings = .ok outer) (hafter : w.resolve bindings = .ok inner) :
    inner.order = outer.order ∧ inner.ranges.length = outer.ranges.length ∧
      ∀ ρ, bindings.Agrees ρ → ∀ (axis : Nat) (whole part : ConcreteRange),
        outer.ranges[axis]? = some whole → inner.ranges[axis]? = some part →
          (part.Inside whole ↔ ∀ span, spans[axis]? = some span → span.start.value? = none →
            0 ≤ span.start.value ρ) := by
  have hwell := hv.wellFormed
  have hvi := hv.integral
  have hcut := hslice.symm.trans h
  have hw := @slice_ok _ _ .unbounded hwell _ hcut
  have hwi := @slice_integral _ _ .unbounded _ hwell hvi _ hspans hcut
  have hshown := @slice_shown_at _ _ _ .unbounded hwell hcut
  have hresolved := fun ρ (hρ : bindings.Agrees ρ) =>
    And.intro (@resolve_value _ ρ .unbounded _ _ hwell hvi hρ _ (houter.symm.trans hbefore)).1
      (@resolve_value _ ρ .unbounded _ _ hw.1 hwi hρ _ (hinner.symm.trans hafter)).1
  obtain ⟨rfl, rfl⟩ := hresolved _ (hb.agrees_completed fun _ => 0)
  refine ⟨slice_order h, ?_, fun ρ hρ axis whole part hwhole hpart => ?_⟩
  · simp [concrete, hwell.length_shown, hw.1.length_shown, hw.2.1]
  · obtain ⟨houtside, hinside⟩ := hresolved ρ hρ
    rw [houtside, concrete, List.getElem?_map] at hwhole
    rw [hinside, concrete, List.getElem?_map, hshown] at hpart
    obtain ⟨range, hrange, rfl⟩ := Option.map_eq_some_iff.mp hwhole
    have hri := hvi.of_mem_shown (List.mem_of_getElem? hrange)
    simp only [hrange, Option.map_some, Option.some.injEq] at hpart
    obtain rfl := hpart
    cases hspan : spans[axis]? with
    | none =>
        have hkept : (range.concrete ρ).Inside (range.concrete ρ) :=
          ⟨⟨_, _, rfl, rfl, Int.le_refl _⟩, ⟨_, _, rfl, rfl, Int.le_refl _⟩⟩
        simpa using hkept
    | some span =>
        have hmem := List.mem_of_getElem? hspan
        obtain ⟨hstart, hstop⟩ := hspans span hmem
        have hliteral := slice_starts h hmem hstart ρ
        simp only [Option.elim_some, Option.some.injEq, forall_eq']
        rw [@narrow_inside_iff .unbounded _ _ hri _ hstart hstop ρ]
        exact ⟨fun hnonneg _ => hnonneg, hliteral⟩

/-- Rows two to seven of ten. -/
def middleRows : View := ⟨[⟨.literal 2, .literal 8, .literal 10, false⟩], [0]⟩

/-- The span from `n - 3` to five. -/
def shifted : Span := ⟨.binary .add (.symbol "n") (.literal (.int (-3))), .literal 5⟩

/-- The middle rows of that span: those from `n - 1` to six. -/
def shiftedRows : View :=
  ⟨[⟨.binary .add (.symbol "n") (.literal (.int (-1))), .literal 7, .literal 10, false⟩], [0]⟩

/-- The middle rows are a view that calls end in. -/
theorem reachable_middleRows : middleRows.Reachable := by
  have hwhole : Reachable (contiguous [.literal 10]) :=
    @Reachable.whole [.number 10] _ (by simp [Quantity.Integral]) rfl
  have hspans : ∀ span ∈ [Span.mk (.literal 2) (.literal 8)],
      span.start.Integral ∧ span.stop.Integral := by
    simpa using ⟨⟨2, rfl⟩, ⟨8, rfl⟩⟩
  exact .slice hwhole hspans (.of_eq (.ok middleRows) rfl rfl) rfl

/-- The shifted span is one of integers. -/
theorem shifted_integral : ∀ span ∈ [shifted], span.start.Integral ∧ span.stop.Integral := by
  simpa using ⟨⟨trivial, -3, rfl⟩, ⟨5, rfl⟩⟩

/-- For `n = 4` the slice of the slice is a part of it: rows three to six. -/
theorem slice_inside_iff_shifted :
    middleRows.slice [shifted] = .ok shiftedRows ∧
      shiftedRows.resolve [("n", 4)] = .ok ⟨[4], [⟨3, 7, false⟩], [0]⟩ ∧
      (⟨3, 7, false⟩ : ConcreteRange).Inside ⟨2, 8, false⟩ := by
  have hb : Bindings.Integral [("n", 4)] := Bindings.integral_of_entries fun entry hentry =>
    ⟨4, by rw [List.mem_singleton.mp hentry]; rfl⟩
  have hbefore : middleRows.resolve [("n", 4)] = .ok ⟨[6], [⟨2, 8, false⟩], [0]⟩ := rfl
  have hafter : shiftedRows.resolve [("n", 4)] = .ok ⟨[4], [⟨3, 7, false⟩], [0]⟩ := rfl
  have hinside := slice_inside_iff reachable_middleRows shifted_integral
    (.of_eq (.ok shiftedRows) rfl rfl) rfl hb (.of_eq _ rfl rfl) (.of_eq _ rfl rfl) hbefore hafter
  have hρ := hb.agrees_completed fun _ => 0
  refine ⟨rfl, hafter, (hinside.2.2 _ hρ 0 _ _ rfl rfl).mpr ?_⟩
  intro span hspan _
  obtain rfl := Option.some.inj hspan
  decide

/-- For `n = 2` it starts at row one, which the slice does not show. -/
theorem slice_inside_fails :
    middleRows.Reachable ∧ (∀ span ∈ [shifted], span.start.Integral ∧ span.stop.Integral) ∧
      middleRows.slice [shifted] = .ok shiftedRows ∧
      middleRows.resolve [("n", 2)] = .ok ⟨[6], [⟨2, 8, false⟩], [0]⟩ ∧
      shiftedRows.resolve [("n", 2)] = .ok ⟨[6], [⟨1, 7, false⟩], [0]⟩ ∧
      ¬ (⟨1, 7, false⟩ : ConcreteRange).Inside ⟨2, 8, false⟩ := by
  refine ⟨reachable_middleRows, shifted_integral, rfl, rfl, rfl, ?_⟩
  rintro ⟨⟨m, n, hm, hn, hle⟩, _⟩
  have hm : (2 : Int) = m := Number.int.inj hm
  have hn : (1 : Int) = n := Number.int.inj hn
  omega

end View

end ShapeGraph
