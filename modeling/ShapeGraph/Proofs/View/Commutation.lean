import ShapeGraph.Proofs.Refinement.Instance
import ShapeGraph.Proofs.View.Binding
import ShapeGraph.Proofs.View.Widening

/-!
# Binding before and after an operation

Binding symbols first makes more of the sizes of a view literals, and literals are what an
operation looks at: it refuses negative and reversed spans, and an axis that is not of length
one.  A literal stays what it is when symbols are bound, and so does a length that has
cancelled to one.  So whatever is refused on the view itself, where fewer sizes are literals,
is refused on the bound view as well, and an operation that goes through on the bound view goes
through on the view.  What it then makes becomes the same under the binding, range by range.

* `View.Operation` — slices, permutations, expansions and repetitions as data;
* `Operation.onBound`, `Operation.thenBound` — an operation after and before its view is bound;
* `sliceFrom_becomes`, `broadcastAxis_becomes` — the operations that look at literals;
* `Operation.apply_becomes` — whatever goes through on the bound view;
* `substitute_commutes` — all of this for the views that can be reached, and their resolution
  in stages.
-/

namespace ShapeGraph

open ShapeGraph.Numeric (Arithmetic Exact Number Unbounded)

namespace Size

variable [Arithmetic] {bindings : Bindings}

/-- A literal stays the same literal. -/
theorem value_of_substitute {s t : Size} {v : Number} (hv : s.value? = some v)
    (h : s.substitute bindings = .ok t) : t.value? = some v := by
  obtain rfl := value?_eq_some.mp hv
  exact value?_eq_some.mpr (substitute_literal.mp h).symm

end Size

namespace View

/-! ## Operations -/

/-- An operation on a view, with its arguments. -/
inductive Operation where
  | slice (spans : List Span)
  | permute (axes : List Number)
  | expand (axis : Number) (size : Quantity)
  | broadcastAxis (axis : Number) (size : Quantity)

namespace Operation

/-- Every size that the operation is given has integers for its literals. -/
def Integral : Operation → Prop
  | slice spans => ∀ span ∈ spans, span.Integral
  | permute _ => True
  | expand _ size => size.Integral
  | broadcastAxis _ size => size.Integral

section

variable [Arithmetic]

/-- The view that the operation makes of another one. -/
def apply (v : View) : Operation → Except Fault View
  | slice spans => v.slice spans
  | permute axes => v.permute axes
  | expand axis size => v.expand axis size
  | broadcastAxis axis size => v.broadcastAxis axis size

/-- Replaces the bound symbols in the sizes that the operation is given. -/
def substitute (bindings : Bindings) : Operation → Except Fault Operation
  | slice spans => return slice (← spans.mapM (Span.substitute bindings))
  | permute axes => .ok (permute axes)
  | expand axis size => return expand axis (← size.instantiate bindings)
  | broadcastAxis axis size => return broadcastAxis axis (← size.instantiate bindings)

/-- The view is bound, and so are the sizes that the operation is given; then it is applied. -/
def onBound (bindings : Bindings) (op : Operation) (v : View) : Except Fault View := do
  let v' ← v.substitute bindings
  let op' ← op.substitute bindings
  op'.apply v'

/-- The operation is applied as it is, and what it makes is bound. -/
def thenBound (bindings : Bindings) (op : Operation) (v : View) : Except Fault View := do
  let w ← op.apply v
  w.substitute bindings

variable [Unbounded] {v w : View} {op : Operation}

/-- An operation keeps views of integers well formed. -/
theorem sound (hv : v.WellFormed) (hi : v.Integral) (hop : op.Integral) (h : op.apply v = .ok w) :
    w.WellFormed ∧ w.Integral := by
  cases op with
  | slice spans => exact ⟨(slice_ok hv h).1, slice_integral hv hi hop h⟩
  | permute axes => exact permute_sound hv hi h
  | expand axis size => exact expand_sound hv hi hop h
  | broadcastAxis axis size => exact broadcastAxis_sound hv hi hop h

end

end Operation

/-! ## Checks of literals -/

section

variable [Arithmetic] {bindings : Bindings} {axis : Nat} {start stop start' stop' : Size}

/-- A span that is not negative once it is bound is not negative before. -/
theorem refuseNegative_of_substitute (hstart : start.substitute bindings = .ok start')
    (hstop : stop.substitute bindings = .ok stop')
    (h : refuseNegative axis start' stop' = .ok ()) : refuseNegative axis start stop = .ok () := by
  have hkept : ∀ {s t : Size}, s.substitute bindings = .ok t →
      t.value?.any (fun held => held.lt 0) = false →
      s.value?.any (fun held => held.lt 0) = false := by
    intro s t hst ht
    cases hv : s.value? with
    | none => rfl
    | some held => rwa [Size.value_of_substitute hv hst] at ht
  simp only [refuseNegative, ite_error_eq_ok, Bool.not_eq_true, Bool.or_eq_false_iff] at h ⊢
  exact ⟨⟨hkept hstart h.1.1, hkept hstop h.1.2⟩, trivial⟩

/-- A span that is not reversed once it is bound is not reversed before. -/
theorem refuseReversed_of_substitute (hstart : start.substitute bindings = .ok start')
    (hstop : stop.substitute bindings = .ok stop')
    (h : refuseReversed axis start' stop' = .ok ()) : refuseReversed axis start stop = .ok () := by
  cases hs : start.value? with
  | none => rw [refuseReversed, hs]
  | some s =>
      cases he : stop.value? with
      | none => rw [refuseReversed, hs, he]
      | some e =>
          rw [refuseReversed, Size.value_of_substitute hs hstart,
            Size.value_of_substitute he hstop] at h
          rw [refuseReversed, hs, he]
          exact h

end

/-! ## Operations that look at literals -/

section

variable [Arithmetic] {bindings : Bindings} {v v' : View}

/-- A range replaced behind one axis, in a view and in the bound view alike. -/
theorem setAxis_becomes (horder : v.order = v'.order) {axes axes' : List AxisRange}
    (haxes : List.Forall₂ (AxisRange.Becomes bindings) axes axes') (axis : Nat)
    {range range' : AxisRange} (h : range.Becomes bindings range') :
    List.Forall₂ (AxisRange.Becomes bindings) (v.setAxis axes axis range)
      (v'.setAxis axes' axis range') := by
  rw [setAxis, setAxis, ← horder]
  cases v.order[axis]? with
  | none => exact haxes
  | some physical => exact forall₂_set haxes physical h

/-- Narrowing one axis after the other goes through if it does on the bound view. -/
theorem sliceFrom_becomes [Unbounded] (hv : v.WellFormed) (hi : v.Integral) (hb : bindings.Integral)
    (hbound : v.substitute bindings = .ok v') {spans spans' : List Span}
    (hspans : ∀ span ∈ spans, span.Integral)
    (hsubstitute : List.Forall₂ (fun span span' => span.substitute bindings = .ok span')
      spans spans')
    {axis : Nat} {axes axes' narrowed' : List AxisRange}
    (haxes : List.Forall₂ (AxisRange.Becomes bindings) axes axes')
    (h : v'.sliceFrom axis spans' axes' = .ok narrowed') :
    ∃ narrowed, v.sliceFrom axis spans axes = .ok narrowed ∧
      List.Forall₂ (AxisRange.Becomes bindings) narrowed narrowed' := by
  have horder := (substitute_iff.mp hbound).2
  have hv' := (substitute_sound hv hi hb hbound).1
  induction hsubstitute generalizing axis axes axes' with
  | nil =>
      obtain rfl := Except.ok.inj h
      exact ⟨axes, rfl, haxes⟩
  | @cons span span' rest rest' hspan hrest ih =>
      simp only [sliceFrom, bind_eq_ok] at h
      obtain ⟨_, hnegative, _, hreversed, range', hrange', _, hnarrowed, h⟩ := h
      obtain ⟨range, hrange, hbecomes⟩ :=
        substitute_shown hv hbound ((axisAt_eq_ok hv').mp hrange')
      have hri := hi.of_mem_shown (List.mem_of_getElem? hrange)
      have hsi := hspans span List.mem_cons_self
      have hnarrow := narrow_becomes hri hsi hb hbecomes hspan
      obtain ⟨hstart, hstop⟩ := Span.substitute_iff.mp hspan
      obtain ⟨narrowed, hsliced, hall⟩ := ih
        (fun other hother => hspans other (List.mem_cons_of_mem _ hother))
        (setAxis_becomes horder haxes axis hnarrow) h
      refine ⟨narrowed, ?_, hall⟩
      simp only [sliceFrom, bind_eq_ok]
      exact ⟨(), refuseNegative_of_substitute hstart hstop hnegative,
        (), refuseReversed_of_substitute hstart hstop hreversed,
        range, (axisAt_eq_ok hv).mpr hrange,
        (), refuseReversed_of_substitute hnarrow.start hnarrow.stop hnarrowed, hsliced⟩

/-- An axis can be repeated unless its length is a literal other than one. -/
theorem broadcastAxis_iff {axis : Number} {size : Quantity} :
    v.broadcastAxis axis size = .ok v' ↔ ∃ position current extent,
      Axis.position "expand" axis v.rank = .ok position ∧ v.axisAt position = .ok current ∧
      (∀ length, current.length.value? = some length → length = 1) ∧
      size.toSize = .ok extent ∧
      v' = { v with axes := v.setAxis v.axes position (.whole (extent.pin v.pinBound) true) } := by
  constructor
  · intro h
    obtain ⟨position, extent, hposition, hextent, rfl⟩ := broadcastAxis_made h
    simp only [broadcastAxis, hposition, bind_eq_ok, Except.ok.injEq, exists_eq_left'] at h
    obtain ⟨current, hcurrent, h⟩ := h
    refine ⟨position, current, extent, hposition, hcurrent, ?_, hextent, rfl⟩
    intro length hlength
    rw [hlength] at h
    by_cases hone : length = 1
    · exact hone
    · simp [hone] at h
  · rintro ⟨position, current, extent, hposition, hcurrent, hunit, hextent, rfl⟩
    simp only [broadcastAxis, hposition, hcurrent, bind_eq_ok, Except.ok.injEq, exists_eq_left']
    cases hlength : current.length.value? with
    | none => simp [hextent]
    | some length => simp [hunit length hlength, hextent]

/-- The size that a bound quantity stands for is that of the quantity, bound. -/
theorem toSize_of_instantiate {size size' : Quantity} {extent' : Size}
    (h : size.instantiate bindings = .ok size') (h' : size'.toSize = .ok extent') :
    ∃ extent, size.toSize = .ok extent ∧ extent.substitute bindings = .ok extent' := by
  cases size with
  | number n =>
      obtain rfl := Except.ok.inj h
      refine ⟨extent', h', ?_⟩
      simp only [Quantity.toSize, Size.ofNumber, ite_ok_eq_ok] at h'
      obtain ⟨_, rfl⟩ := h'
      rfl
  | size s =>
      simp only [Quantity.instantiate, bind_eq_ok, pure_eq_ok] at h
      obtain ⟨t, ht, rfl⟩ := h
      obtain rfl := Except.ok.inj h'
      exact ⟨s, rfl, ht⟩

variable [Unbounded]

/-- Repeating an axis goes through if it does on the bound view. -/
theorem broadcastAxis_becomes (hv : v.WellFormed) (hi : v.Integral) (hb : bindings.Integral)
    (hbound : v.substitute bindings = .ok v') {axis : Number} {size size' : Quantity}
    (hsize : size.Integral) (hsubstitute : size.instantiate bindings = .ok size') {w' : View}
    (h : v'.broadcastAxis axis size' = .ok w') :
    ∃ w, v.broadcastAxis axis size = .ok w ∧ w.substitute bindings = .ok w' := by
  obtain ⟨haxes, horder⟩ := substitute_iff.mp hbound
  obtain ⟨hv', hi'⟩ := substitute_sound hv hi hb hbound
  obtain ⟨position, current', extent', hposition, hcurrent', hunit, hextent', rfl⟩ :=
    broadcastAxis_iff.mp h
  obtain ⟨current, hcurrent, hbecomes⟩ :=
    substitute_shown hv hbound ((axisAt_eq_ok hv').mp hcurrent')
  obtain ⟨extent, hextent, hext⟩ := toSize_of_instantiate hsubstitute hextent'
  have hrange := hi.of_mem_shown (List.mem_of_getElem? hcurrent)
  have hei := hsize.toSize hextent
  have hkept : ∀ length, current.length.value? = some length → length = 1 := by
    intro length hlength
    -- a length that is a literal has cancelled, and it cancels once more when it is bound
    have hcancelled := Size.substitute_sub_literal hrange.stop hrange.start hb hbecomes.stop
      hbecomes.start (Size.value?_eq_some.mp hlength)
    exact hunit length (Size.value?_eq_some.mpr hcancelled)
  have hw := broadcastAxis_iff.mpr
    ⟨position, current, extent, by rw [rank, horder]; exact hposition,
      (axisAt_eq_ok hv).mpr hcurrent, hkept, hextent, rfl⟩
  refine ⟨_, hw, substitute_iff.mpr ⟨?_, horder⟩⟩
  rw [hei.pin_eq, (Size.substitute_integral hei hb hext).pin_eq]
  exact setAxis_becomes horder haxes position (AxisRange.whole_becomes hext true)

/-! ## All operations -/

/-- If the slice is accepted on the bound view then it is before, and the symbols may be bound
then. -/
theorem slice_becomes (hv : v.WellFormed) (hi : v.Integral) (hb : bindings.Integral)
    (hbound : v.substitute bindings = .ok v') {spans spans' : List Span}
    (hspans : ∀ span ∈ spans, span.Integral)
    (hsubstitute : List.Forall₂ (fun span span' => span.substitute bindings = .ok span')
      spans spans')
    {w' : View} (h : v'.slice spans' = .ok w') :
    ∃ w, v.slice spans = .ok w ∧ w.substitute bindings = .ok w' := by
  obtain ⟨haxes, horder⟩ := substitute_iff.mp hbound
  simp only [slice, ite_error_eq_ok, bind_eq_ok, pure_eq_ok] at h
  obtain ⟨hcount, narrowed', hnarrowed', rfl⟩ := h
  obtain ⟨narrowed, hnarrowed, hall⟩ :=
    sliceFrom_becomes hv hi hb hbound hspans hsubstitute haxes hnarrowed'
  have hcount' : ¬ spans.length > v.rank := by
    rw [hsubstitute.length_eq, rank, horder]
    exact hcount
  refine ⟨{ v with axes := narrowed }, ?_, substitute_iff.mpr ⟨hall, horder⟩⟩
  rw [slice, if_neg hcount', hnarrowed]
  rfl

omit [Unbounded] in
/-- If the permutation is accepted on the bound view then it is before. -/
theorem permute_becomes (hbound : v.substitute bindings = .ok v') {axes : List Number} {w' : View}
    (h : v'.permute axes = .ok w') :
    ∃ w, v.permute axes = .ok w ∧ w.substitute bindings = .ok w' := by
  obtain ⟨haxes, horder⟩ := substitute_iff.mp hbound
  simp only [permute, bind_eq_ok, pure_eq_ok, rank, ← horder] at h
  obtain ⟨positions, hpositions, order, hordered, rfl⟩ := h
  refine ⟨{ v with order := order }, ?_, substitute_iff.mpr ⟨haxes, rfl⟩⟩
  simp only [permute, bind_eq_ok, pure_eq_ok]
  exact ⟨positions, hpositions, order, hordered, rfl⟩

/-- If the expansion is accepted on the bound view then it is before. -/
theorem expand_becomes (hb : bindings.Integral) (hbound : v.substitute bindings = .ok v')
    {axis : Number} {size size' : Quantity} (hsize : size.Integral)
    (hsubstitute : size.instantiate bindings = .ok size') {w' : View}
    (h : v'.expand axis size' = .ok w') :
    ∃ w, v.expand axis size = .ok w ∧ w.substitute bindings = .ok w' := by
  obtain ⟨haxes, horder⟩ := substitute_iff.mp hbound
  simp only [expand, bind_eq_ok, pure_eq_ok] at h
  obtain ⟨position, hposition, extent', hextent', rfl⟩ := h
  obtain ⟨extent, hextent, hext⟩ := toSize_of_instantiate hsubstitute hextent'
  have hei := hsize.toSize hextent
  have hw : v.expand axis size = .ok ⟨v.axes ++ [.whole extent true],
      Axis.insertAt v.order position v.axes.length⟩ := by
    simp only [expand, bind_eq_ok, pure_eq_ok]
    rw [rank, ← horder, ← rank] at hposition
    refine ⟨position, hposition, extent, hextent, ?_⟩
    rw [hei.pin_eq]
  refine ⟨_, hw, substitute_iff.mpr ⟨?_, ?_⟩⟩
  · rw [(Size.substitute_integral hei hb hext).pin_eq]
    exact List.rel_append haxes (.cons (AxisRange.whole_becomes hext true) .nil)
  · rw [horder, haxes.length_eq]

/-- **What goes through on the bound view goes through on the view itself**, and what it makes
of that becomes what it makes of the bound view. -/
theorem Operation.apply_becomes (hv : v.WellFormed) (hi : v.Integral) (hb : bindings.Integral)
    {op op' : Operation} (hop : op.Integral) (hbound : v.substitute bindings = .ok v')
    (hsubstitute : op.substitute bindings = .ok op') {w' : View} (h : op'.apply v' = .ok w') :
    ∃ w, op.apply v = .ok w ∧ w.substitute bindings = .ok w' := by
  cases op with
  | slice spans =>
      simp only [Operation.substitute, bind_eq_ok, pure_eq_ok, mapM_eq_ok] at hsubstitute
      obtain ⟨spans', hspans', rfl⟩ := hsubstitute
      exact slice_becomes hv hi hb hbound hop hspans' h
  | permute axes =>
      obtain rfl := Except.ok.inj hsubstitute
      exact permute_becomes hbound h
  | expand axis size =>
      simp only [Operation.substitute, bind_eq_ok, pure_eq_ok] at hsubstitute
      obtain ⟨size', hsize', rfl⟩ := hsubstitute
      exact expand_becomes hb hbound hop hsize' h
  | broadcastAxis axis size =>
      simp only [Operation.substitute, bind_eq_ok, pure_eq_ok] at hsubstitute
      obtain ⟨size', hsize', rfl⟩ := hsubstitute
      exact broadcastAxis_becomes hv hi hb hbound hop hsize' h

end

/-! ## Views that can be reached -/

/-- **Binding commutes with the operations on views.**  Let an operation go through on a bound
view that can be reached, with its sizes bound as well.  Then it goes through on the view, and
binding what it makes gives the same.  And a view that resolves under a binding is bound by any
part of it and resolves to the same under the rest. -/
theorem substitute_commutes {v : View} (hv : v.Reachable) :
    (∀ (op : Operation) (bindings : Bindings) (w' : View), op.Integral → bindings.Integral →
      (Exact fun _ => op.onBound bindings v) → (Exact fun _ => op.thenBound bindings v) →
      op.onBound bindings v = .ok w' →
        ∃ w u, op.apply v = .ok w ∧ w.substitute bindings = .ok u ∧ u.same w' = true) ∧
    ∀ (both first second : Bindings) (resolved : ResolvedView), both.Joins first second →
      first.Integral → second.Integral → (Exact fun _ => v.resolve both) →
      (Exact fun _ => do
        let w ← v.substitute first
        w.resolve second) →
      v.resolve both = .ok resolved →
        ∃ w, v.substitute first = .ok w ∧ w.resolve second = .ok resolved := by
  have hwell := hv.wellFormed
  have hi := hv.integral
  constructor
  · intro op bindings w' hop hb hbound hthen h
    have hlate := hbound.symm.trans h
    simp only [Operation.onBound, bind_eq_ok] at hlate
    obtain ⟨v', hv', op', hop', hw'⟩ := hlate
    obtain ⟨w, hw, hww'⟩ :=
      @Operation.apply_becomes .unbounded _ _ _ _ hwell hi hb _ _ hop hv' hop' _ hw'
    have hearly := hthen.trans (bind_eq_ok.mpr ⟨w, hw, hww'⟩)
    obtain ⟨u, hu, huw'⟩ := bind_eq_ok.mp hearly
    refine ⟨u, w', hu, huw', ?_⟩
    obtain ⟨hwwell, hwi⟩ := @Operation.sound .unbounded _ _ _ _ hwell hi hop hw
    exact (@substitute_sound _ _ .unbounded _ hwwell hwi _ hb hww').2.same_self
  · intro both first second resolved hjoins hfirst hsecond hboth hstages h
    have hstaged := @resolve_in_stages .unbounded _ _ _ _ _ hwell hi hv.capped hjoins hfirst hsecond
      _ (hboth.symm.trans h)
    exact bind_eq_ok.mp (hstages.trans (bind_eq_ok.mpr hstaged))

/-- The rows from `n` on up to six, but not more than `m - 1`. -/
def window : View :=
  ⟨[⟨.symbol "n", .binary .min (.binary .add (.binary .add (.symbol "n") (.literal (.int (-1))))
    (.symbol "m")) (.literal 7), .literal 10, false⟩], [0]⟩

/-- The window is a view that calls end in. -/
theorem reachable_window : window.Reachable := by
  have hrows : shiftedRows.Reachable :=
    .slice reachable_middleRows shifted_integral (.of_eq (.ok shiftedRows) rfl rfl) rfl
  have hspans : ∀ span ∈ [Span.mk .one (.symbol "m")],
      span.start.Integral ∧ span.stop.Integral := by
    simpa using ⟨⟨1, rfl⟩, trivial⟩
  exact .slice hrows hspans (.of_eq (.ok window) rfl rfl) rfl

/-- These rows for `n = 4` without the first one, and up to the `k`th. -/
def windowFrom5 : View :=
  ⟨[⟨.literal 5, .binary .min (.binary .add (.symbol "k") (.literal 4))
    (.binary .min (.binary .add (.symbol "m") (.literal 3)) (.literal 7)), .literal 10, false⟩],
    [0]⟩

/-- They are the same whether `n` is bound before they are taken or afterwards.  And where `m` is
three as well, the rows are four and five, in two stages as at once. -/
theorem substitute_commutes_window :
    (∃ w u, (Operation.slice [⟨.one, .symbol "k"⟩]).apply window = .ok w ∧
      w.substitute [("n", 4)] = .ok u ∧ u.same windowFrom5 = true) ∧
    ∃ w, window.substitute [("n", 4)] = .ok w ∧
      w.resolve [("m", 3)] = .ok ⟨[2], [⟨4, 6, false⟩], [0]⟩ := by
  have hfour : Bindings.Integral [("n", 4)] := Bindings.integral_nil.cons "n" 4
  have hthree : Bindings.Integral [("m", 3)] := Bindings.integral_nil.cons "m" 3
  have hjoins := Bindings.joins_append [("n", 4)] [("m", 3)]
  have hop : (Operation.slice [⟨.one, .symbol "k"⟩]).Integral := by
    intro span hspan
    obtain rfl := List.mem_singleton.mp hspan
    exact ⟨⟨1, rfl⟩, trivial⟩
  have hbound : (Operation.slice [⟨.one, .symbol "k"⟩]).onBound [("n", 4)] window =
      .ok windowFrom5 := rfl
  have hresolved : window.resolve [("n", 4), ("m", 3)] = .ok ⟨[2], [⟨4, 6, false⟩], [0]⟩ := rfl
  obtain ⟨hcommutes, hstages⟩ := substitute_commutes reachable_window
  constructor
  · exact hcommutes _ _ _ hop hfour (.of_eq _ hbound rfl) (.of_eq (.ok windowFrom5) rfl rfl) hbound
  · exact hstages _ _ _ _ hjoins hfour hthree (.of_eq _ hresolved rfl)
      (.of_eq (.ok ⟨[2], [⟨4, 6, false⟩], [0]⟩) rfl rfl) hresolved

end View

end ShapeGraph
