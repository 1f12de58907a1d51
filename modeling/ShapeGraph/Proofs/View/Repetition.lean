import ShapeGraph.Proofs.View.Commutation

/-!
# When the length of a repeated axis is known

Only an axis of length one may be repeated, and the length is looked at when the axis is
repeated.  A literal length tells; a symbolic one is let through, and as the whole of a new axis
takes the place of the old range, nothing is left by which resolving the view could look again.
So what a binding has to say about the length is never heard.  It would be heard if the symbols
were bound first: every length is a literal then, and only an axis of length one goes through.

* `broadcastAxis_of_literal` — an axis whose length is known is repeated just if it is one;
* `AxisRange.Becomes.length_eq` — binding makes a literal of the length of a range that resolves;
* `broadcastAxis_onBound` — whether an axis is repeated on the bound view;
* `broadcastAxis_unit_iff` — when the repeated axis resolves to length one.
-/

namespace ShapeGraph

open ShapeGraph.Numeric (Arithmetic Exact Number Unbounded)

/-- A quantity whose size can be rebuilt can be bound, and stands for the rebuilt size. -/
theorem Quantity.instantiate_ok [Arithmetic] {bindings : Bindings} {size : Quantity}
    {extent extent' : Size} (h : size.toSize = .ok extent)
    (hextent : extent.substitute bindings = .ok extent') :
    ∃ size', size.instantiate bindings = .ok size' ∧ size'.toSize = .ok extent' := by
  cases size with
  | number n =>
      have hliteral := h
      simp only [toSize, Size.ofNumber, ite_ok_eq_ok] at hliteral
      obtain ⟨_, rfl⟩ := hliteral
      obtain rfl := Except.ok.inj hextent
      exact ⟨.number n, rfl, h⟩
  | size s =>
      obtain rfl := Except.ok.inj h
      refine ⟨.size extent', ?_, rfl⟩
      rw [instantiate, hextent]
      rfl

/-- **Binding makes a literal of a length**: that of a range that evaluates. -/
theorem AxisRange.Becomes.length_eq [Arithmetic] [Unbounded] {bindings : Bindings}
    {range range' : AxisRange} (h : range.Becomes bindings range') {m n : Int}
    (hmn : range.Evaluates bindings m n) : range'.length = .literal (.int (n - m)) := by
  have hstart := Except.ok.inj (h.start.symm.trans (Size.evaluate_eq_ok.mp hmn.start))
  have hstop := Except.ok.inj (h.stop.symm.trans (Size.evaluate_eq_ok.mp hmn.stop))
  rw [length, hstart, hstop, Size.sub_int]

namespace View

/-- The size that an axis is given evaluates if what the view has become resolves. -/
theorem broadcastAxis_extent [Arithmetic] [Unbounded] {v w : View} {axis : Number}
    {size : Quantity} {extent : Size} {bindings : Bindings} {repeated : ResolvedView}
    (hv : v.WellFormed) (hi : v.Integral) (hsize : size.Integral) (hb : bindings.Integral)
    (h : v.broadcastAxis axis size = .ok w) (hextent : size.toSize = .ok extent)
    (hrepeated : w.resolve bindings = .ok repeated) :
    ∃ n : Int, extent.evaluate bindings = .ok (.int n) := by
  obtain ⟨position, other, hlt, hother, hat⟩ := broadcastAxis_at h
  obtain rfl := Except.ok.inj (hextent.symm.trans hother)
  have hei := hsize.toSize hextent
  obtain ⟨hw, hrank, hshown⟩ := broadcastAxis_ok hv hlt hei hat
  have hwi := broadcastAxis_integral hv hi hlt hei hat
  obtain ⟨ranges, hcount, hranges, _⟩ := (resolve_iff hw hwi hb).mp hrepeated
  have hput : w.shown[position]? = some (.whole extent true) := by
    rw [hshown, List.getElem?_set_self (hv.length_shown ▸ hlt)]
  have hconcrete := List.getElem?_eq_getElem (l := ranges) (i := position) (by omega)
  obtain ⟨_, n, hmn, _⟩ := hranges position _ _ hput hconcrete
  exact ⟨n, hmn.stop⟩

/-- **Where its length is known**, an axis is repeated if it is one and refused if not. -/
theorem broadcastAxis_of_literal [Arithmetic] {v : View} {axis : Number} {size : Quantity}
    {position : Nat} {current : AxisRange} {extent : Size} {length : Number}
    (hposition : Axis.position "expand" axis v.rank = .ok position)
    (hcurrent : v.axisAt position = .ok current) (hlength : current.length = .literal length)
    (hextent : size.toSize = .ok extent) :
    (length = 1 → ∃ w, v.broadcastAxis axis size = .ok w) ∧
      (length ≠ 1 → v.broadcastAxis axis size =
        .error (.range "expand" (.notUnit position length))) := by
  constructor
  · intro hone
    have hunit : ∀ held, current.length.value? = some held → held = 1 := by
      intro held hheld
      rw [hlength] at hheld
      exact (Option.some.inj hheld).symm.trans hone
    exact ⟨_, broadcastAxis_iff.mpr ⟨_, _, _, hposition, hcurrent, hunit, hextent, rfl⟩⟩
  · intro hother
    rw [broadcastAxis, hposition, ok_bind, hcurrent, ok_bind, hlength]
    simp only [Size.value?, if_pos hother]
    rfl

section

variable [Arithmetic] [Unbounded] {v w : View} {axis : Number} {size : Quantity}
  {bindings : Bindings} {resolved repeated : ResolvedView}

/-- **Repeating an axis of the bound view** is a matter of what the axis resolves to. -/
theorem broadcastAxis_onBound (hv : v.WellFormed) (hi : v.Integral) (hcapped : v.Capped)
    (hsize : size.Integral) (hb : bindings.Integral) (h : v.broadcastAxis axis size = .ok w)
    (hresolved : v.resolve bindings = .ok resolved)
    (hrepeated : w.resolve bindings = .ok repeated) :
    ∃ (position : Nat) (range : AxisRange) (length : Number),
      Axis.position "expand" axis v.rank = .ok position ∧ v.axisAt position = .ok range ∧
      range.length.evaluate bindings = .ok length ∧ resolved.shape[position]? = some length ∧
      (length = 1 → ∃ w', (Operation.broadcastAxis axis size).onBound bindings v = .ok w') ∧
      (length ≠ 1 → (Operation.broadcastAxis axis size).onBound bindings v =
        .error (.range "expand" (.notUnit position length))) := by
  obtain ⟨position, range, extent, hposition, hrange, _, hextent, _⟩ := broadcastAxis_iff.mp h
  have hlt := Axis.position_lt hposition
  have hei := hsize.toSize hextent
  -- the view resolves, so it can be bound, and the length that it resolves to is a literal then
  obtain ⟨v', hv', _⟩ := resolve_in_stages hv hi hcapped
    (by simpa using Bindings.joins_append bindings []) hb Bindings.integral_nil hresolved
  have hwell' := (substitute_sound hv hi hb hv').1
  have hrank : v'.rank = v.rank := congrArg List.length (substitute_iff.mp hv').2.symm
  obtain ⟨range', hrange'⟩ := hwell'.axisAt_ok (hrank ▸ hlt)
  obtain ⟨same, hsame, hbecomes⟩ := substitute_shown hv hv' ((axisAt_eq_ok hwell').mp hrange')
  obtain rfl := Option.some.inj (hsame.symm.trans ((axisAt_eq_ok hv).mp hrange))
  obtain ⟨ranges, hcount, hranges, rfl⟩ := (resolve_iff hv hi hb).mp hresolved
  have hconcrete : ranges[position]? = some ranges[position] :=
    List.getElem?_eq_getElem (hcount ▸ hlt)
  obtain ⟨m, n, hmn, _, _, hbounds⟩ := hranges position same _ hsame hconcrete
  have hri := hi.of_mem_shown (List.mem_of_getElem? hsame)
  -- what the axis becomes resolves as well, so the size that it is given can be bound
  obtain ⟨_, hvalue⟩ := broadcastAxis_extent hv hi hsize hb h hextent hrepeated
  obtain ⟨size', hsize', hextent'⟩ :=
    Quantity.instantiate_ok hextent (Size.evaluate_eq_ok.mp hvalue)
  have hdecided := broadcastAxis_of_literal (hrank.symm ▸ hposition) hrange'
    (hbecomes.length_eq hmn) hextent'
  have honBound : (Operation.broadcastAxis axis size).onBound bindings v =
      v'.broadcastAxis axis size' := by
    rw [Operation.onBound, hv', ok_bind, Operation.substitute, hsize']
    rfl
  refine ⟨position, same, .int (n - m), hposition, hrange,
    Size.evaluate_sub hri.stop hri.start hb hmn.stop hmn.start, ?_, ?_⟩
  · show (ranges.map _)[position]? = _
    rw [List.getElem?_map, hconcrete, hbounds]
    simp
  · rw [honBound]
    exact hdecided

end

/-! ## Views that can be reached -/

/-- **When only axes of length one are repeated.**  Let an axis of any view that can be reached be
repeated, and let the view resolve, and what it has become.  If the length of the axis was a
literal when it was repeated, the axis resolves to length one.  If it was not, it does so just if
the same axis of the bound view can be repeated, and otherwise that is refused for the length that
it resolves to. -/
theorem broadcastAxis_unit_iff {v w : View} (hv : v.Reachable) {axis : Number} {size : Quantity}
    (hsize : size.Integral) (h : v.broadcastAxis axis size = .ok w) {bindings : Bindings}
    (hb : bindings.Integral) {resolved repeated : ResolvedView}
    (hlengths : Exact fun _ => v.lengths)
    (hbefore : Exact fun _ => v.resolve bindings) (hafter : Exact fun _ => w.resolve bindings)
    (hbound : Exact fun _ => (Operation.broadcastAxis axis size).onBound bindings v)
    (hresolved : v.resolve bindings = .ok resolved)
    (hrepeated : w.resolve bindings = .ok repeated) :
    ∃ (position : Nat) (range : AxisRange) (length : Number),
      Axis.position "expand" axis v.rank = .ok position ∧ v.axisAt position = .ok range ∧
      resolved.shape[position]? = some length ∧
      (range.length.value? ≠ none → length = 1) ∧
      (length = 1 ↔ ∃ w', (Operation.broadcastAxis axis size).onBound bindings v = .ok w') ∧
      (length ≠ 1 → (Operation.broadcastAxis axis size).onBound bindings v =
        .error (.range "expand" (.notUnit position length))) := by
  have hwell := hv.wellFormed
  obtain ⟨place, current, extent, hplace, hcurrent, hunit, hextent, hw⟩ :=
    broadcastAxis_iff.mp h
  have hmem := List.mem_of_getElem? ((axisAt_eq_ok hwell).mp hcurrent)
  have hexactly : @AxisRange.length .double current = @AxisRange.length .unbounded current := by
    have hsame := ((lengths_eq hwell).symm.trans hlengths).trans (@lengths_eq v .unbounded hwell)
    exact List.map_inj_left.mp (Except.ok.inj hsame) current hmem
  have hunbounded : @broadcastAxis .unbounded v axis size = .ok w := by
    refine (@broadcastAxis_iff .unbounded _ _ _ _).mpr
      ⟨place, current, extent, hplace, hcurrent, ?_, hextent, hw⟩
    rwa [← hexactly]
  obtain ⟨position, range, length, hposition, hrange, hvalue, hlength, hone, hother⟩ :=
    @broadcastAxis_onBound .unbounded _ _ _ _ _ _ _ _ hwell hv.integral hv.capped hsize hb
      hunbounded (hbefore.symm.trans hresolved) (hafter.symm.trans hrepeated)
  obtain rfl := Except.ok.inj (hplace.symm.trans hposition)
  obtain rfl := Except.ok.inj (hcurrent.symm.trans hrange)
  refine ⟨place, current, length, hplace, hcurrent, hlength, ?_, ⟨?_, ?_⟩, ?_⟩
  · intro hliteral
    obtain ⟨held, hheld⟩ := Option.ne_none_iff_exists'.mp hliteral
    have hsame : current.length = .literal 1 :=
      Size.value?_eq_some.mp (hunit held hheld ▸ hheld)
    rw [← hexactly, hsame] at hvalue
    exact (Except.ok.inj hvalue).symm
  · intro heq
    obtain ⟨w', hw'⟩ := hone heq
    exact ⟨w', hbound.trans hw'⟩
  · rintro ⟨w', hw'⟩
    by_contra hne
    cases (hbound.symm.trans hw').symm.trans (hother hne)
  · intro hne
    exact hbound.trans (hother hne)

/-- The whole of one axis of `n` elements. -/
def namedRow : View := ⟨[⟨.zero, .symbol "n", .symbol "n", false⟩], [0]⟩

/-- Five of it. -/
def namedRepeated : View := ⟨[⟨.zero, .literal 5, .literal 5, true⟩], [0]⟩

/-- The row is a view that calls end in. -/
theorem reachable_namedRow : namedRow.Reachable :=
  @Reachable.whole [.size (.symbol "n")] _ (by simp [Quantity.Integral, Size.Integral]) rfl

/-- For `n = 1` the axis could have been repeated after binding as well. -/
theorem broadcastAxis_unit_iff_named :
    namedRow.broadcastAxis 0 (.number 5) = .ok namedRepeated ∧
      ∃ w', (Operation.broadcastAxis 0 (.number 5)).onBound [("n", 1)] namedRow = .ok w' := by
  have hb : Bindings.Integral [("n", 1)] := Bindings.integral_nil.cons "n" 1
  have hfive : Quantity.Integral (.number 5) := trivial
  have hmade : namedRow.broadcastAxis 0 (.number 5) = .ok namedRepeated := rfl
  have hbefore : namedRow.resolve [("n", 1)] = .ok ⟨[1], [⟨0, 1, false⟩], [0]⟩ := rfl
  have hafter : namedRepeated.resolve [("n", 1)] = .ok ⟨[5], [⟨0, 5, true⟩], [0]⟩ := rfl
  obtain ⟨position, range, length, hposition, _, hlength, _, hiff, _⟩ :=
    broadcastAxis_unit_iff reachable_namedRow hfive hmade hb (.of_eq (.ok [.symbol "n"]) rfl rfl)
      (.of_eq _ hbefore rfl) (.of_eq _ hafter rfl) (.of_eq (.ok namedRepeated) rfl rfl)
      hbefore hafter
  obtain rfl : 0 = position := Except.ok.inj hposition
  have hone : (1 : Number) = length := Option.some.inj hlength
  exact ⟨hmade, hiff.mp hone.symm⟩

/-- For `n = 3` an axis of length three is repeated. -/
theorem broadcastAxis_unit_fails :
    namedRow.Reachable ∧ namedRow.broadcastAxis 0 (.number 5) = .ok namedRepeated ∧
      namedRow.resolve [("n", 3)] = .ok ⟨[3], [⟨0, 3, false⟩], [0]⟩ ∧
      namedRepeated.resolve [("n", 3)] = .ok ⟨[5], [⟨0, 5, true⟩], [0]⟩ ∧ (3 : Number) ≠ 1 := by
  refine ⟨reachable_namedRow, rfl, rfl, rfl, ?_⟩
  decide

end View

end ShapeGraph
