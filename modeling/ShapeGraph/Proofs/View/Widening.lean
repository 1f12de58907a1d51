import ShapeGraph.Proofs.View.Narrowing

/-!
# What is left of an axis that is repeated

An axis of length one is repeated by putting a whole axis of the new size in its
place.  Nothing is kept of where the axis started, so two views that differ only
there are the same view once that axis is repeated.

* `AlikeBut` — two views that differ on one axis only;
* `slice_alike` — slices by spans that differ on one axis only;
* `eq_of_shown` — a view is what it shows, in its order;
* `broadcastAxis_alike` — repeating that axis makes such views the same.
-/

namespace ShapeGraph.View

open ShapeGraph.Numeric (Arithmetic Exact Number Unbounded)

/-- Two views with the same order that show the same ranges, but for one axis. -/
structure AlikeBut (axis : Nat) (v w : View) : Prop where
  order_eq : v.order = w.order
  shown_eq : ∀ i ≠ axis, v.shown[i]? = w.shown[i]?

variable {u v w : View} {axis : Nat}

/-- There are as many physical axes as logical ones. -/
theorem WellFormed.length_axes (hv : v.WellFormed) : v.axes.length = v.rank := by
  have hlength := hv.length_eq
  rw [List.length_range] at hlength
  exact hlength.symm

/-- **A view is what it shows**, together with the order in which it does. -/
theorem eq_of_shown (hv : v.WellFormed) (hw : w.WellFormed) (horder : v.order = w.order)
    (hshown : v.shown = w.shown) : v = w := by
  have hlength : v.axes.length = w.axes.length := by
    rw [hv.length_axes, hw.length_axes, rank, rank, horder]
  have haxes : v.axes = w.axes := by
    refine List.ext_getElem? fun p => ?_
    by_cases hp : p < v.axes.length
    · -- every physical axis is shown somewhere
      have hmem : p ∈ v.order := hv.mem_iff.mpr (List.mem_range.mpr hp)
      obtain ⟨i, hi⟩ := List.mem_iff_getElem?.mp hmem
      have hthis : v.shown[i]? = w.shown[i]? := by rw [hshown]
      rw [shown, shown, Axis.getElem?_picked hv.within, Axis.getElem?_picked hw.within,
        ← horder, hi] at hthis
      exact hthis
    · rw [List.getElem?_eq_none (by omega), List.getElem?_eq_none (by omega)]
  cases v
  cases w
  simp_all

/-- Slices of one view by spans that differ on one axis only are alike but for that
axis. -/
theorem slice_alike [Arithmetic] (hv : v.WellFormed) {spans others : List Span}
    (h : v.slice spans = .ok u) (h' : v.slice others = .ok w)
    (hspans : ∀ i ≠ axis, spans[i]? = others[i]?) : u.AlikeBut axis w where
  order_eq := (slice_order h).trans (slice_order h').symm
  shown_eq i hi := by rw [slice_shown_at hv h, slice_shown_at hv h', hspans i hi]

/-- An axis that is put in is the last physical one. -/
theorem expand_order (haxis : axis ≤ v.rank) {size : Quantity}
    (h : v.expand (.ofNat axis) size = .ok w) :
    w.order = Axis.insertAt v.order axis v.axes.length := by
  simp only [expand, Axis.position_ofNat (Nat.lt_succ_of_le haxis), bind_eq_ok, pure_eq_ok,
    Except.ok.injEq, exists_eq_left'] at h
  obtain ⟨_, _, rfl⟩ := h
  rfl

/-! ## Repeating an axis -/

section

variable [Arithmetic] {size : Size}

/-- An axis of length one can be repeated. -/
theorem broadcastAxis_unit {range : AxisRange} (hrange : v.axisAt axis = .ok range)
    (hunit : range.length = .one) : ∃ w, v.broadcastAxis (.ofNat axis) (.size size) = .ok w := by
  have hlt : axis < v.rank := by
    unfold axisAt at hrange
    split at hrange
    · next held hheld =>
      obtain ⟨p, hp, _⟩ := Option.bind_eq_some_iff.mp hheld
      exact (List.getElem?_eq_some_iff.mp hp).1
    · cases hrange
  have hone : range.length.value? = some 1 := by rw [hunit]; rfl
  refine ⟨{ v with axes := v.setAxis v.axes axis (.whole (size.pin v.pinBound) true) }, ?_⟩
  simp only [broadcastAxis, Axis.position_ofNat hlt, hrange, Quantity.toSize, bind_eq_ok, hone,
    ne_eq, not_true_eq_false, if_false, pure_eq_ok, Except.ok.injEq, exists_eq_left']

/-- **Repeating the one axis on which two views differ** makes them the same view. -/
theorem broadcastAxis_alike (hv : v.WellFormed) (hw : w.WellFormed) (h : v.AlikeBut axis w)
    (haxis : axis < v.rank) (hsize : size.Integral) {a b : View}
    (ha : v.broadcastAxis (.ofNat axis) (.size size) = .ok a)
    (hb : w.broadcastAxis (.ofNat axis) (.size size) = .ok b) : a = b := by
  have haxis' : axis < w.rank := by
    have hrank : v.rank = w.rank := congrArg List.length h.order_eq
    omega
  obtain ⟨haw, _, hashown⟩ := broadcastAxis_ok hv haxis hsize ha
  obtain ⟨hbw, _, hbshown⟩ := broadcastAxis_ok hw haxis' hsize hb
  have horder : a.order = b.order := by
    obtain ⟨_, _, _, _, rfl⟩ := broadcastAxis_made ha
    obtain ⟨_, _, _, _, rfl⟩ := broadcastAxis_made hb
    exact h.order_eq
  have hshown : a.shown = b.shown := by
    rw [hashown, hbshown]
    refine List.ext_getElem? fun i => ?_
    by_cases hi : axis = i
    · subst hi
      rw [List.getElem?_set_self (hv.length_shown ▸ haxis),
        List.getElem?_set_self (hw.length_shown ▸ haxis')]
    · rw [List.getElem?_set_ne hi, List.getElem?_set_ne hi, h.shown_eq i (Ne.symm hi)]
  exact eq_of_shown haw hbw horder hshown

end

/-! ## Views that can be reached -/

/-- A view of integers is the same as itself. -/
theorem Integral.same_self (hv : v.Integral) : v.same v = true := by
  have hrange : ∀ range ∈ v.axes, range.same range = true := by
    intro range hr
    obtain ⟨hstart, hstop, hsize⟩ := hv range hr
    simp [AxisRange.same, (Size.same_iff hstart hstart).mpr, (Size.same_iff hstop hstop).mpr,
      (Size.same_iff hsize hsize).mpr]
  have hzip : ∀ pair ∈ v.axes.zip v.axes, pair.1.same pair.2 = true := by
    intro pair hpair
    obtain ⟨i, hi, rfl⟩ := List.getElem_of_mem hpair
    rw [List.getElem_zip]
    exact hrange _ (List.getElem_mem _)
  simpa [same] using hzip

/-- Two views that can be reached and differ only in the element of storage that one axis
of length one starts at. -/
structure Shifted (axis : Nat) (v w : View) : Prop where
  reachable : v.Reachable
  reachable' : w.Reachable
  alike : v.AlikeBut axis w
  unit : ∃ first second, v.axisAt axis = .ok first ∧ w.axisAt axis = .ok second ∧
    first.length = .one ∧ second.length = .one

/-- **Repeating an axis of length one forgets where it starts**: it never fails, and of two
views that differ only there it makes one and the same view. -/
theorem Shifted.broadcastAxis_ok (h : v.Shifted axis w) {number : Number} {size : Quantity}
    {extent : Size} (hnumber : Axis.position "expand" number v.rank = .ok axis)
    (hsize : size.toSize = .ok extent) (hextent : extent.Integral) :
    ∃ u, v.broadcastAxis number size = .ok u ∧ w.broadcastAxis number size = .ok u ∧
      u.same u = true := by
  obtain ⟨first, second, hfirst, hsecond, hunit, hunit'⟩ := h.unit
  have hnumber' : Axis.position "expand" number w.rank = .ok axis := by
    rwa [rank, ← h.alike.order_eq]
  have hlt := Axis.position_lt hnumber
  obtain ⟨a, ha⟩ := @broadcastAxis_unit v axis _ extent _ hfirst hunit
  obtain ⟨b, hb⟩ := @broadcastAxis_unit w axis _ extent _ hsecond hunit'
  have hv := h.reachable.wellFormed
  obtain rfl := broadcastAxis_alike hv h.reachable'.wellFormed h.alike hlt hextent ha hb
  refine ⟨a, ?_, ?_, ?_⟩
  · rw [broadcastAxis_eq hnumber hsize, ha]
  · rw [broadcastAxis_eq hnumber' hsize, hb]
  · exact (broadcastAxis_integral hv h.reachable.integral hlt hextent ha).same_self

/-- One row of four. -/
def rowOf4 (i : Int) : View :=
  ⟨[⟨.literal (.int i), .literal (.int (i + 1)), .literal 4, false⟩], [0]⟩

/-- A row of four is a view that calls end in. -/
theorem reachable_row {i : Int} (exactly : Exact fun _ =>
      (contiguous [.literal 4]).slice [⟨.literal (.int i), .literal (.int (i + 1))⟩])
    (made : (contiguous [.literal 4]).slice [⟨.literal (.int i), .literal (.int (i + 1))⟩] =
      .ok (rowOf4 i)) : (rowOf4 i).Reachable := by
  have hwhole : Reachable (contiguous [.literal 4]) :=
    @Reachable.whole [.number 4] _ (by simp [Quantity.Integral]) rfl
  refine .slice hwhole ?_ exactly made
  simpa using ⟨⟨i, rfl⟩, ⟨i + 1, rfl⟩⟩

/-- Row one and row three are alike but for where they start. -/
theorem shifted_rows : (rowOf4 1).Shifted 0 (rowOf4 3) where
  reachable := reachable_row (.of_eq (.ok (rowOf4 1)) rfl rfl) rfl
  reachable' := reachable_row (.of_eq (.ok (rowOf4 3)) rfl rfl) rfl
  alike := by
    refine ⟨rfl, fun i hi => ?_⟩
    cases i with
    | zero => exact absurd rfl hi
    | succ i => rfl
  unit := ⟨_, _, rfl, rfl, rfl, rfl⟩

end ShapeGraph.View
