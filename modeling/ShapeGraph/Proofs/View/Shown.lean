import ShapeGraph.Proofs.Axis
import ShapeGraph.Proofs.Size.Meaning
import ShapeGraph.View

/-!
# What a view shows

A well-formed view shows each physical axis once.  What it shows is the list of
the ranges behind its logical axes, and every view operation is an operation on
that list.

* `WellFormed` — the order is a permutation of the physical axes;
* `shown` — the ranges of the logical axes, which reading a view always finds
  (`ranges_eq`, `lengths_eq`);
* `shown_contiguous`, `slice_ok`, `permute_ok`, `expand_ok`, `broadcastAxis_ok` —
  one law for each operation: it keeps views well formed, and changes the list
  shown in its own way.

The sizes of a view that is built of integers have no undefined values, so
nothing needs a number or an owner in it (`Integral.settle_eq`).
-/

namespace ShapeGraph

open ShapeGraph.Numeric (Arithmetic Number)

/-! ## Sizes and ranges of integers -/

/-- No undefined number is made anew in a size of integers. -/
theorem Size.Integral.freshCount_eq {s : Size} (h : s.Integral) : s.freshCount = 0 := by
  induction s with
  | literal v =>
      obtain ⟨n, rfl⟩ := h
      rfl
  | symbol name => rfl
  | binary op l r ihl ihr => simp [Size.freshCount, ihl h.1, ihr h.2]

/-- So there is nothing to pin in it. -/
theorem Size.Integral.pin_eq {s : Size} (h : s.Integral) (n : Nat) : s.pin n = s :=
  Size.pin_eq_self h.freshCount_eq n

theorem Size.Integral.settle_eq {s : Size} (h : s.Integral) (owner : Nat) :
    s.settle owner = s := by
  induction s with
  | literal v =>
      obtain ⟨n, rfl⟩ := h
      rfl
  | symbol name => rfl
  | binary op l r ihl ihr => simp [Size.settle, ihl h.1, ihr h.2]

theorem Size.pinned_of_integral {sizes : List Size} (h : ∀ s ∈ sizes, s.Integral) :
    Size.pinned sizes = sizes :=
  Size.pinned_eq_self fun s hs => (h s hs).freshCount_eq

namespace AxisRange

/-- Every literal of a range is an integer. -/
structure Integral (range : AxisRange) : Prop where
  start : range.start.Integral
  stop : range.stop.Integral
  size : range.size.Integral

/-- The whole of an axis is a range of integers if its size is. -/
theorem Integral.whole {size : Size} (h : size.Integral) (broadcast : Bool) :
    (AxisRange.whole size broadcast).Integral :=
  ⟨⟨0, rfl⟩, h, h⟩

/-- There is nothing to pin in a range of integers. -/
theorem Integral.pin_eq {range : AxisRange} (h : range.Integral) (n : Nat) :
    range.pin n = range := by
  simp [pin, h.start.pin_eq, h.stop.pin_eq, h.size.pin_eq]

/-- There is nothing to settle in a range of integers. -/
theorem Integral.settle_eq {range : AxisRange} (h : range.Integral) (owner : Nat) :
    range.settle owner = range := by
  simp [settle, h.start.settle_eq, h.stop.settle_eq, h.size.settle_eq]

end AxisRange

namespace View

/-- Each physical axis is shown once. -/
def WellFormed (v : View) : Prop :=
  v.order.Perm (List.range v.axes.length)

/-- Every literal of a view is an integer. -/
def Integral (v : View) : Prop :=
  ∀ range ∈ v.axes, range.Integral

/-- The ranges of the logical axes. -/
def shown (v : View) : List AxisRange :=
  Axis.picked v.axes v.order

variable {v w : View}

/-- The order of a well-formed view lists axes that it has. -/
theorem WellFormed.within (hv : v.WellFormed) : Axis.Within v.order v.axes.length :=
  .of_perm hv

/-- The order of a well-formed view lists no axis twice. -/
theorem WellFormed.nodup (hv : v.WellFormed) : v.order.Nodup :=
  hv.nodup_iff.mpr List.nodup_range

/-- A well-formed view shows all of its axes. -/
theorem WellFormed.length_shown (hv : v.WellFormed) : v.shown.length = v.rank :=
  Axis.length_picked hv.within

/-- What is shown are the physical axes in some order. -/
theorem WellFormed.mem_shown (hv : v.WellFormed) {range : AxisRange} :
    range ∈ v.shown ↔ range ∈ v.axes :=
  (Axis.picked_perm hv).mem_iff

/-- The ranges that a view of integers shows are ranges of integers. -/
theorem Integral.of_mem_shown (hi : v.Integral) {range : AxisRange} (h : range ∈ v.shown) :
    range.Integral :=
  hi range (Axis.mem_of_mem_picked h)

/-- A well-formed view is one of integers if the ranges are that it shows. -/
theorem integral_iff (hv : v.WellFormed) : v.Integral ↔ ∀ range ∈ v.shown, range.Integral :=
  ⟨fun hi _ h => hi.of_mem_shown h, fun h range hr => h range (hv.mem_shown.mpr hr)⟩

theorem Integral.settle_eq (hi : v.Integral) (owner : Nat) : v.settle owner = v := by
  have hpin : ∀ (n : Nat) (axes : List AxisRange), (∀ range ∈ axes, range.Integral) →
      pinAxes n axes = axes := by
    intro n axes
    induction axes generalizing n with
    | nil => exact fun _ => rfl
    | cons range rest ih =>
        intro h
        rw [pinAxes, (h range List.mem_cons_self).pin_eq,
          ih _ fun r hr => h r (List.mem_cons_of_mem _ hr)]
  have hsettle : v.axes.map (AxisRange.settle owner) = v.axes :=
    (List.map_congr_left fun range hr => (hi range hr).settle_eq owner).trans (List.map_id _)
  simp [settle, hpin _ _ hi, hsettle]

/-! ## Reading -/

/-- The range of a logical axis is one of the physical ones. -/
theorem mem_axes_of_axisAt {axis : Nat} {range : AxisRange} (h : v.axisAt axis = .ok range) :
    range ∈ v.axes := by
  unfold axisAt at h
  split at h
  · next held hheld =>
    obtain rfl := Except.ok.inj h
    obtain ⟨physical, _, hphysical⟩ := Option.bind_eq_some_iff.mp hheld
    exact List.mem_of_getElem? hphysical
  · cases h

/-- The ranges that are read are ranges of the view. -/
theorem mem_axes_of_ranges {ranges : List AxisRange} (h : v.ranges = .ok ranges) :
    ∀ range ∈ ranges, range ∈ v.axes := by
  intro range hr
  obtain ⟨axis, _, haxis⟩ := exists_of_mem_mapM h hr
  exact mem_axes_of_axisAt haxis

/-- Every length is that of a physical axis. -/
theorem mem_lengths [Arithmetic] {lengths : List Size} (h : v.lengths = .ok lengths) {s : Size}
    (hs : s ∈ lengths) : ∃ range ∈ v.axes, range.length = s := by
  obtain ⟨ranges, hranges, h⟩ := bind_eq_ok.mp h
  obtain rfl := Except.ok.inj h
  obtain ⟨range, hr, rfl⟩ := List.mem_map.mp hs
  exact ⟨range, mem_axes_of_ranges hranges range hr, rfl⟩

/-- Every logical axis finds its range, and no other number does. -/
theorem axisAt_eq_ok (hv : v.WellFormed) {axis : Nat} {range : AxisRange} :
    v.axisAt axis = .ok range ↔ v.shown[axis]? = some range := by
  unfold axisAt shown
  rw [Axis.getElem?_picked hv.within]
  cases v.order[axis]?.bind (v.axes[·]?) <;> simp

/-- A range is shown on every axis. -/
theorem WellFormed.axisAt_ok (hv : v.WellFormed) {axis : Nat} (haxis : axis < v.rank) :
    ∃ range, v.axisAt axis = .ok range := by
  rw [← hv.length_shown] at haxis
  exact ⟨_, (axisAt_eq_ok hv).mpr (List.getElem?_eq_getElem haxis)⟩

/-- The ranges of a well-formed view can be read: they are those that it shows. -/
theorem ranges_eq (hv : v.WellFormed) : v.ranges = .ok v.shown := by
  refine mapM_eq_ok.mpr (List.forall₂_iff_get.mpr ⟨by simp [hv.length_shown], ?_⟩)
  intro i _ hi
  simp [axisAt_eq_ok hv, List.getElem?_eq_getElem hi]

/-- The lengths of a well-formed view can be read: they are those of the ranges that it shows.
-/
theorem lengths_eq [Arithmetic] (hv : v.WellFormed) :
    v.lengths = .ok (v.shown.map AxisRange.length) := by
  simp [lengths, ranges_eq hv]

/-- The lengths that are read are those of the ranges that the view shows. -/
theorem eq_of_lengths [Arithmetic] (hv : v.WellFormed) {sizes : List Size}
    (h : v.lengths = .ok sizes) : sizes = v.shown.map AxisRange.length :=
  Except.ok.inj (h.symm.trans (lengths_eq hv))

/-- A range replaced behind one logical axis is replaced there alone. -/
theorem picked_setAxis (hv : v.WellFormed) {axes : List AxisRange}
    (hlength : axes.length = v.axes.length) {axis : Nat} (haxis : axis < v.rank)
    (range : AxisRange) :
    Axis.picked (v.setAxis axes axis range) v.order =
      (Axis.picked axes v.order).set axis range := by
  have hp : v.order[axis]? = some v.order[axis] := List.getElem?_eq_getElem haxis
  rw [setAxis, hp]
  exact Axis.picked_set (hlength ▸ hv.within) hv.nodup hp range

/-- Replacing an axis brings in no other range than the one given. -/
theorem mem_setAxis {axes : List AxisRange} {axis : Nat} {range held : AxisRange}
    (h : held ∈ v.setAxis axes axis range) : held ∈ axes ∨ held = range := by
  unfold setAxis at h
  split at h
  · exact List.mem_or_eq_of_mem_set h
  · exact .inl h

@[simp] theorem length_setAxis (v : View) (axes : List AxisRange) (axis : Nat)
    (range : AxisRange) : (v.setAxis axes axis range).length = axes.length := by
  unfold setAxis
  split <;> simp

/-! ## Operations -/

/-- Storage is well formed. -/
theorem contiguous_wellFormed (sizes : List Size) : (contiguous sizes).WellFormed := by
  simp [WellFormed, contiguous]

/-- Storage of quantities is well formed. -/
theorem ofQuantities_wellFormed {sizes : List Quantity} (h : ofQuantities sizes = .ok v) :
    v.WellFormed := by
  simp only [ofQuantities, bind_eq_ok, pure_eq_ok] at h
  obtain ⟨checked, _, rfl⟩ := h
  exact contiguous_wellFormed checked

/-- Storage of sizes of integers shows the whole of each axis. -/
theorem shown_contiguous {sizes : List Size} (h : ∀ s ∈ sizes, s.Integral) :
    (contiguous sizes).shown = sizes.map fun size => .whole size false := by
  rw [contiguous, Size.pinned_of_integral h, shown]
  simpa using Axis.picked_range (sizes.map fun size => AxisRange.whole size false)

/-- Storage of sizes of integers is a view of integers. -/
theorem contiguous_integral {sizes : List Size} (h : ∀ s ∈ sizes, s.Integral) :
    (contiguous sizes).Integral := by
  rw [integral_iff (contiguous_wellFormed sizes), shown_contiguous h, List.forall_mem_map]
  exact fun s hs => .whole (h s hs) false

@[simp] theorem rank_contiguous (sizes : List Size) : (contiguous sizes).rank = sizes.length := by
  simp [rank, contiguous]

/-- What is narrowed already and what is still as in the view shift by one with
every span. -/
theorem sliceFrom_ok [Arithmetic] (hv : v.WellFormed) {spans : List Span}
    {axes narrowed done : List AxisRange} (hlength : axes.length = v.axes.length)
    (hacc : Axis.picked axes v.order = done ++ v.shown.drop done.length)
    (h : v.sliceFrom done.length spans axes = .ok narrowed) :
    narrowed.length = v.axes.length ∧
      Axis.picked narrowed v.order = done ++
        (List.zipWith narrow (v.shown.drop done.length) spans ++
          v.shown.drop (done.length + spans.length)) := by
  induction spans generalizing axes done with
  | nil =>
      obtain rfl := Except.ok.inj h
      exact ⟨hlength, by simpa using hacc⟩
  | cons span rest ih =>
      simp only [sliceFrom, bind_eq_ok] at h
      obtain ⟨_, _, _, _, range, hrange, _, _, h⟩ := h
      obtain ⟨hlt, hget⟩ := List.getElem?_eq_some_iff.mp ((axisAt_eq_ok hv).mp hrange)
      have hdrop : v.shown.drop done.length = range :: v.shown.drop (done.length + 1) := by
        rw [List.drop_eq_getElem_cons hlt, hget]
      have hset : Axis.picked (v.setAxis axes done.length (narrow range span)) v.order =
          (done ++ [narrow range span]) ++ v.shown.drop (done ++ [narrow range span]).length := by
        rw [picked_setAxis hv hlength (hv.length_shown ▸ hlt), hacc, hdrop]
        simp
      have hstep := ih (by simpa using hlength) hset (by simpa using h)
      refine ⟨hstep.1, hstep.2.trans ?_⟩
      simp [hdrop, Nat.add_assoc, Nat.add_comm 1]

/-- A slice narrows the ranges that have a span, and keeps the others. -/
theorem slice_ok [Arithmetic] (hv : v.WellFormed) {spans : List Span}
    (h : v.slice spans = .ok w) :
    w.WellFormed ∧ w.rank = v.rank ∧
      w.shown = List.zipWith narrow v.shown spans ++ v.shown.drop spans.length := by
  simp only [slice, ite_error_eq_ok, bind_eq_ok, pure_eq_ok] at h
  obtain ⟨_, axes, haxes, rfl⟩ := h
  have hacc : Axis.picked v.axes v.order = [] ++ v.shown.drop ([] : List AxisRange).length := rfl
  have hsteps := sliceFrom_ok hv rfl hacc haxes
  refine ⟨?_, rfl, by simpa [shown] using hsteps.2⟩
  show v.order.Perm (List.range axes.length)
  rw [hsteps.1]
  exact hv

/-- A permutation of a well-formed view is well formed. -/
theorem permute_wellFormed (hv : v.WellFormed) {axes : List Number}
    (h : v.permute axes = .ok w) : w.WellFormed := by
  simp only [permute, bind_eq_ok, pure_eq_ok] at h
  obtain ⟨positions, hpositions, order, horder, rfl⟩ := h
  obtain ⟨_, rfl⟩ := Axis.pick_eq_ok.mp horder
  exact (Axis.picked_perm (Axis.permutation_perm hpositions)).trans hv

/-- Reordering picks what is shown in the order of the positions. -/
theorem permute_ok (hv : v.WellFormed) {positions : List Nat}
    (hwithin : Axis.Within positions v.rank) (h : v.permute (positions.map .ofNat) = .ok w) :
    w.WellFormed ∧ w.rank = positions.length ∧ w.shown = Axis.picked v.shown positions := by
  simp only [permute, bind_eq_ok, pure_eq_ok] at h
  obtain ⟨others, hothers, order, horder, rfl⟩ := h
  obtain rfl := Axis.permutation_ofNat hothers
  obtain ⟨_, rfl⟩ := Axis.pick_eq_ok.mp horder
  refine ⟨(Axis.picked_perm (Axis.permutation_perm hothers)).trans hv, ?_, ?_⟩
  · exact Axis.length_picked hwithin
  · exact (Axis.picked_picked hv.within hwithin).symm

/-- An expansion of a well-formed view is well formed. -/
theorem expand_wellFormed (hv : v.WellFormed) {axis : Number} {size : Quantity}
    (h : v.expand axis size = .ok w) : w.WellFormed := by
  simp only [expand, bind_eq_ok, pure_eq_ok] at h
  obtain ⟨position, _, extent, _, rfl⟩ := h
  show (Axis.insertAt v.order position v.axes.length).Perm (List.range (v.axes ++ [_]).length)
  rw [List.length_append, List.length_singleton, List.range_succ]
  exact (Axis.insertAt_perm _ _ _).trans ((hv.cons _).trans (List.perm_append_singleton _ _).symm)

/-- Expanding puts in a whole broadcast axis of the given size. -/
theorem expand_ok (hv : v.WellFormed) {position : Nat} (hposition : position ≤ v.rank)
    {size : Size} (hsize : size.Integral)
    (h : v.expand (.ofNat position) (.size size) = .ok w) :
    w.WellFormed ∧ w.rank = v.rank + 1 ∧
      w.shown = Axis.insertAt v.shown position (.whole size true) := by
  simp only [expand, Axis.position_ofNat (Nat.lt_succ_of_le hposition), Quantity.toSize,
    bind_eq_ok, pure_eq_ok, Except.ok.injEq, exists_eq_left'] at h
  obtain rfl := h
  rw [hsize.pin_eq]
  refine ⟨?_, Axis.length_insertAt _ _ _, Axis.picked_insertAt hv.within _ _⟩
  show (Axis.insertAt v.order position v.axes.length).Perm
    (List.range (v.axes ++ [AxisRange.whole size true]).length)
  rw [List.length_append, List.length_singleton, List.range_succ]
  exact (Axis.insertAt_perm _ _ _).trans ((hv.cons _).trans (List.perm_append_singleton _ _).symm)

/-- A view of integers stays one when it is expanded by a size of integers. -/
theorem expand_integral (hv : v.WellFormed) (hi : v.Integral) {position : Nat}
    (hposition : position ≤ v.rank) {size : Size} (hsize : size.Integral)
    (h : v.expand (.ofNat position) (.size size) = .ok w) : w.Integral := by
  obtain ⟨hw, _, hshown⟩ := expand_ok hv hposition hsize h
  rw [integral_iff hw, hshown]
  intro range hr
  rcases List.mem_cons.mp ((Axis.insertAt_perm _ _ _).mem_iff.mp hr) with rfl | hr
  · exact .whole hsize true
  · exact hi.of_mem_shown hr

theorem permute_integral (hv : v.WellFormed) (hi : v.Integral) {positions : List Nat}
    (hwithin : Axis.Within positions v.rank) (h : v.permute (positions.map .ofNat) = .ok w) :
    w.Integral := by
  obtain ⟨hw, _, hshown⟩ := permute_ok hv hwithin h
  rw [integral_iff hw, hshown]
  exact fun range hr => hi.of_mem_shown (Axis.mem_of_mem_picked hr)

/-- Repeating an axis puts a whole broadcast axis in its place. -/
theorem broadcastAxis_made [Arithmetic] {axis : Number} {size : Quantity}
    (h : v.broadcastAxis axis size = .ok w) : ∃ position extent,
      Axis.position "expand" axis v.rank = .ok position ∧ size.toSize = .ok extent ∧
      w = { v with axes := v.setAxis v.axes position (.whole (extent.pin v.pinBound) true) } := by
  simp only [broadcastAxis, bind_eq_ok] at h
  obtain ⟨position, hposition, current, _, h⟩ := h
  -- whether the length is known to be one or not known at all, the same is put in
  have hset : (do
      let extent ← size.toSize
      pure { v with axes := v.setAxis v.axes position (.whole (extent.pin v.pinBound) true) } :
        Except Fault View) = .ok w := by
    split at h
    · split at h
      · cases h
      · exact h
    · exact h
  obtain ⟨extent, hextent, hw⟩ := bind_eq_ok.mp hset
  exact ⟨position, extent, hposition, hextent, (Except.ok.inj hw).symm⟩

/-- A well-formed view stays so when an axis is repeated. -/
theorem broadcastAxis_wellFormed [Arithmetic] (hv : v.WellFormed) {axis : Number}
    {size : Quantity} (h : v.broadcastAxis axis size = .ok w) : w.WellFormed := by
  obtain ⟨position, extent, _, _, rfl⟩ := broadcastAxis_made h
  show v.order.Perm (List.range (v.setAxis v.axes position _).length)
  rw [length_setAxis]
  exact hv

/-- A well-formed view stays so when symbols are bound. -/
theorem substitute_wellFormed [Arithmetic] (hv : v.WellFormed) {bindings : Bindings}
    (h : v.substitute bindings = .ok w) : w.WellFormed := by
  simp only [substitute, bind_eq_ok, pure_eq_ok] at h
  obtain ⟨axes, haxes, rfl⟩ := h
  have hlength : v.axes.length = axes.length := (mapM_eq_ok.mp haxes).length_eq
  show v.order.Perm (List.range axes.length)
  rw [← hlength]
  exact hv

/-- Broadcasting along an axis of length one makes it a whole broadcast axis of
the given size; only a length that is known can be refused. -/
theorem broadcastAxis_ok [Arithmetic] (hv : v.WellFormed) {axis : Nat} (haxis : axis < v.rank)
    {size : Size} (hsize : size.Integral)
    (h : v.broadcastAxis (.ofNat axis) (.size size) = .ok w) :
    w.WellFormed ∧ w.rank = v.rank ∧ w.shown = v.shown.set axis (.whole size true) := by
  obtain ⟨position, extent, hposition, hextent, rfl⟩ := broadcastAxis_made h
  obtain rfl := Except.ok.inj ((Axis.position_ofNat haxis).symm.trans hposition)
  obtain rfl := Except.ok.inj hextent
  rw [hsize.pin_eq]
  refine ⟨?_, rfl, picked_setAxis hv rfl haxis _⟩
  show v.order.Perm (List.range (v.setAxis v.axes axis _).length)
  rw [length_setAxis]
  exact hv

/-- A view of integers stays one when an axis is repeated by a size of integers. -/
theorem broadcastAxis_integral [Arithmetic] (hv : v.WellFormed) (hi : v.Integral) {axis : Nat}
    (haxis : axis < v.rank) {size : Size} (hsize : size.Integral)
    (h : v.broadcastAxis (.ofNat axis) (.size size) = .ok w) : w.Integral := by
  obtain ⟨hw, _, hshown⟩ := broadcastAxis_ok hv haxis hsize h
  rw [integral_iff hw, hshown]
  intro range hr
  rcases List.mem_or_eq_of_mem_set hr with hr | rfl
  · exact hi.of_mem_shown hr
  · exact .whole hsize true

end View

end ShapeGraph
