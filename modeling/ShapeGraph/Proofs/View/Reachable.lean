import ShapeGraph.Proofs.Graph.Session
import ShapeGraph.Proofs.Size.Confluence
import ShapeGraph.Proofs.View.Extent

/-!
# Views that can be reached

A view starts as whole storage and is sliced, reordered, expanded, repeated and
bound to values, in any order and any number of times.  The numbers and sizes of
these calls are those of callers: an axis may count from the end, and a size may be
a bare number that is still to be checked.

* `Reachable` — the views that such calls end in, as long as nothing is rounded;
* `Reachable.wellFormed`, `Reachable.integral` — all of them are well formed and
  made of integers.
-/

namespace ShapeGraph.View

open ShapeGraph.Numeric (Arithmetic Exact Number Unbounded)

/-- The views that calls with sizes of integers end in. -/
inductive Reachable : View → Prop
  /-- Whole storage. -/
  | whole {sizes : List Quantity} {v : View} (integral : ∀ size ∈ sizes, size.Integral)
      (made : ofQuantities sizes = .ok v) : Reachable v
  | slice {v w : View} {spans : List Span} (before : Reachable v)
      (integral : ∀ span ∈ spans, span.start.Integral ∧ span.stop.Integral)
      (exactly : Exact fun _ => v.slice spans) (made : v.slice spans = .ok w) : Reachable w
  | permute {v w : View} {axes : List Number} (before : Reachable v)
      (made : v.permute axes = .ok w) : Reachable w
  | expand {v w : View} {axis : Number} {size : Quantity} (before : Reachable v)
      (integral : size.Integral) (made : v.expand axis size = .ok w) : Reachable w
  | broadcastAxis {v w : View} {axis : Number} {size : Quantity} (before : Reachable v)
      (integral : size.Integral) (exactly : Exact fun _ => v.broadcastAxis axis size)
      (made : v.broadcastAxis axis size = .ok w) : Reachable w
  | substitute {v w : View} {bindings : Bindings} (before : Reachable v)
      (integral : bindings.Integral) (exactly : Exact fun _ => v.substitute bindings)
      (made : v.substitute bindings = .ok w) : Reachable w

variable {v w : View}

/-! ## Calls as callers make them -/

/-- Storage of quantities of integers is well formed and of integers. -/
theorem ofQuantities_sound {sizes : List Quantity} (hsizes : ∀ size ∈ sizes, size.Integral)
    (h : ofQuantities sizes = .ok v) : v.WellFormed ∧ v.Integral := by
  refine ⟨ofQuantities_wellFormed h, ?_⟩
  simp only [ofQuantities, bind_eq_ok, pure_eq_ok] at h
  obtain ⟨checked, hchecked, rfl⟩ := h
  have hintegral : ∀ s ∈ checked, s.Integral := by
    intro s hs
    obtain ⟨size, hsize, hs⟩ := exists_of_mem_mapM hchecked hs
    exact (hsizes size hsize).toSize hs
  exact contiguous_integral hintegral

/-- A permutation of such a view is such a view. -/
theorem permute_sound (hv : v.WellFormed) (hi : v.Integral) {axes : List Number}
    (h : v.permute axes = .ok w) : w.WellFormed ∧ w.Integral := by
  refine ⟨permute_wellFormed hv h, ?_⟩
  simp only [permute, bind_eq_ok, pure_eq_ok] at h
  obtain ⟨_, _, _, _, rfl⟩ := h
  exact hi

theorem expand_sound (hv : v.WellFormed) (hi : v.Integral) {axis : Number} {size : Quantity}
    (hsize : size.Integral) (h : v.expand axis size = .ok w) : w.WellFormed ∧ w.Integral := by
  have hcall := h
  simp only [expand, bind_eq_ok, pure_eq_ok] at h
  obtain ⟨position, hposition, s, hs, _⟩ := h
  have hle : position ≤ v.rank := Nat.le_of_lt_succ (Axis.position_lt hposition)
  have hsame : v.expand (.ofNat position) (.size s) = .ok w := by
    rw [← hcall, expand, expand, hposition, Axis.position_ofNat (Axis.position_lt hposition), hs]
    rfl
  have hsi := hsize.toSize hs
  exact ⟨(expand_ok hv hle hsi hsame).1, expand_integral hv hi hle hsi hsame⟩

section

variable [Arithmetic]

/-- An axis that callers give stands for a position, and a quantity for a size. -/
theorem broadcastAxis_eq {axis : Number} {position : Nat} {size : Quantity} {extent : Size}
    (haxis : Axis.position "expand" axis v.rank = .ok position) (hsize : size.toSize = .ok extent) :
    v.broadcastAxis axis size = v.broadcastAxis (.ofNat position) (.size extent) := by
  rw [broadcastAxis, broadcastAxis, haxis, Axis.position_ofNat (Axis.position_lt haxis), hsize]
  rfl

/-- An axis is repeated at a position of the rank, by a size. -/
theorem broadcastAxis_at {axis : Number} {size : Quantity}
    (h : v.broadcastAxis axis size = .ok w) : ∃ position extent, position < v.rank ∧
      size.toSize = .ok extent ∧ v.broadcastAxis (.ofNat position) (.size extent) = .ok w := by
  obtain ⟨position, extent, hposition, hextent, _⟩ := broadcastAxis_made h
  exact ⟨position, extent, Axis.position_lt hposition, hextent,
    (broadcastAxis_eq hposition hextent).symm.trans h⟩

/-- Such a view stays so when an axis is repeated. -/
theorem broadcastAxis_sound (hv : v.WellFormed) (hi : v.Integral) {axis : Number}
    {size : Quantity} (hsize : size.Integral) (h : v.broadcastAxis axis size = .ok w) :
    w.WellFormed ∧ w.Integral := by
  obtain ⟨position, extent, hlt, hextent, hsame⟩ := broadcastAxis_at h
  have hei := hsize.toSize hextent
  exact ⟨(broadcastAxis_ok hv hlt hei hsame).1, broadcastAxis_integral hv hi hlt hei hsame⟩

variable [Unbounded]

/-- Such a view stays so when symbols are bound to integers. -/
theorem substitute_sound (hv : v.WellFormed) (hi : v.Integral) {bindings : Bindings}
    (hb : bindings.Integral) (h : v.substitute bindings = .ok w) :
    w.WellFormed ∧ w.Integral := by
  refine ⟨substitute_wellFormed hv h, ?_⟩
  simp only [substitute, bind_eq_ok, pure_eq_ok] at h
  obtain ⟨axes, haxes, rfl⟩ := h
  intro range hr
  obtain ⟨old, hold, hrange⟩ := exists_of_mem_mapM haxes hr
  simp only [AxisRange.substitute, bind_eq_ok, pure_eq_ok] at hrange
  obtain ⟨start, hstart, stop, hstop, size, hsize, rfl⟩ := hrange
  have hold := hi old hold
  exact ⟨Size.substitute_integral hold.start hb hstart,
    Size.substitute_integral hold.stop hb hstop, Size.substitute_integral hold.size hb hsize⟩

end

/-! ## Any number of calls -/

/-- **Whatever view has been reached** shows each physical axis once, and all its
literals are integers. -/
theorem Reachable.sound (h : v.Reachable) : v.WellFormed ∧ v.Integral := by
  induction h with
  | whole integral made => exact ofQuantities_sound integral made
  | slice _ integral exactly made ih =>
      have hmade := exactly.symm.trans made
      exact ⟨(@slice_ok _ _ .unbounded ih.1 _ hmade).1,
        @slice_integral _ _ .unbounded _ ih.1 ih.2 _ integral hmade⟩
  | permute _ made ih => exact permute_sound ih.1 ih.2 made
  | expand _ integral made ih => exact expand_sound ih.1 ih.2 integral made
  | broadcastAxis _ integral _ made ih => exact broadcastAxis_sound ih.1 ih.2 integral made
  | substitute _ integral exactly made ih =>
      exact @substitute_sound _ _ .unbounded _ ih.1 ih.2 _ integral (exactly.symm.trans made)

/-- The views that calls end in are well formed. -/
theorem Reachable.wellFormed (h : v.Reachable) : v.WellFormed := h.sound.1

theorem Reachable.integral (h : v.Reachable) : v.Integral := h.sound.2

end ShapeGraph.View
