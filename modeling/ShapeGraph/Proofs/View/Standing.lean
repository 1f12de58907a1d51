import ShapeGraph.Proofs.View.Commutation
import ShapeGraph.Proofs.View.Whole

/-!
# Views that stand

A view that has been made is used any number of times, and its undefined values have to be
the same ones each time.  So it is settled once it stands: all its undefined values have an
owner, and settling it again changes nothing.  The calls that it comes from may be given any
sizes and numbers, undefined ones included, and their arithmetic may be rounded.

* `Owned` — nothing in the view is left to be told apart, so it is the same as itself;
* `settle_owned` — what is settled is owned;
* `Standing` — the views that calls of any kind end in, settled after each call;
* `Standing.sound` — all of them are well formed and owned.
-/

namespace ShapeGraph

open ShapeGraph.Numeric (Arithmetic Number)

/-! ## Undefined values with an owner -/

namespace Numeric.Number

/-- The number is defined, or belongs to an owner. -/
def Owned : Number → Prop
  | .undefined (.owned _ _) => True
  | .undefined _ => False
  | _ => True

/-- A number that is pinned and then settled is owned. -/
theorem settle_pin_owned (a : Number) (n owner : Nat) : ((a.pin n).settle owner).Owned := by
  rcases a with m | x | (_ | m | ⟨other, m⟩) <;> trivial

variable {a : Number}

/-- An owned number is not made anew. -/
theorem Owned.isFresh_eq (h : a.Owned) : a.isFresh = false := by
  rcases a with m | x | (_ | m | ⟨other, m⟩)
  case undefined.fresh => exact h.elim
  all_goals rfl

/-- Settling leaves an owned number alone. -/
theorem Owned.settle_eq (h : a.Owned) (owner : Nat) : a.settle owner = a := by
  rcases a with m | x | (_ | m | ⟨other, m⟩)
  case undefined.numbered => exact h.elim
  all_goals rfl

end Numeric.Number

namespace Size

/-- All numbers in the term are owned. -/
def Owned : Size → Prop
  | literal v => v.Owned
  | symbol _ => True
  | binary _ l r => l.Owned ∧ r.Owned

theorem settle_pin_owned (s : Size) (n owner : Nat) : ((s.pin n).settle owner).Owned := by
  induction s generalizing n with
  | literal v => exact v.settle_pin_owned n owner
  | symbol name => trivial
  | binary op l r ihl ihr => exact ⟨ihl _, ihr _⟩

variable {s : Size}

/-- No number in an owned size is made anew. -/
theorem Owned.freshCount_eq (h : s.Owned) : s.freshCount = 0 := by
  induction s with
  | literal v => simp [freshCount, Number.Owned.isFresh_eq h]
  | symbol name => rfl
  | binary op l r ihl ihr => simp [freshCount, ihl h.1, ihr h.2]

theorem Owned.settle_eq (h : s.Owned) (owner : Nat) : s.settle owner = s := by
  induction s with
  | literal v => exact congrArg literal (Number.Owned.settle_eq h owner)
  | symbol name => rfl
  | binary op l r ihl ihr => simp [settle, ihl h.1, ihr h.2]

end Size

namespace AxisRange

/-- All numbers in the range are owned. -/
structure Owned (range : AxisRange) : Prop where
  start : range.start.Owned
  stop : range.stop.Owned
  size : range.size.Owned

theorem settle_pin_owned (range : AxisRange) (n owner : Nat) :
    ((range.pin n).settle owner).Owned :=
  ⟨Size.settle_pin_owned _ _ _, Size.settle_pin_owned _ _ _, Size.settle_pin_owned _ _ _⟩

variable {range : AxisRange}

theorem Owned.freshCount_eq (h : range.Owned) : range.freshCount = 0 := by
  simp [freshCount, h.start.freshCount_eq, h.stop.freshCount_eq, h.size.freshCount_eq]

theorem Owned.settle_eq (h : range.Owned) (owner : Nat) : range.settle owner = range := by
  simp [settle, h.start.settle_eq, h.stop.settle_eq, h.size.settle_eq]

/-- A range without fresh undefined values is the same as itself. -/
theorem same_self (h : range.freshCount = 0) : range.same range = true := by
  simp only [freshCount, Nat.add_eq_zero_iff] at h
  simp [same, Size.same_self h.1.1, Size.same_self h.1.2, Size.same_self h.2]

end AxisRange

namespace View

/-- All numbers in the view are owned. -/
def Owned (v : View) : Prop :=
  ∀ range ∈ v.axes, range.Owned

variable {v w : View}

/-- Ranges that are pinned and then settled are owned. -/
theorem settle_pinAxes_owned (owner : Nat) (axes : List AxisRange) (n : Nat) :
    ∀ range ∈ (pinAxes n axes).map (AxisRange.settle owner), range.Owned := by
  induction axes generalizing n with
  | nil => exact List.forall_mem_nil _
  | cons range rest ih => exact List.forall_mem_cons.mpr ⟨range.settle_pin_owned n owner, ih _⟩

/-- **What is settled is owned.** -/
theorem settle_owned (v : View) (owner : Nat) : (v.settle owner).Owned :=
  settle_pinAxes_owned owner v.axes v.pinBound

theorem Owned.settle_eq (h : v.Owned) (owner : Nat) : v.settle owner = v := by
  have hpinned : pinAxes v.pinBound v.axes = v.axes :=
    pinAxes_eq_self (fun range hr => (h range hr).freshCount_eq) _
  have hsettled : v.axes.map (AxisRange.settle owner) = v.axes :=
    (List.map_congr_left fun range hr => (h range hr).settle_eq owner).trans (List.map_id _)
  rw [settle, hpinned, hsettled]

/-- A view without fresh undefined values is the same as itself. -/
theorem same_self (h : ∀ range ∈ v.axes, range.freshCount = 0) : v.same v = true :=
  same_of_axes rfl (List.forall₂_same.mpr fun range hr => AxisRange.same_self (h range hr))

/-- An owned view is the same as itself. -/
theorem Owned.same_self (h : v.Owned) : v.same v = true :=
  View.same_self fun range hr => (h range hr).freshCount_eq

/-! ## Calls of any kind -/

section

variable [Arithmetic]

/-- An operation that is accepted leaves a well-formed view. -/
theorem Operation.apply_wellFormed (hv : v.WellFormed) {op : Operation} (h : op.apply v = .ok w) :
    w.WellFormed := by
  cases op with
  | slice spans => exact (slice_ok hv h).1
  | permute axes => exact permute_wellFormed hv h
  | expand axis size => exact expand_wellFormed hv h
  | broadcastAxis axis size => exact broadcastAxis_wellFormed hv h

/-- The views that calls end in, whatever the calls are given.  Each view is settled before
it is used. -/
inductive Standing : View → Prop
  /-- Whole storage. -/
  | whole {sizes : List Quantity} {v : View} (made : ofQuantities sizes = .ok v) (owner : Nat) :
      Standing (v.settle owner)
  | apply {v w : View} {op : Operation} (before : Standing v) (made : op.apply v = .ok w)
      (owner : Nat) : Standing (w.settle owner)
  | substitute {v w : View} {bindings : Bindings} (before : Standing v)
      (made : v.substitute bindings = .ok w) (owner : Nat) : Standing (w.settle owner)

/-- **A view that stands** shows each physical axis once, and its numbers are owned. -/
theorem Standing.sound (h : v.Standing) : v.WellFormed ∧ v.Owned := by
  induction h with
  | whole made owner =>
      exact ⟨settle_wellFormed (ofQuantities_wellFormed made) owner, settle_owned _ owner⟩
  | apply _ made owner ih =>
      exact ⟨settle_wellFormed (Operation.apply_wellFormed ih.1 made) owner, settle_owned _ owner⟩
  | substitute _ made owner ih =>
      exact ⟨settle_wellFormed (substitute_wellFormed ih.1 made) owner, settle_owned _ owner⟩

/-- The views that calls end in are well formed, whatever the calls are given. -/
theorem Standing.wellFormed (h : v.Standing) : v.WellFormed := h.sound.1

/-- The views that calls end in are owned. -/
theorem Standing.owned (h : v.Standing) : v.Owned := h.sound.2

end

end View

end ShapeGraph
