import ShapeGraph.Proofs.Permutation
import ShapeGraph.Proofs.View.Standing

/-!
# Reordering as an action

Permuting a view changes nothing but the order in which its axes are shown, and what it is
shown in is the old order, picked at the positions that the permutation lists.  So views are
acted upon by permutations: one after the other is one by the composed permutation, the
inverse takes a permutation back, and the inverse of the order itself leads to the order of
storage.  That holds of any order that earlier permutations and expansions have left.

* `reordered` — the view with its axes shown in another order;
* `permute_eq_ok` — permuting succeeds just if the axes are a permutation, and reorders;
* `reordered_reordered`, `reordered_invert` — the laws of an action;
* `ActedOn`, `actedOn` — what they say of calls.
-/

namespace ShapeGraph.View

open ShapeGraph.Axis (invert invert_perm permutation permutation_of_perm permutation_perm
  picked picked_perm_range)
open ShapeGraph.Numeric (Number)

/-- The view with its logical axes shown in another order. -/
def reordered (v : View) (positions : List Nat) : View :=
  { v with order := picked v.order positions }

variable {v w : View} {first second : List Nat}

/-- **Permuting** succeeds just if the axes are a permutation, and shows them in its
order. -/
theorem permute_eq_ok {axes : List Number} : v.permute axes = .ok w ↔
    ∃ positions, permutation (.ofNat v.rank) axes = .ok positions ∧ w = v.reordered positions := by
  simp only [permute, bind_eq_ok, pure_eq_ok]
  constructor
  · rintro ⟨positions, hpositions, order, horder, rfl⟩
    obtain ⟨_, rfl⟩ := Axis.pick_eq_ok.mp horder
    exact ⟨positions, hpositions, rfl⟩
  · rintro ⟨positions, hpositions, rfl⟩
    have hwithin : Axis.Within positions v.order.length := .of_perm (permutation_perm hpositions)
    exact ⟨positions, hpositions, _, Axis.pick_eq_ok.mpr ⟨hwithin, rfl⟩, rfl⟩

/-- Permuting by plain positions. -/
theorem permute_of_perm (h : first.Perm (List.range v.rank)) :
    v.permute (first.map .ofNat) = .ok (v.reordered first) :=
  permute_eq_ok.mpr ⟨first, permutation_of_perm h, rfl⟩

/-! ## The laws of an action -/

/-- A view has as many axes in another order. -/
theorem rank_reordered (h : first.Perm (List.range v.rank)) :
    (v.reordered first).rank = v.rank := by
  show (picked v.order first).length = v.order.length
  exact Axis.length_picked_perm h

/-- Reordering twice is reordering once by the composed permutation. -/
theorem reordered_reordered (h : first.Perm (List.range v.rank))
    (h' : second.Perm (List.range v.rank)) :
    (v.reordered first).reordered second = v.reordered (picked first second) := by
  have hsecond : Axis.Within second first.length := Axis.perm_within h' (Axis.perm_length h)
  have horder : picked (picked v.order first) second = picked v.order (picked first second) :=
    Axis.picked_picked (.of_perm h) hsecond
  rw [reordered, reordered, reordered, horder]

/-- Reordering by a permutation and its inverse changes nothing. -/
theorem reordered_invert (h : first.Perm (List.range v.rank)) :
    (v.reordered first).reordered (invert first) = v := by
  have horder : picked (picked v.order first) (invert first) = v.order :=
    Axis.picked_picked_invert h
  rw [reordered, reordered, horder]

/-- A view is owned in any order of its axes. -/
theorem reordered_owned (h : v.Owned) (positions : List Nat) : (v.reordered positions).Owned := h

/-! ## Calls -/

/-- What permutations do to a view: whichever are accepted, they compose and are undone as
permutations are, and one of them leads to the order of storage.  `picked first second` lists
at each place what `first` lists at the position that `second` lists there. -/
structure ActedOn (v : View) : Prop where
  composed : ∀ {p q : List Number} {u u' : View}, v.permute p = .ok u → v.permute q = .ok u' →
    ∃ first second w x, permutation (.ofNat v.rank) p = .ok first ∧
      permutation (.ofNat v.rank) q = .ok second ∧ u.permute q = .ok w ∧
      v.permute ((picked first second).map .ofNat) = .ok x ∧ w.same x = true
  undone : ∀ {p : List Number} {u : View}, v.permute p = .ok u →
    ∃ first w, permutation (.ofNat v.rank) p = .ok first ∧
      u.permute ((invert first).map .ofNat) = .ok w ∧ w.same v = true
  sorted : ∃ w, v.permute (v.inverseOrder.map .ofNat) = .ok w ∧ w.order = List.range w.rank

/-- **Permutations act on a view**, in whatever order it shows its axes. -/
theorem actedOn (hv : v.WellFormed) (howned : v.Owned) : v.ActedOn where
  composed := by
    intro p q u u' hp hq
    obtain ⟨first, hfirst, rfl⟩ := permute_eq_ok.mp hp
    obtain ⟨second, hsecond, _⟩ := permute_eq_ok.mp hq
    have hperm := permutation_perm hfirst
    have hperm' := permutation_perm hsecond
    refine ⟨first, second, (v.reordered first).reordered second, _, hfirst, hsecond,
      permute_eq_ok.mpr ⟨second, ?_, rfl⟩, permute_of_perm (picked_perm_range hperm hperm'), ?_⟩
    · rwa [rank_reordered hperm]
    · rw [reordered_reordered hperm hperm']
      exact (reordered_owned howned _).same_self
  undone := by
    intro p u hp
    obtain ⟨first, hfirst, rfl⟩ := permute_eq_ok.mp hp
    have hperm := permutation_perm hfirst
    have hinverse : (invert first).Perm (List.range (v.reordered first).rank) := by
      rw [rank_reordered hperm]
      exact invert_perm hperm
    refine ⟨first, _, hfirst, permute_of_perm hinverse, ?_⟩
    rw [reordered_invert hperm]
    exact howned.same_self
  sorted := by
    have horder : v.order.Perm (List.range v.rank) := hv.length_axes ▸ hv
    have hinverse : (invert v.order).Perm (List.range v.rank) := invert_perm horder
    refine ⟨v.reordered (invert v.order), permute_of_perm hinverse, ?_⟩
    rw [rank_reordered hinverse]
    exact Axis.picked_invert horder

end ShapeGraph.View
