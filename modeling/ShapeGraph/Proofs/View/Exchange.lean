import ShapeGraph.Proofs.View.Acceptance
import ShapeGraph.Proofs.View.Permutation
import ShapeGraph.Proofs.View.Widening

/-!
# Slicing and reordering exchanged

A slice with a span for every axis narrows each range that is shown by its own span, and
reordering picks from what is shown.  So it is the same whether the ranges are narrowed and
then picked, or the ranges and the spans are picked first and narrowed then: each range meets
the same span, is taken or refused by it, and comes to the same bounds at the same place of
storage.

Only the undefined values stand in the way of saying that the two views are equal.  A bound
that comes out undefined is computed anew in each of them, and one undefined value does not
equal another one.

* `slice_reordered_succeeds_iff`, `slice_reordered` — acceptance, and the view it comes to;
* `same_self_iff` — a view is the same as itself just if nothing in it is to be told apart;
* `slice_permute_exchanged` — the two orders of the calls, at any view that stands.
-/

namespace ShapeGraph

open ShapeGraph.Numeric (Arithmetic Number)

/-! ## What is the same as itself -/

/-- A number is identical to itself unless it is an undefined one that is made anew. -/
theorem Numeric.Number.identical_self_iff {a : Number} :
    a.identical a = true ↔ a.isFresh = false := by
  constructor
  · intro h
    rcases a with n | x | (_ | n | ⟨owner, n⟩)
    case undefined.fresh => simp [Number.identical, Number.same, Number.isFresh] at h
    all_goals rfl
  · exact Number.identical_self

theorem Size.same_self_iff {s : Size} : s.same s = true ↔ s.freshCount = 0 := by
  induction s with
  | literal v => simp [same, freshCount, Number.identical_self_iff]
  | symbol name => simp [same, freshCount]
  | binary op l r ihl ihr => simp [same, freshCount, ihl, ihr]

/-- A range is the same as itself unless such a number is in it. -/
theorem AxisRange.same_self_iff {range : AxisRange} :
    range.same range = true ↔ range.freshCount = 0 := by
  simp [same, freshCount, Size.same_self_iff]

namespace Axis

/-- Two lists that are picked from alike are combined alike. -/
theorem picked_zipWith {α β γ : Type} (f : α → β → γ) {items : List α} {others : List β}
    {positions : List Nat} (h : Within positions items.length)
    (h' : Within positions others.length) :
    picked (List.zipWith f items others) positions =
      List.zipWith f (picked items positions) (picked others positions) := by
  have hboth : Within positions (List.zipWith f items others).length := by
    intro p hp
    rw [List.length_zipWith]
    exact Nat.lt_min.mpr ⟨h p hp, h' p hp⟩
  refine List.ext_getElem? fun k => ?_
  rw [getElem?_picked hboth, List.getElem?_zipWith, getElem?_picked h, getElem?_picked h']
  cases positions[k]? with
  | none => rfl
  | some p => rw [Option.bind_some, Option.bind_some, Option.bind_some, List.getElem?_zipWith]

end Axis

namespace View

open ShapeGraph.Axis (permutation permutation_perm picked)

variable {v w : View} {first : List Nat}

/-- A view is the same as itself just if nothing in it is to be told apart. -/
theorem same_self_iff : v.same v = true ↔ ∀ range ∈ v.axes, range.freshCount = 0 := by
  constructor
  · intro h range hrange
    simp only [same, Bool.and_eq_true, List.all_eq_true] at h
    have hpair : (range, range) ∈ v.axes.zip v.axes := by
      obtain ⟨p, hp, rfl⟩ := List.mem_iff_getElem.mp hrange
      exact List.mem_iff_getElem.mpr ⟨p, by simpa using hp, by simp⟩
    exact AxisRange.same_self_iff.mp (h.2 _ hpair)
  · exact View.same_self

/-- With one undefined value for all of them, every view is the same as itself. -/
theorem unmark_same_self (v : View) : v.unmark.same v.unmark = true := by
  apply View.same_self
  show ∀ range ∈ v.axes.map AxisRange.unmark, range.freshCount = 0
  rw [List.forall_mem_map]
  intro range _
  simp [AxisRange.unmark, AxisRange.freshCount, Size.freshCount_unmark]

/-! ## The exchange -/

/-- A well-formed view stays so in another order. -/
theorem reordered_wellFormed (hv : v.WellFormed) (h : first.Perm (List.range v.rank)) :
    (v.reordered first).WellFormed :=
  (Axis.picked_perm h).trans hv

/-- Reordering picks from what is shown. -/
theorem shown_reordered (hv : v.WellFormed) (h : first.Perm (List.range v.rank)) :
    (v.reordered first).shown = picked v.shown first :=
  (Axis.picked_picked hv.within (.of_perm h)).symm

section

variable [Arithmetic] {spans : List Span}

/-- A slice of a reordered view is accepted if that of the view is: every range meets the
span that it met before. -/
theorem slice_reordered_succeeds_iff (hv : v.WellFormed) (h : first.Perm (List.range v.rank))
    (hlength : spans.length = v.rank) :
    (∃ w, (v.reordered first).slice (picked spans first) = .ok w) ↔
      ∃ w, v.slice spans = .ok w := by
  have hspans : Axis.Within first spans.length := Axis.perm_within h hlength
  have hranges : Axis.Within first v.shown.length := Axis.perm_within h hv.length_shown
  rw [slice_succeeds_iff (reordered_wellFormed hv h), slice_succeeds_iff hv,
    shown_reordered hv h]
  simp only [Axis.getElem?_picked hspans, Axis.getElem?_picked hranges]
  constructor
  · intro htakes axis span hspan
    have haxis : axis < v.rank := by
      rw [← hlength]
      exact (List.getElem?_eq_some_iff.mp hspan).1
    obtain ⟨place, hplace⟩ := Axis.exists_place h haxis
    have hmet := htakes place span
    rw [hplace, Option.bind_some, Option.bind_some] at hmet
    exact hmet hspan
  · intro htakes place span hspan
    obtain ⟨axis, haxis, hspan⟩ := Option.bind_eq_some_iff.mp hspan
    rw [haxis, Option.bind_some]
    exact htakes axis span hspan

/-- What is narrowed and picked, and what is picked and narrowed, is one view. -/
theorem slice_reordered (hv : v.WellFormed) (h : first.Perm (List.range v.rank))
    (hlength : spans.length = v.rank) {w' : View} (hslice : v.slice spans = .ok w)
    (hslice' : (v.reordered first).slice (picked spans first) = .ok w') :
    w' = w.reordered first := by
  obtain ⟨hwell, hrank, hshown⟩ := slice_ok hv hslice
  obtain ⟨hwell', _, hshown'⟩ := slice_ok (reordered_wellFormed hv h) hslice'
  have hfirst : first.Perm (List.range w.rank) := by rwa [hrank]
  have hspans : Axis.Within first spans.length := Axis.perm_within h hlength
  have hranges : Axis.Within first v.shown.length := Axis.perm_within h hv.length_shown
  have hpicks : (picked spans first).length = v.rank := by
    rw [Axis.length_picked hspans, Axis.perm_length h]
  -- every axis has a span, so no range is kept
  have hfull : v.shown.drop spans.length = [] := by
    apply List.drop_eq_nil_of_le
    rw [hv.length_shown, hlength]
  have hfull' : (v.reordered first).shown.drop (picked spans first).length = [] := by
    apply List.drop_eq_nil_of_le
    rw [(reordered_wellFormed hv h).length_shown, rank_reordered h, hpicks]
  refine eq_of_shown hwell' (reordered_wellFormed hwell hfirst) ?_ ?_
  · calc w'.order = (v.reordered first).order := slice_order hslice'
      _ = (w.reordered first).order := by rw [reordered, reordered, slice_order hslice]
  · calc w'.shown = List.zipWith narrow (picked v.shown first) (picked spans first) := by
          rw [hshown', hfull', List.append_nil, shown_reordered hv h]
      _ = picked w.shown first := by
          rw [hshown, hfull, List.append_nil, Axis.picked_zipWith _ hranges hspans]
      _ = (w.reordered first).shown := (shown_reordered hwell hfirst).symm

/-- **Slicing and reordering exchanged.**  At any view that stands, a slice with a span for
every axis can be taken before a permutation just if it can be taken after it, with its spans
permuted in their turn.  The two views are the same up to the undefined values in them, and
they are the same just if no bound has come out undefined. -/
theorem slice_permute_exchanged (hv : v.Standing) {axes : List Number} {u : View}
    (hpermute : v.permute axes = .ok u) (hlength : spans.length = v.rank) :
    ∃ first picks, permutation (.ofNat v.rank) axes = .ok first ∧
      Axis.pick spans (first.map .ofNat) = .ok picks ∧
      ((∃ w, (v.slice spans >>= fun s => s.permute axes) = .ok w) ↔
        ∃ w', u.slice picks = .ok w') ∧
      ∀ w w', (v.slice spans >>= fun s => s.permute axes) = .ok w → u.slice picks = .ok w' →
        w.unmark.same w'.unmark = true ∧
          (w.same w' = true ↔ ∀ range ∈ w.axes, range.freshCount = 0) := by
  obtain ⟨first, hfirst, rfl⟩ := permute_eq_ok.mp hpermute
  have hwell := hv.wellFormed
  have hperm := permutation_perm hfirst
  have hspans : Axis.Within first spans.length := Axis.perm_within hperm hlength
  -- a slice keeps the rank, so the axes name the same permutation after it
  have hafter : ∀ s w, v.slice spans = .ok s →
      (s.permute axes = .ok w ↔ w = s.reordered first) := by
    intro s w hslice
    obtain ⟨_, hrank, _⟩ := slice_ok hwell hslice
    rw [permute_eq_ok, hrank]
    constructor
    · rintro ⟨others, hothers, rfl⟩
      rw [Except.ok.inj (hothers.symm.trans hfirst)]
    · rintro rfl
      exact ⟨first, hfirst, rfl⟩
  refine ⟨first, picked spans first, hfirst, Axis.pick_eq_ok.mpr ⟨hspans, rfl⟩, ?_, ?_⟩
  · rw [slice_reordered_succeeds_iff hwell hperm hlength]
    constructor
    · rintro ⟨w, hw⟩
      obtain ⟨s, hslice, _⟩ := bind_eq_ok.mp hw
      exact ⟨s, hslice⟩
    · rintro ⟨s, hslice⟩
      exact ⟨_, bind_eq_ok.mpr ⟨s, hslice, (hafter s _ hslice).mpr rfl⟩⟩
  · intro w w' hw hw'
    obtain ⟨s, hslice, hpermuted⟩ := bind_eq_ok.mp hw
    have hboth : w' = w := by
      rw [(hafter s w hslice).mp hpermuted]
      exact slice_reordered hwell hperm hlength hslice hw'
    rw [hboth]
    exact ⟨unmark_same_self w, same_self_iff⟩

end

/-- Storage of four rows and `n` columns. -/
def rowsAndColumns : View :=
  contiguous [.literal 4, .symbol "n"]

/-- The rows and columns are a view that calls end in. -/
theorem standing_rowsAndColumns : rowsAndColumns.Standing :=
  @Standing.whole _ [.number 4, .size (.symbol "n")] rowsAndColumns rfl 0

/-- The rows from the second on and the first `k` columns, seen with the columns first. -/
theorem slice_permute_exchanged_turned :
    ∃ w w', (rowsAndColumns.slice [⟨.one, .literal 4⟩, ⟨.zero, .symbol "k"⟩] >>= fun s =>
        s.permute [.int (-1), 0]) = .ok w ∧
      (rowsAndColumns.permute [.int (-1), 0] >>= fun u =>
        u.slice [⟨.zero, .symbol "k"⟩, ⟨.one, .literal 4⟩]) = .ok w' ∧ w.same w' = true := by
  obtain ⟨first, picks, hfirst, hpicks, _, hsame⟩ :=
    slice_permute_exchanged standing_rowsAndColumns
      (show rowsAndColumns.permute [.int (-1), 0] = .ok ⟨rowsAndColumns.axes, [1, 0]⟩ from rfl)
      (show [Span.mk .one (.literal 4), ⟨.zero, .symbol "k"⟩].length = _ from rfl)
  obtain rfl : first = [1, 0] := (Except.ok.inj hfirst).symm
  obtain rfl : picks = [⟨.zero, .symbol "k"⟩, ⟨.one, .literal 4⟩] := (Except.ok.inj hpicks).symm
  refine ⟨_, _, rfl, rfl, (hsame _ _ rfl rfl).2.mpr ?_⟩
  decide

/-- The rows up to the lesser of `k` and an undefined value. -/
def undefinedRows : Span :=
  ⟨.zero, .binary .min (.symbol "k") (.literal (.undefined (.numbered 0)))⟩

/-- Where a bound comes out undefined, the views are not the same. -/
theorem slice_permute_fails :
    rowsAndColumns.Standing ∧
      ∃ w w', (rowsAndColumns.slice [undefinedRows, ⟨.zero, .symbol "n"⟩] >>= fun s =>
          s.permute [.int (-1), 0]) = .ok w ∧
        (rowsAndColumns.permute [.int (-1), 0] >>= fun u =>
          u.slice [⟨.zero, .symbol "n"⟩, undefinedRows]) = .ok w' ∧ w.same w' = false :=
  ⟨standing_rowsAndColumns, _, _, rfl, rfl, rfl⟩

end View

end ShapeGraph
