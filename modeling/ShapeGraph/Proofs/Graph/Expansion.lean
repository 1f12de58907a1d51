import ShapeGraph.Proofs.Graph.Movement
import ShapeGraph.Proofs.View.Widening

/-!
# What an expansion does to each axis

Expanding to a shape repeats an axis of length one only where that length is a literal
when the graph is built; a length that is known later is recorded to equal the one of the
target, and its range is kept.  So what two elements of one axis are expanded to is the
same view exactly if the axis is repeated in both of them.

* `AxisRange.aligned`, `alignAxes_shown` — what aligning with a target does to each axis;
* `leadAxes_alike` — the leading axes are the same for views of one order;
* `View.Expands`, `View.Expands.same_iff` — when the expansions of two views that differ
  on one axis are resolved to the same.
-/

namespace ShapeGraph

open ShapeGraph.Numeric (Arithmetic Number Unbounded)

/-! ## Aligned axes -/

section

variable [Arithmetic]

/-- An axis aligned with that of a target: repeated if it has length one and the target
has not, and kept otherwise. -/
def AxisRange.aligned (target : Shape) (axis : Nat) (range : AxisRange) : AxisRange :=
  match expansionSize target axis with
  | .ok (some size) =>
    if range.length.same .one && !size.same .one then .whole size true else range
  | _ => range

/-- An aligned axis is kept, or repeated as often as the target says. -/
theorem AxisRange.aligned_cases (target : Shape) (axis : Nat) (range : AxisRange) :
    range.aligned target axis = range ∨ ∃ size, expansionSize target axis = .ok (some size) ∧
      range.aligned target axis = .whole size true := by
  unfold aligned
  split
  · next size hsize =>
    split
    · exact .inr ⟨size, hsize, rfl⟩
    · exact .inl rfl
  · exact .inl rfl

variable {target : Shape} {offset axis : Nat} {view aligned : View}

/-- Two axes of storage are both repeated alike. -/
theorem AxisRange.aligned_eq {first second : AxisRange} (hread : first.broadcast = false)
    (hread' : second.broadcast = false) (h : (first.aligned target axis).broadcast = true)
    (h' : (second.aligned target axis).broadcast = true) :
    first.aligned target axis = second.aligned target axis := by
  rcases first.aligned_cases target axis with hkept | ⟨size, hsize, hwhole⟩
  · rw [hkept, hread] at h
    cases h
  · rcases second.aligned_cases target axis with hkept | ⟨size', hsize', hwhole'⟩
    · rw [hkept, hread'] at h'
      cases h'
    · obtain rfl := Option.some.inj (Except.ok.inj (hsize.symm.trans hsize'))
      rw [hwhole, hwhole']

/-- Different axes of storage come to the same only by being repeated. -/
theorem AxisRange.aligned_repeats {first second : AxisRange} (hread : first.broadcast = false)
    {ρ : Valuation} (hdiffer : first.concrete ρ ≠ second.concrete ρ)
    (h : (first.aligned target axis).concrete ρ = (second.aligned target axis).concrete ρ) :
    (first.aligned target axis).broadcast = true := by
  rcases first.aligned_cases target axis with hkept | ⟨size, _, hwhole⟩
  · rcases second.aligned_cases target axis with hkept' | ⟨size, _, hwhole⟩
    · rw [hkept, hkept'] at h
      exact absurd h hdiffer
    · rw [hkept, hwhole] at h
      have hbroadcast : first.broadcast = true := congrArg ConcreteRange.broadcast h
      rw [hread] at hbroadcast
      cases hbroadcast
  · rw [hwhole]
    rfl

/-- Aligning keeps the order, and replaces physical axes at most. -/
theorem alignAxes_order {lengths : List Size} {equalities : List Equality}
    (h : alignAxes target offset axis lengths view = .ok (aligned, equalities)) :
    aligned.order = view.order := by
  refine alignAxes_keep (P := fun w => w.order = view.order) (fun hv _ hrepeat => ?_) rfl h
  obtain ⟨_, _, _, _, rfl⟩ := View.broadcastAxis_made hrepeat
  exact hv

/-- A range that is aligned with a dimension is the range as it is aligned with the target. -/
theorem AxisRange.aligned_of_aligns {dim : Dimension} {range next : AxisRange}
    {equalities : List Equality} (hdim : target[axis]? = some dim)
    (h : dim.Aligns range next equalities) : next = range.aligned target axis := by
  have hown : ∀ {own : Option Size}, dim.size? = .ok own → expansionSize target axis = .ok own :=
    fun hsize => expansionSize_eq_ok.mpr ⟨dim, hdim, hsize⟩
  cases h with
  | anonymous hsize => rw [aligned, hown hsize]
  | repeated hsize hunit =>
      rw [aligned, hown hsize]
      exact (if_pos hunit).symm
  | kept hsize hunit =>
      rw [aligned, hown hsize]
      exact (if_neg hunit).symm

/-- **Aligning a view** aligns each of its axes. -/
theorem alignAxes_shown {done rest : List AxisRange} {equalities : List Equality}
    (hv : view.WellFormed) (hi : view.Integral) (hshown : view.shown = done ++ rest)
    (h : alignAxes target offset done.length (rest.map AxisRange.length) view =
      .ok (aligned, equalities)) :
    aligned.WellFormed ∧ aligned.Integral ∧ aligned.shown =
      done ++ rest.mapIdx fun i => AxisRange.aligned target (offset + (done.length + i)) := by
  induction rest generalizing done view equalities with
  | nil =>
      obtain ⟨rfl, _⟩ := Prod.mk.inj (Except.ok.inj h)
      exact ⟨hv, hi, by simpa using hshown⟩
  | cons range rest ih =>
      obtain ⟨dim, next, middle, _, others, hdim, haligns, hmv, hmi, hmshown, hothers, _⟩ :=
        alignAxes_cons hv hi hshown h
      obtain rfl := AxisRange.aligned_of_aligns hdim haligns
      have hshown' : middle.shown =
          (done ++ [range.aligned target (offset + done.length)]) ++ rest := by simp [hmshown]
      obtain ⟨hav, hai, hashown⟩ := ih hmv hmi hshown' (by simpa using hothers)
      refine ⟨hav, hai, ?_⟩
      rw [hashown, List.mapIdx_cons]
      simp [Nat.add_assoc, Nat.add_comm 1]

end

/-- The leading axes of a target are the same for views of one order. -/
theorem leadAxes_alike {target : Shape} {count : Nat} {v w a b : View} (hv : v.WellFormed)
    (hvi : v.Integral) (hw : w.WellFormed) (hwi : w.Integral) (horder : v.order = w.order)
    (ha : leadAxes target count v = .ok a) (hb : leadAxes target count w = .ok b) :
    a.WellFormed ∧ b.WellFormed ∧ a.order = b.order ∧ ∃ leading, leading.length = count ∧
      a.shown = leading ++ v.shown ∧ b.shown = leading ++ w.shown := by
  induction count generalizing v w with
  | zero =>
      obtain rfl := Except.ok.inj ha
      obtain rfl := Except.ok.inj hb
      exact ⟨hv, hw, horder, [], rfl, rfl, rfl⟩
  | succ count ih =>
      simp only [leadAxes, bind_eq_ok] at ha hb
      obtain ⟨own, hown, ha⟩ := ha
      obtain ⟨other, hother, hb⟩ := hb
      obtain rfl := Except.ok.inj (hown.symm.trans hother)
      cases own with
      | none => cases ha
      | some size =>
          obtain ⟨_, _, hdim⟩ := expansionSize_eq_ok.mp hown
          have hsize := (Dimension.fits_of_size hdim).1
          obtain ⟨v', hv', ha⟩ := bind_eq_ok.mp ha
          obtain ⟨w', hw', hb⟩ := bind_eq_ok.mp hb
          have hv' : v.expand (.ofNat 0) (.size size) = .ok v' := hv'
          have hw' : w.expand (.ofNat 0) (.size size) = .ok w' := hw'
          obtain ⟨hvv, _, hvshown⟩ := View.expand_ok hv (Nat.zero_le _) hsize hv'
          obtain ⟨hww, _, hwshown⟩ := View.expand_ok hw (Nat.zero_le _) hsize hw'
          have horder' : v'.order = w'.order := by
            rw [View.expand_order (Nat.zero_le _) hv', View.expand_order (Nat.zero_le _) hw',
              hv.length_axes, hw.length_axes, View.rank, View.rank, horder]
          obtain ⟨hav, hbw, hab, leading, hlength, hashown, hbshown⟩ :=
            ih hvv (View.expand_integral hv hvi (Nat.zero_le _) hsize hv') hww
              (View.expand_integral hw hwi (Nat.zero_le _) hsize hw') horder' ha hb
          refine ⟨hav, hbw, hab, leading ++ [.whole size true], by simp [hlength], ?_, ?_⟩
          · rw [hashown, hvshown]
            simp [Axis.insertAt]
          · rw [hbshown, hwshown]
            simp [Axis.insertAt]

/-! ## Expansions -/

/-- A resolved view repeats an element on a logical axis. -/
def ResolvedView.Repeats (view : ResolvedView) (axis : Nat) : Prop :=
  ∃ range, view.ranges[axis]? = some range ∧ range.broadcast = true

/-- The view of an expansion to a target. -/
def View.Expands [Arithmetic] (target : Shape) (v e : View) : Prop :=
  ∃ aligned equalities, alignAxes target (target.length - v.rank) 0
      (v.shown.map AxisRange.length) v = .ok (aligned, equalities) ∧
    leadAxes target (target.length - v.rank) aligned = .ok e

namespace View

variable [Arithmetic] {target : Shape} {v w a b : View} {axis : Nat} {ρ : Valuation}

/-- Two views with the same order expand alike: the same axes are put in front of both, and the
others are aligned with the same target. -/
theorem Expands.alike (hv : v.WellFormed) (hvi : v.Integral) (hw : w.WellFormed)
    (hwi : w.Integral) (horder : v.order = w.order) (ha : v.Expands target a)
    (hb : w.Expands target b) : a.order = b.order ∧ ∃ leading : List AxisRange,
      leading.length = target.length - v.rank ∧
      a.shown = leading ++ v.shown.mapIdx (fun i => AxisRange.aligned target (leading.length + i)) ∧
      b.shown =
        leading ++ w.shown.mapIdx (fun i => AxisRange.aligned target (leading.length + i)) := by
  have hrank : w.rank = v.rank := congrArg List.length horder.symm
  obtain ⟨va, _, hva, ha⟩ := ha
  obtain ⟨wa, _, hwa, hb⟩ := hb
  rw [hrank] at hwa hb
  have hvnone : v.shown = [] ++ v.shown := rfl
  have hwnone : w.shown = [] ++ w.shown := rfl
  obtain ⟨hvw, hvai, hvshown⟩ := alignAxes_shown hv hvi hvnone hva
  obtain ⟨hww, hwai, hwshown⟩ := alignAxes_shown hw hwi hwnone hwa
  have horder' : va.order = wa.order := by
    rw [alignAxes_order hva, alignAxes_order hwa, horder]
  obtain ⟨_, _, hab, leading, hlength, hashown, hbshown⟩ :=
    leadAxes_alike hvw hvai hww hwai horder' ha hb
  refine ⟨hab, leading, hlength, ?_, ?_⟩
  · rw [hashown, hvshown, hlength]
    simp
  · rw [hbshown, hwshown, hlength]
    simp

/-- **When two expansions are the same.**  Two views that differ on one axis, which
they read from storage and which is resolved to different ranges, have expansions that
are resolved to the same view just if both of these repeat the axis. -/
theorem Expands.same_iff (hv : v.WellFormed) (hvi : v.Integral) (hw : w.WellFormed)
    (hwi : w.Integral) (halike : v.AlikeBut axis w) {first second : AxisRange}
    (hfirst : v.shown[axis]? = some first) (hsecond : w.shown[axis]? = some second)
    (hread : first.broadcast = false) (hread' : second.broadcast = false)
    (hdiffer : first.concrete ρ ≠ second.concrete ρ) (ha : v.Expands target a)
    (hb : w.Expands target b) :
    a.concrete ρ = b.concrete ρ ↔ (a.concrete ρ).Repeats (target.length - v.rank + axis) ∧
      (b.concrete ρ).Repeats (target.length - v.rank + axis) := by
  obtain ⟨horder, leading, hlength, hashown, hbshown⟩ :=
    ha.alike hv hvi hw hwi halike.order_eq hb
  rw [← hlength]
  have hat : ∀ {x y : View} {range : AxisRange}, x.shown =
      leading ++ y.shown.mapIdx (fun i => AxisRange.aligned target (leading.length + i)) →
      y.shown[axis]? = some range → (x.concrete ρ).ranges[leading.length + axis]? =
        some ((range.aligned target (leading.length + axis)).concrete ρ) := by
    intro x y range hx hy
    rw [concrete, hx, List.getElem?_map, List.getElem?_append_right (by omega),
      Nat.add_sub_cancel_left, List.getElem?_mapIdx, hy]
    rfl
  have hafirst := hat hashown hfirst
  have hbsecond := hat hbshown hsecond
  constructor
  · intro hsame
    have hranges := Option.some.inj (hafirst.symm.trans (hsame ▸ hbsecond))
    have hrepeats := AxisRange.aligned_repeats hread hdiffer hranges
    have hrepeats' := AxisRange.aligned_repeats hread' hdiffer.symm hranges.symm
    exact ⟨⟨_, hafirst, hrepeats⟩, ⟨_, hbsecond, hrepeats'⟩⟩
  · rintro ⟨⟨r, hr, hrepeats⟩, ⟨r', hr', hrepeats'⟩⟩
    obtain rfl := Option.some.inj (hafirst.symm.trans hr)
    obtain rfl := Option.some.inj (hbsecond.symm.trans hr')
    have haligned := AxisRange.aligned_eq hread hread' hrepeats hrepeats'
    have hmapped : (v.shown.mapIdx fun i => AxisRange.aligned target (leading.length + i)) =
        w.shown.mapIdx fun i => AxisRange.aligned target (leading.length + i) := by
      refine List.ext_getElem? fun i => ?_
      rw [List.getElem?_mapIdx, List.getElem?_mapIdx]
      by_cases hi : i = axis
      · rw [hi, hfirst, hsecond, Option.map_some, Option.map_some, haligned]
      · rw [halike.shown_eq i hi]
    have hshown : a.shown = b.shown := by rw [hashown, hbshown, hmapped]
    rw [concrete, concrete, extent, extent, hshown, horder]

end View

end ShapeGraph
