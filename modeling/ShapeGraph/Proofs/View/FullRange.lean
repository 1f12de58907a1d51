import ShapeGraph.Proofs.Size.Parts
import ShapeGraph.Proofs.View.Acceptance
import ShapeGraph.Proofs.View.Narrowing
import ShapeGraph.Proofs.View.Widening

/-!
# Ranges that are narrowed to all of them

A full range is asked for by the span from zero to the length of the range.  Narrowing adds the
start of the range to both, and ends where the range does, so the end is put together as
`min (start + (stop - start)) stop`.  If the start is a literal, or the sides of the difference
cancel, the sum gives the old end back, and so does its lesser with itself.  Otherwise nothing
cancels, then or later: the new end is kept as a bound, and no bound is an offset of a part of
its own.

* `AxisRange.Normal` — the bounds of a range are in normal form, which narrowing keeps;
* `Size.add_sub` — a difference is added back, if one of its sides is a literal or all of it;
* `View.narrow_full` — then a range that is narrowed to all of it stays as it is;
* `View.literal_of_narrow_full` — a length that is a literal afterwards has been that literal;
* `View.slice_eq_self` — so full ranges slice a view with literal starts to itself.
-/

namespace ShapeGraph

open ShapeGraph.Numeric (Arithmetic Number Unbounded)

namespace Size

/-- A base is no larger than its offsets. -/
theorem Offset.sizeOf_le {base s : Size} {m : Int} (h : Offset base m s) :
    sizeOf base ≤ sizeOf s := by
  cases h with
  | none => exact Nat.le_refl _
  | some m =>
      rw [binary.sizeOf_spec]
      omega

variable [Arithmetic]

/-- The base of a term in normal form is in normal form. -/
theorem Offset.normal {base s : Size} {m : Int} (h : Offset base m s) (hs : s.Normal) :
    base.Normal := by
  cases h with
  | none => exact hs
  | some m => exact hs.1

variable {l r : Size}

/-- Two terms that are no literals are added as they are. -/
theorem add_kept (hl : ∀ v, l ≠ literal v) (hr : ∀ v, r ≠ literal v) :
    l.add r = binary .add l r := by
  rw [add]
  · exact hl
  · exact hr

/-- The lesser of a sum and another term is kept, or it is that sum. -/
theorem min_sum_cases (hl : ∀ v, l ≠ literal v) (t : Size) :
    (binary .add r l).min t = binary .min (binary .add r l) t ∨
      (binary .add r l).min t = binary .add r l := by
  have hkept : ∀ v, (binary .add r l).boundLiteral .min v =
      binary .min (binary .add r l) (literal v) := by
    intro v
    rw [boundLiteral]
    · intro c hc
      cases hc
    · intro _ _ c h
      exact hl c (binary.inj h).2.2
  unfold min extremum
  split
  · exact .inl (hkept _)
  · next hsum _ => cases hsum
  · split
    · exact .inr rfl
    · exact .inl rfl

variable [Unbounded] {s : Size}

/-- Zero taken away from a term of integers leaves it alone. -/
theorem Integral.sub_zero (hs : s.Integral) : s.sub zero = s := by
  show s.sub (literal (.int 0)) = s
  rw [sub_literal hs, Int.neg_zero, addLiteral_zero hs]

theorem Integral.add_zero (hs : s.Integral) : s.add zero = s := by
  show s.addLiteral (.int 0) = s
  exact addLiteral_zero hs

/-- **A difference is added back** if its right side is a literal, or all of it is. -/
theorem add_sub (hl : l.Integral) (hln : l.Normal) (hr : r.Integral) (hrn : r.Normal)
    (h : (∃ v, r = literal v) ∨ ∃ v, l.sub r = literal v) : r.add (l.sub r) = l := by
  by_cases hliteral : ∃ v, r = literal v
  · obtain ⟨v, rfl⟩ := hliteral
    obtain ⟨n, rfl⟩ := hr
    have hless : (l.addLiteral (.int (-n))).Integral :=
      sub_literal hl n ▸ (sub_means hl.means (means_int n)).integral
    rw [sub_literal hl, literal_add hless, addLiteral_addLiteral hl hln, Int.add_left_neg,
      addLiteral_zero hl]
  · have hr' : ∀ v, r ≠ literal v := fun v hv => hliteral ⟨v, hv⟩
    obtain ⟨v, hv⟩ := h.resolve_left hliteral
    rw [sub_eq_difference hr'] at hv ⊢
    rcases difference_of_offsets hl hr with hkept | ⟨base, m, n, hbase, hlm, hrn', hd⟩
    · cases hkept.symm.trans hv
    · have hsum := addLiteral_addLiteral hbase (hlm.normal hln) n (m - n)
      rw [show n + (m - n) = m by omega, ← hlm.eq_addLiteral hbase hln,
        ← hrn'.eq_addLiteral hbase hrn] at hsum
      rw [hd]
      exact hsum

/-- Of a term that is no offset, and of which the other side is a part, nothing cancels. -/
theorem sub_ne_literal (hl : l.Integral) (hr : r.Integral) (hliteral : ∀ v, r ≠ literal v)
    (hoffset : ∀ base v, l ≠ binary .add base (literal v)) (hpart : sizeOf r < sizeOf l)
    (v : Number) : l.sub r ≠ literal v := by
  intro h
  rw [sub_eq_difference hliteral] at h
  rcases difference_of_offsets hl hr with hkept | ⟨base, m, n, _, hlm, hrn, _⟩
  · cases hkept.symm.trans h
  · cases hlm with
    | none => exact absurd hrn.sizeOf_le (Nat.not_le.mpr hpart)
    | some m => exact hoffset base (.int m) rfl

end Size

namespace AxisRange

variable [Arithmetic]

/-- The bounds of a range are in normal form. -/
structure Normal (range : AxisRange) : Prop where
  start : range.start.Normal
  stop : range.stop.Normal

theorem whole_normal {size : Size} (h : size.Normal) (broadcast : Bool) :
    (whole size broadcast).Normal :=
  ⟨trivial, h⟩

/-- The whole of an axis is as long as its size says. -/
theorem length_whole [Unbounded] {size : Size} (h : size.Integral) (broadcast : Bool) :
    (whole size broadcast).length = size :=
  h.sub_zero

/-- The length of a range in normal form is in normal form. -/
theorem Normal.length {range : AxisRange} (h : range.Normal) : range.length.Normal :=
  Size.combine_normal h.stop h.start (show Size.combine .sub _ _ = .ok range.length from rfl)

/-- A part of a range in normal form is in normal form if the bounds of the part are. -/
theorem Normal.narrow {range : AxisRange} (h : range.Normal) {span : Span}
    (hstart : span.start.Normal) (hstop : span.stop.Normal) :
    (View.narrow range span).Normal := by
  have hfirst : Size.combine .add range.start span.start = .ok (range.start.add span.start) := rfl
  have hlast : Size.combine .add range.start span.stop = .ok (range.start.add span.stop) := rfl
  have hbound : Size.combine .min (range.start.add span.stop) range.stop =
      .ok ((range.start.add span.stop).min range.stop) := rfl
  exact ⟨Size.combine_normal h.start hstart hfirst,
    Size.combine_normal (Size.combine_normal h.start hstop hlast) h.stop hbound⟩

end AxisRange

namespace View

variable [Arithmetic] [Unbounded] {range : AxisRange}

/-- **A full range leaves a range as it is**, if its start or its length is a literal. -/
theorem narrow_full (hi : range.Integral) (hn : range.Normal)
    (h : (∃ v, range.start = .literal v) ∨ ∃ v, range.length = .literal v) :
    narrow range ⟨.zero, range.length⟩ = range := by
  have hend : range.start.add range.length = range.stop :=
    Size.add_sub hi.stop hn.stop hi.start hn.start h
  have hself : range.stop.min range.stop = range.stop := Size.extremum_self (.inl rfl) hi.stop
  rw [narrow, hi.start.add_zero, hend, hself]

/-- **A length that is a literal after a full range** has been that literal before. -/
theorem literal_of_narrow_full (hi : range.Integral) (hn : range.Normal) {v : Number}
    (h : (narrow range ⟨.zero, range.length⟩).length = .literal v) :
    range.length = .literal v := by
  by_cases hcancels : (∃ v, range.start = .literal v) ∨ ∃ v, range.length = .literal v
  · rwa [narrow_full hi hn hcancels] at h
  · obtain ⟨hstart, hlength⟩ := not_or.mp hcancels
    have hstart : ∀ v, range.start ≠ .literal v := fun v hv => hstart ⟨v, hv⟩
    have hlength : ∀ v, range.length ≠ .literal v := fun v hv => hlength ⟨v, hv⟩
    have hlengthi := (AxisRange.length_means hi).integral
    -- the sum is kept, and so is the bound or the sum alone, of which the start is a part
    let sum : Size := .binary .add range.start range.length
    have hsum : range.start.add range.length = sum := Size.add_kept hstart hlength
    have hsumi : sum.Integral := ⟨hi.start, hlengthi⟩
    have hboundi : (Size.binary .min sum range.stop).Integral := ⟨hsumi, hi.stop⟩
    have hpart : sizeOf range.start < sizeOf sum := by
      rw [Size.binary.sizeOf_spec]
      omega
    have hlonger : sizeOf range.start < sizeOf (Size.binary .min sum range.stop) := by
      rw [Size.binary.sizeOf_spec]
      omega
    rw [narrow, AxisRange.length, hi.start.add_zero, hsum] at h
    rcases Size.min_sum_cases hlength range.stop with hkept | hkept
    · rw [hkept] at h
      exact absurd h (Size.sub_ne_literal hboundi hi.start hstart nofun hlonger v)
    · rw [hkept] at h
      refine absurd h (Size.sub_ne_literal hsumi hi.start hstart ?_ hpart v)
      intro base c hoffset
      exact hlength c (Size.binary.inj hoffset).2.2

/-- **A range with a literal start takes a full range**, unless its length is a negative
number. -/
theorem takes_full_of_literal (hi : range.Integral) (hn : range.Normal)
    (hstart : ∃ v, range.start = .literal v) (hlength : range.length.NotNegative) :
    range.Takes ⟨.zero, range.length⟩ where
  start v hv := by
    obtain rfl := Size.literal.inj (Size.value?_eq_some.mp hv)
    rfl
  stop := hlength
  ordered v w hv hw := by
    obtain rfl := Size.literal.inj (Size.value?_eq_some.mp hv)
    exact hlength w hw
  narrowed v w hv hw := by
    rw [narrow_full hi hn (.inl hstart), Size.value?_eq_some] at hv hw
    obtain ⟨m, rfl⟩ : ∃ m, v = .int m := by
      have hliteral := hi.start
      rwa [hv] at hliteral
    obtain ⟨n, rfl⟩ : ∃ n, w = .int n := by
      have hliteral := hi.stop
      rwa [hw] at hliteral
    have hvalue : range.length.value? = some (.int (n - m)) := by
      rw [AxisRange.length, hv, hw, Size.sub_int]
      rfl
    have hsign := hlength _ hvalue
    rw [show (0 : Number) = .int 0 from rfl, Number.lt_int, decide_eq_false_iff_not] at hsign
    rw [Number.lt_int, decide_eq_false_iff_not]
    omega

/-- **A slice by full ranges is the view itself**, if all starts are literals. -/
theorem slice_eq_self {v w : View} (hv : v.WellFormed)
    (hranges : ∀ range ∈ v.shown, range.Integral ∧ range.Normal ∧
      ∃ number, range.start = .literal number)
    (h : v.slice ((v.shown.map AxisRange.length).map (Span.mk .zero)) = .ok w) : w = v := by
  apply eq_of_shown (slice_ok hv h).1 hv (slice_order h)
  apply List.ext_getElem?
  intro axis
  rw [slice_shown_at hv h, List.getElem?_map, List.getElem?_map]
  cases hrange : v.shown[axis]? with
  | none => rfl
  | some range =>
      obtain ⟨hi, hn, hstart⟩ := hranges range (List.mem_of_getElem? hrange)
      exact congrArg some (narrow_full hi hn (.inl hstart))

end View

end ShapeGraph
