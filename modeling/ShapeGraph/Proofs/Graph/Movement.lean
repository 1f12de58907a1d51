import ShapeGraph.Proofs.Graph.Compute

/-!
# View operations keep their contracts

Slices, permutations and expansions change the view of their input, and what is
shown changes with it; reshaping and joining lay out sizes of their own.

* `mapAxes_at`, `mapAxes_shape`, `mapAxes_ok` — the span of each axis of a slice, and the
  axes that it leaves, which fit its shape, a full range because it keeps the length of its
  axis;
* `targetAxes_ok`, `joinEqualities_ok`, `alignAxes_ok`, `leadAxes_ok` — the sizes
  that the other operations go by;
* `slice_effect`, `permute_effect`, `expand_effect`, `expandTo_effect`,
  `concat_effect`, `reshape_effect` — the effect of each call.
-/

namespace ShapeGraph

open ShapeGraph.Numeric (Arithmetic Number Unbounded)

variable {g : Graph} {t : Tensor}

/-! ## Slicing -/

/-- Each axis has the span of its own specification. -/
theorem mapAxes_at [Arithmetic] {sentinel : Number} {dims : Shape} {specs : List RangeSpec}
    {lengths : List Size} {mapping : SliceMapping} (hcount : lengths.length = dims.length)
    (h : mapAxes sentinel dims specs (lengths.map some) = .ok mapping) (axis : Nat) :
    mapping.spans.length = lengths.length ∧ ∀ length, lengths[axis]? = some length →
      ∃ span, mapping.spans[axis]? = some span ∧
        (specs[axis]?.getD .full).span (some length) sentinel = .ok span := by
  induction dims generalizing specs lengths mapping axis with
  | nil =>
      obtain rfl := Except.ok.inj h
      obtain rfl := List.length_eq_zero_iff.mp hcount
      exact ⟨rfl, fun _ h => nomatch h⟩
  | cons dim dims ih =>
      obtain ⟨length, lengths, rfl⟩ := List.exists_cons_of_length_eq_add_one hcount
      simp only [mapAxes, List.map_cons, List.head?_cons, Option.join_some, List.tail_cons,
        bind_eq_ok, pure_eq_ok, Except.ok.injEq, exists_eq_left'] at h
      obtain ⟨span, hspan, rest, hrest, rfl⟩ := h
      have hcount' : lengths.length = dims.length := by simpa using hcount
      refine ⟨by simp [(ih hcount' hrest 0).1], fun held hheld => ?_⟩
      cases axis with
      | zero =>
          obtain rfl := Option.some.inj hheld
          refine ⟨span, rfl, ?_⟩
          rwa [List.head?_eq_getElem?] at hspan
      | succ axis =>
          obtain ⟨other, hother, hmeant⟩ := (ih hcount' hrest axis).2 held hheld
          refine ⟨other, hother, ?_⟩
          rwa [List.getElem?_tail] at hmeant

/-- Each axis that is left has the dimension that its own specification leaves. -/
theorem mapAxes_shape [Arithmetic] {sentinel : Number} {dims : Shape} {specs : List RangeSpec}
    {sizes : List (Option Size)} {mapping : SliceMapping}
    (h : mapAxes sentinel dims specs sizes = .ok mapping) :
    mapping.shape = dims.mapIdx fun axis dim => (specs[axis]?.getD .full).dimension dim := by
  induction dims generalizing specs sizes mapping with
  | nil =>
      obtain rfl := Except.ok.inj h
      rfl
  | cons dim dims ih =>
      have hrest : ∃ rest, mapAxes sentinel dims specs.tail sizes.tail = .ok rest ∧
          (specs.head?.getD .full).dimension dim :: rest.shape = mapping.shape := by
        -- a size that is not given is that of the dimension, which leaves the same
        rw [mapAxes] at h
        split at h
        all_goals
          simp only [bind_eq_ok, pure_eq_ok] at h
          obtain ⟨_, _, _, _, rest, hrest, rfl⟩ := h
          exact ⟨rest, hrest, rfl⟩
      obtain ⟨rest, hrest, hshape⟩ := hrest
      rw [← hshape, ih hrest, List.mapIdx_cons, List.head?_eq_getElem?]
      simp only [List.getElem?_tail]

section

variable [Arithmetic] [Unbounded]

/-- A span starts at a size of integers if its lower bound is one. -/
theorem Bound.start_integral {bound : Bound} (hb : bound.Integral) {size : Size}
    (h : bound.start = .ok size) : size.Integral := by
  cases bound with
  | included value => exact Quantity.Integral.toSize hb h
  | excluded value =>
      simp only [start, bind_eq_ok, pure_eq_ok] at h
      obtain ⟨s, hs, rfl⟩ := h
      exact (Size.add_means (Quantity.Integral.toSize hb hs).means Size.means_one).integral
  | unbounded =>
      obtain rfl := Except.ok.inj h
      exact ⟨0, rfl⟩

/-- A span stops at a size of integers if its upper bound and the length of the axis are. -/
theorem Bound.stop_integral {bound : Bound} (hb : bound.Integral) {length : Size}
    (hlength : length.Integral) {sentinel : Number} {size : Size}
    (h : bound.stop (some length) sentinel = .ok size) : size.Integral := by
  cases bound with
  | included value =>
      simp only [stop, bind_eq_ok, pure_eq_ok] at h
      obtain ⟨s, hs, rfl⟩ := h
      exact (Size.add_means (Quantity.Integral.toSize hb hs).means Size.means_one).integral
  | excluded value => exact Quantity.Integral.toSize hb h
  | unbounded =>
      obtain rfl := Except.ok.inj h
      exact hlength

/-- The span of a range on an axis of known length; a full one is all of it. -/
theorem RangeSpec.span_ok {spec : RangeSpec} (hspec : spec.Integral) {length : Size}
    (hlength : length.Integral) {sentinel : Number} {span : Span}
    (h : spec.span (some length) sentinel = .ok span) :
    span.start.Integral ∧ span.stop.Integral ∧
      (spec.isFull = true → span = ⟨.zero, length⟩) := by
  simp only [RangeSpec.span, bind_eq_ok, pure_eq_ok] at h
  obtain ⟨start, hstart, stop, hstop, rfl⟩ := h
  refine ⟨Bound.start_integral hspec.1 hstart, Bound.stop_integral hspec.2 hlength hstop,
    fun hfull => ?_⟩
  cases spec with
  | full => rw [← Except.ok.inj hstart, ← Except.ok.inj hstop]
  | bounded | starting | ending | within => cases hfull

/-- A range narrowed to its own length keeps its extent. -/
theorem AxisRange.extent_narrow_full {range : AxisRange} (h : range.Integral) (ρ : Valuation) :
    (View.narrow range ⟨.zero, range.length⟩).extent ρ = range.extent ρ := by
  have hlength := length_means h
  have hstart := Size.add_means h.start.means Size.means_zero
  have hstop := Size.min_means (Size.add_means h.start.means hlength) h.stop.means
  show Size.value ρ _ - Size.value ρ _ = _
  rw [View.narrow, hstop.value_eq, hstart.value_eq]
  simp only [extent]
  omega

/-- Where the axes of a shape have its sizes, those that a slice leaves have the
sizes of the shape that it leaves. -/
theorem mapAxes_ok {sentinel : Number} {dims : Shape} {specs : List RangeSpec}
    {ranges : List AxisRange} {mapping : SliceMapping} (hcount : dims.length = ranges.length)
    (hspecs : ∀ spec ∈ specs, spec.Integral) (hranges : ∀ range ∈ ranges, range.Integral)
    (h : mapAxes sentinel dims specs ((ranges.map AxisRange.length).map some) = .ok mapping) :
    mapping.spans.length = ranges.length ∧
      (∀ span ∈ mapping.spans, span.start.Integral ∧ span.stop.Integral) ∧
      ∀ ρ, dims.Fits ρ (ranges.map (AxisRange.extent ρ)) → mapping.shape.Fits ρ
        ((List.zipWith View.narrow ranges mapping.spans).map (AxisRange.extent ρ)) := by
  induction dims generalizing specs ranges mapping with
  | nil =>
      obtain rfl := Except.ok.inj h
      obtain rfl := List.length_eq_zero_iff.mp hcount.symm
      exact ⟨rfl, by simp, fun ρ hfits => hfits⟩
  | cons dim dims ih =>
      obtain ⟨range, ranges, rfl⟩ := List.exists_cons_of_length_eq_add_one hcount.symm
      simp only [mapAxes, List.map_cons, List.head?_cons, Option.join_some, List.tail_cons,
        bind_eq_ok, pure_eq_ok, Except.ok.injEq, exists_eq_left'] at h
      obtain ⟨span, hspan, rest, hrest, rfl⟩ := h
      have hrange := hranges range List.mem_cons_self
      have hspec : (specs.head?.getD .full).Integral := by
        cases specs with
        | nil => exact ⟨trivial, trivial⟩
        | cons spec _ => exact hspecs spec List.mem_cons_self
      obtain ⟨hstart, hstop, hfull⟩ :=
        RangeSpec.span_ok hspec (AxisRange.length_means hrange).integral hspan
      obtain ⟨hlength, hspans, hfits⟩ := ih (by simpa using hcount)
        (fun spec hs => hspecs spec (List.mem_of_mem_tail hs))
        (fun r hr => hranges r (List.mem_cons_of_mem _ hr)) hrest
      refine ⟨by simp [hlength], List.forall_mem_cons.mpr ⟨⟨hstart, hstop⟩, hspans⟩,
        fun ρ hall => ?_⟩
      obtain ⟨hdim, hdims⟩ := List.forall₂_cons.mp hall
      refine .cons ?_ (hfits ρ hdims)
      unfold RangeSpec.dimension
      split
      · next his =>
        rw [hfull his, AxisRange.extent_narrow_full hrange]
        exact hdim
      · exact .inl rfl

/-- A slice meets its contract, or is refused. -/
theorem slice_effect (hg : g.WellFormed) (ht : g.Issued t) {specs : List RangeSpec}
    (hspecs : ∀ spec ∈ specs, spec.Integral) :
    Effect g ((Build.slice t specs).perform g).1 ((Build.slice t specs).perform g).2 := by
  refine (Build.slice_derives t specs).effect fun found inputs hinputs => ?_
  obtain ⟨⟨node, lengths, hnode, hlengths⟩, mapping, view, hmapping, hview, hrank⟩ := found
  have hop := ht.operand hg hnode
  have hinput := inputs_eq (.cons hop.behind .nil) hinputs
  simp only [mapSlice, ite_error_eq_ok] at hmapping
  obtain rfl := View.eq_of_lengths hop.wellFormed hlengths
  have hcount : node.view.shown.length = t.rank := hop.wellFormed.length_shown.trans hop.rank_eq
  obtain ⟨hspans, hintegral, hfits⟩ := mapAxes_ok hcount.symm hspecs
    (fun r hr => hop.integral.of_mem_shown hr) hmapping.2
  obtain ⟨hwell, _, hshown⟩ := View.slice_ok hop.wellFormed hview
  have hwithin := View.slice_within hop.integral (fun span hs => (hintegral span hs).2) hview
  refine .of_extent hwell (View.slice_integral hop.wellFormed hop.integral hintegral hview) hrank
    (inputs_lt hg hinputs) (List.forall_mem_nil _)
    (Draft.stores_of_within hop rfl hinput hwithin) (fun ρ => ?_)
    fun ρ hρ _ => ⟨hfits ρ (hop.fits ρ hρ), trivial⟩
  show view.shown.map _ = _
  rw [hshown, hspans, List.drop_length, List.append_nil]

end

/-! ## Reordering and inserting -/

theorem permute_effect (hg : g.WellFormed) (ht : g.Issued t) (axes : List Number) :
    Effect g ((Build.permute t axes).perform g).1 ((Build.permute t axes).perform g).2 := by
  refine (Build.permute_derives t axes).effect fun found inputs hinputs => ?_
  obtain ⟨node, positions, shape, view, hnode, hpositions, hshape, hview, hrank⟩ := found
  have hop := ht.operand hg hnode
  have hinput := inputs_eq (.cons hop.behind .nil) hinputs
  have hperm := Axis.permutation_perm hpositions
  have hwithin : Axis.Within positions node.view.rank := hop.rank_eq ▸ .of_perm hperm
  obtain ⟨hshapes, rfl⟩ := Axis.pick_eq_ok.mp hshape
  obtain ⟨hwell, _, hshown⟩ := View.permute_ok hop.wellFormed hwithin hview
  have hextent : ∀ ρ, view.extent ρ = Axis.picked (node.view.extent ρ) positions := fun ρ => by
    rw [View.extent, hshown, View.extent, Axis.picked_map]
  refine .of_extent hwell (View.permute_integral hop.wellFormed hop.integral hwithin hview) hrank
    (inputs_lt hg hinputs) (List.forall_mem_nil _)
    (Draft.stores_of_within hop rfl hinput (View.permute_within hview)) hextent fun ρ hρ _ =>
    ⟨(hop.fits ρ hρ).picked hshapes, node.view.extent ρ, positions, ?_, rfl, ?_, rfl⟩
  · rw [hinput, List.map_singleton, List.map_singleton, hop.extentAt_eq]
  · rwa [hop.length_extent]

/-- An expansion along an axis meets its contract, or is refused. -/
theorem expand_effect (hg : g.WellFormed) (ht : g.Issued t) (axis : Number) (dim : Dimension) :
    Effect g ((Build.expand t axis dim).perform g).1 ((Build.expand t axis dim).perform g).2 := by
  refine (Build.expand_derives t axis dim).effect fun found inputs hinputs => ?_
  obtain ⟨node, position, size, view, hnode, hposition, hown, hview, hrank⟩ := found
  have hop := ht.operand hg hnode
  have hinput := inputs_eq (.cons hop.behind .nil) hinputs
  obtain ⟨hsize, hdim⟩ := Dimension.fits_of_size hown
  have hle : position ≤ node.view.rank :=
    hop.rank_eq ▸ Nat.le_of_lt_succ (Axis.position_lt hposition)
  obtain ⟨hwell, _, hshown⟩ := View.expand_ok hop.wellFormed hle hsize hview
  have hextent : ∀ ρ, view.extent ρ =
      Axis.insertAt (node.view.extent ρ) position (size.value ρ) := fun ρ => by
    rw [View.extent, hshown, Axis.map_insertAt, AxisRange.extent_whole, View.extent]
  refine .of_extent hwell (View.expand_integral hop.wellFormed hop.integral hle hsize hview) hrank
    (inputs_lt hg hinputs) (List.forall_mem_nil _)
    (Draft.stores_of_within hop rfl hinput (View.expand_within hview)) hextent fun ρ hρ _ =>
    ⟨(hop.fits ρ hρ).insertAt position (hdim ρ), node.view.extent ρ, ?_,
      .inl ⟨position, size.value ρ, rfl, ?_, rfl⟩⟩
  · rw [hinput, List.map_singleton, List.map_singleton, hop.extentAt_eq]
  · rwa [hop.wellFormed.length_extent]

/-! ## Joining -/

/-- Where the recorded equalities hold, two operands agree off the axis along
which they are joined. -/
theorem joinEqualities_ok {joined : Nat} {left right : List Size} {axis : Nat}
    {equalities : List Equality} (hleft : ∀ s ∈ left, s.Integral)
    (hright : ∀ s ∈ right, s.Integral)
    (h : joinEqualities joined right axis left = .ok equalities) :
    (∀ e ∈ equalities, e.Integral) ∧ ∀ ρ, (∀ e ∈ equalities, e.Holds ρ) →
      ∀ i < left.length, axis + i ≠ joined →
        left[i]?.map (Size.value ρ) = right[axis + i]?.map (Size.value ρ) := by
  induction left generalizing axis equalities with
  | nil =>
      obtain rfl := Except.ok.inj h
      simp
  | cons length rest ih =>
      have hrest := fun s hs => hleft s (List.mem_cons_of_mem _ hs)
      obtain ⟨first, others, hthis, hothers, rfl⟩ : ∃ first others,
          ((∀ e ∈ first, e.Integral) ∧ ∀ ρ, (∀ e ∈ first, e.Holds ρ) → axis ≠ joined →
            some (length.value ρ) = right[axis]?.map (Size.value ρ)) ∧
          joinEqualities joined right (axis + 1) rest = .ok others ∧
          equalities = first ++ others := by
        unfold joinEqualities at h
        split at h
        · next heq =>
          simp only [bind_eq_ok, pure_eq_ok, exists_eq_left'] at h
          obtain ⟨others, hothers, rfl⟩ := h
          exact ⟨[], others, ⟨by simp, fun _ _ hne => absurd heq hne⟩, hothers, rfl⟩
        · simp only [bind_eq_ok, pure_eq_ok, lengthAt_eq_ok] at h
          obtain ⟨other, hother, first, hfirst, others, hothers, rfl⟩ := h
          have hagree := requireEqual_ok (hleft length List.mem_cons_self)
            (hright other (List.mem_of_getElem? hother)) hfirst
          refine ⟨first, others, ⟨hagree.1, fun ρ hall _ => ?_⟩, hothers, rfl⟩
          rw [hother, hagree.2 ρ hall]
          rfl
      obtain ⟨hi, hagree⟩ := ih hrest hothers
      refine ⟨List.forall_mem_append.mpr ⟨hthis.1, hi⟩, fun ρ hall i hlt hne => ?_⟩
      obtain ⟨hfirst, hlater⟩ := List.forall_mem_append.mp hall
      cases i with
      | zero => exact hthis.2 ρ hfirst hne
      | succ i =>
          have hstep := hagree ρ hlater i (by simpa using hlt) (by omega)
          rwa [show axis + 1 + i = axis + (i + 1) by omega] at hstep

/-- Where the equalities of a join hold, its operands agree on every other axis. -/
theorem joinEqualities_agree {joined : Nat} {left right : List Size} {equalities : List Equality}
    (hleft : ∀ s ∈ left, s.Integral) (hright : ∀ s ∈ right, s.Integral)
    (hlength : left.length = right.length)
    (h : joinEqualities joined right 0 left = .ok equalities) {ρ : Valuation}
    (hall : ∀ e ∈ equalities, e.Holds ρ) {axis : Nat} (hne : axis ≠ joined) :
    left[axis]?.map (Size.value ρ) = right[axis]?.map (Size.value ρ) := by
  by_cases hlt : axis < left.length
  · have hsame := (joinEqualities_ok hleft hright h).2 ρ hall axis hlt (by omega)
    rwa [Nat.zero_add] at hsame
  · rw [List.getElem?_eq_none (by omega), List.getElem?_eq_none (by omega)]

section

variable [Arithmetic] [Unbounded]

/-- The dimension of a joined axis fits the sum of its parts. -/
theorem joinedDimension_fits {ρ : Valuation} {a b joined : Dimension} {m n : Int}
    (ha : a.Fits ρ m) (hb : b.Fits ρ n) (h : joinedDimension a b = .ok joined) :
    joined.Fits ρ (m + n) := by
  unfold joinedDimension at h
  split at h
  · obtain rfl := ha
    obtain rfl := hb
    simp only [Number.add_int_int, Dimension.ofNumber, ite_ok_eq_ok] at h
    obtain ⟨_, rfl⟩ := h
    rfl
  · obtain rfl := Except.ok.inj h
    exact .inl rfl

/-- The sizes of a join are those of the first operand but for the axis, on which the lengths
add up. -/
theorem joinedSizes_ok {left right sizes : List Size} {joined : Nat} {length : Size}
    (hleft : ∀ s ∈ left, s.Integral) (hright : ∀ s ∈ right, s.Integral)
    (hlength : left[joined]? = some length) (h : joinedSizes left right joined = .ok sizes) :
    ∃ other, right[joined]? = some other ∧ (∀ s ∈ sizes, s.Integral) ∧
      ∀ ρ, sizes.map (Size.value ρ) =
        (left.map (Size.value ρ)).set joined (length.value ρ + other.value ρ) := by
  simp only [joinedSizes, hlength, bind_eq_ok, pure_eq_ok, lengthAt_eq_ok] at h
  obtain ⟨other, hother, rfl⟩ := h
  have hsum := Size.add_means (hleft length (List.mem_of_getElem? hlength)).means
    (hright other (List.mem_of_getElem? hother)).means
  refine ⟨other, hother, ?_, fun ρ => ?_⟩
  · intro s hs
    rcases List.mem_or_eq_of_mem_set hs with hs | rfl
    · exact hleft s hs
    · exact hsum.integral
  · rw [List.map_set, hsum.value_eq]

/-- A concatenation meets its contract where the recorded equalities hold, or is refused. -/
theorem concat_effect {a b : Tensor} (hg : g.WellFormed) (ha : g.Issued a) (hb : g.Issued b)
    (axis : Number) :
    Effect g ((Build.concat a b axis).perform g).1 ((Build.concat a b axis).perform g).2 := by
  refine (Build.concat_derives a b axis).effect fun found inputs hinputs => ?_
  obtain ⟨⟨x, y, left, right, hx, hy, hleft, hright⟩, k, equalities, da, db, joined, sizes, hranks,
    hk, hequalities, hda, hdb, hjoined, hsizes, hrank⟩ := found
  have hopa := ha.operand hg hx
  have hopb := hb.operand hg hy
  have hl := hopa.graph_lengths_ok hleft
  have hr := hopb.graph_lengths_ok hright
  obtain rfl := inputs_eq (.cons hopa.behind (.cons hopb.behind .nil)) hinputs
  have hlength : left.length = right.length := by
    rw [hopa.length_lengths hl, hopb.length_lengths hr, Tensor.rank, Tensor.rank, hranks]
  have hkl : k < left.length := by
    rw [hopa.length_lengths hl]
    exact Axis.position_lt hk
  have hleft : left[k]? = some left[k] := List.getElem?_eq_getElem hkl
  obtain ⟨other, hother, hintegral, hvalues⟩ :=
    joinedSizes_ok hl.integral hr.integral hleft hsizes
  have hi := (joinEqualities_ok hl.integral hr.integral hequalities).1
  refine .laid rfl rfl hrank hintegral ?_ (Equality.forall_mem_pending.mpr hi) fun ρ hρ hall => ?_
  · simp [hopa.id_lt, hopb.id_lt]
  · have hxv := hl.values ρ
    have hyv := hr.values ρ
    have hxk : (x.view.extent ρ)[k]? = some (left[k].value ρ) := by simp [← hxv, hkl]
    have hyk : (y.view.extent ρ)[k]? = some (other.value ρ) := by simp [← hyv, hother]
    rw [hvalues, hxv]
    refine ⟨(hopa.fits ρ hρ).set k (joinedDimension_fits ((hopa.fits ρ hρ).at_axis hda hxk)
      ((hopb.fits ρ hρ).at_axis hdb hyk) hjoined), x.view.extent ρ, y.view.extent ρ, k, _, _,
      ?_, rfl, ?_, fun i hne => ?_, hxk, hyk, rfl⟩
    · show [g.extentAt ρ x.id, g.extentAt ρ y.id] = _
      rw [hopa.extentAt_eq, hopb.extentAt_eq]
    · rw [← hxv, ← hyv, List.length_map, List.length_map, hlength]
    · rw [← hxv, ← hyv, List.getElem?_map, List.getElem?_map]
      exact joinEqualities_agree hl.integral hr.integral hlength hequalities
        (Equality.forall_mem_pending.mp hall) hne

end

/-! ## Reshaping -/

/-- An entry that copies an axis takes its dimension and its length. -/
theorem targetAxis_copied {shape : Shape} {lengths : List Size} {position : Nat} {axis : Number}
    {result : Dimension × Size}
    (h : targetAxis shape lengths position (.copied axis) = .ok result) :
    ∃ k : Nat, shape[k]? = some result.1 ∧ lengths[k]? = some result.2 := by
  simp only [targetAxis] at h
  split at h
  · next k hk =>
    split at h
    · simp only [bind_eq_ok, pure_eq_ok, Shape.dimAt, hk, Option.bind_some, lengthAt_eq_ok] at h
      obtain ⟨dim, hdim, length, hlength, rfl⟩ := h
      refine ⟨k, ?_, hlength⟩
      cases hget : shape[k]? with
      | none => simp [hget] at hdim
      | some d => simpa [hget] using hdim
    · cases h
  · cases h

/-- An axis of a reshape target has the size that it asks for, or that of the
axis it copies. -/
theorem targetAxis_ok {shape : Shape} {lengths : List Size} {position : Nat}
    {entry : ReshapeEntry} {axis : Dimension × Size} (hlengths : ∀ s ∈ lengths, s.Integral)
    (h : targetAxis shape lengths position entry = .ok axis) :
    axis.2.Integral ∧ ∀ ρ, shape.Fits ρ (lengths.map (Size.value ρ)) →
      axis.1.Fits ρ (axis.2.value ρ) := by
  cases entry with
  | size n =>
      simp only [targetAxis, ite_ok_eq_ok] at h
      obtain ⟨hn, rfl⟩ := h
      obtain ⟨m, rfl⟩ := Number.eq_int_of_isSafe (Bool.and_eq_true_iff.mp hn).1
      exact ⟨⟨m, rfl⟩, fun ρ _ => rfl⟩
  | copied a =>
      obtain ⟨k, hdim, hlength⟩ := targetAxis_copied h
      refine ⟨hlengths axis.2 (List.mem_of_getElem? hlength), fun ρ hfits => ?_⟩
      exact hfits.at_axis hdim (by simp [hlength])

/-- The sizes that a target is derived to are made of integers, and fit its dimensions wherever
the lengths of the operand fit its own. -/
theorem targetAxes_ok {shape : Shape} {lengths : List Size} {position : Nat}
    {entries : List ReshapeEntry} {axes : List (Dimension × Size)}
    (hlengths : ∀ s ∈ lengths, s.Integral)
    (h : targetAxes shape lengths position entries = .ok axes) :
    (∀ s ∈ axes.map (·.2), s.Integral) ∧ ∀ ρ, shape.Fits ρ (lengths.map (Size.value ρ)) →
      Shape.Fits ρ (axes.map (·.1)) ((axes.map (·.2)).map (Size.value ρ)) := by
  induction entries generalizing position axes with
  | nil =>
      obtain rfl := Except.ok.inj h
      exact ⟨by simp, fun ρ _ => .nil⟩
  | cons entry rest ih =>
      simp only [targetAxes, bind_eq_ok, pure_eq_ok] at h
      obtain ⟨axis, haxis, others, hothers, rfl⟩ := h
      obtain ⟨hi, hfits⟩ := targetAxis_ok hlengths haxis
      obtain ⟨his, hall⟩ := ih hothers
      exact ⟨List.forall_mem_cons.mpr ⟨hi, his⟩, fun ρ hshape =>
        .cons (hfits ρ hshape) (hall ρ hshape)⟩

/-- The node that lays an operand out. -/
def relaid (t : Tensor) (lengths : List Size) : Draft where
  kind := .contiguous
  shape := t.shape
  view := .contiguous lengths
  inputs := [.tensor t]
  attributes := []
  name := none
  payload := none
  pending := []

/-- An operand is laid out without failing. -/
theorem contiguous_ok [Arithmetic] {node : Node} (hbehind : g.Behind t node) {lengths : List Size}
    (hlengths : node.view.lengths = .ok lengths) (hcount : lengths.length = t.rank) :
    (Build.contiguous t).perform g =
      (.ok (Build.handle g t.shape), g.append (relaid t lengths) [node.id]) := by
  have hrank : (View.contiguous lengths).rank = t.shape.length := by
    rw [View.rank_contiguous, hcount, Tensor.rank]
  have hinputs : (relaid t lengths).inputs.mapM (g.inputId .contiguous) = .ok [node.id] :=
    inputs_ok (.cons hbehind .nil)
  have hplan : (do
      let node ← g.check OpKind.contiguous.name t
      let draft ← Draft.start .contiguous t.shape (.contiguous (← node.view.lengths))
      return draft.ofTensors [t] : Except Fault Draft) = .ok (relaid t lengths) := by
    simp only [bind_eq_ok, pure_eq_ok, Draft.start_eq_ok]
    exact ⟨node, Graph.check_eq_ok.mpr hbehind, lengths, hlengths, _, ⟨hrank, rfl⟩, rfl⟩
  show (Build.derive _).perform g =
    (.ok (Build.handle g (relaid t lengths).shape), g.append (relaid t lengths) [node.id])
  exact Build.perform_derive_ok hplan hinputs

section

variable [Arithmetic] [Unbounded]

/-- A reshape of storage meets its contract where the recorded equality of the two counts holds.
-/
theorem reshaped_sound {source : Tensor} {node : Node} (hop : g.Operand source node)
    {lengths : List Size} (hl : node.view.HasLengths lengths) {shape : Shape}
    (hfits : ∀ ρ, g.Holds ρ → shape.Fits ρ (node.view.extent ρ)) {position : Nat}
    {target : List ReshapeEntry} {axes : List (Dimension × Size)}
    (haxes : targetAxes shape lengths position target = .ok axes) {relation : String}
    {equalities : List Equality} (hequalities : requireEqual "reshape" relation
      (Size.product lengths) (Size.product (axes.map (·.2))) = .ok equalities)
    {inputs : List Nat} (hinputs : inputs = [node.id]) :
    (reshaped source target axes equalities).Sound g inputs := by
  obtain ⟨hi, hall⟩ := targetAxes_ok hl.integral haxes
  have hheld := Size.product_means hl.integral
  have hwanted := Size.product_means hi
  obtain ⟨he, hagree⟩ := requireEqual_ok hheld.integral hwanted.integral hequalities
  refine .laid rfl rfl (by simp [reshaped]) hi ?_ (Equality.forall_mem_pending.mpr he)
    fun ρ hρ hequal => ⟨?_, ?_⟩
  · simpa [hinputs] using hop.id_lt
  · exact hall ρ (hl.values ρ ▸ hfits ρ hρ)
  · refine ⟨node.view.extent ρ, ?_, ?_⟩
    · rw [hinputs, List.map_singleton, hop.extentAt_eq]
    · rw [← hl.values, ← hheld.value_eq, ← hwanted.value_eq,
        hagree ρ (Equality.forall_mem_pending.mp hequal)]

/-- The effect of a reshape.  A view that is not contiguous is laid out first, and
after that nothing can fail. -/
theorem reshape_effect (hg : g.WellFormed) (ht : g.Issued t) (target : List ReshapeEntry) :
    Effect g ((Build.reshape t target).perform g).1 ((Build.reshape t target).perform g).2 := by
  rcases Build.reshape_cases t target with ⟨fault, h⟩ | ⟨found, hfound⟩
  · rw [h]
    exact .refused fault
  have hop := ht.operand hg found.node_eq
  have hl := hop.lengths_ok found.lengths_eq
  have haxes := found.axes_eq
  have hequalities := found.equalities_eq
  rw [Size.pinned_of_integral hl.integral] at haxes hequalities
  rcases hfound with ⟨_, h⟩ | ⟨first, h⟩ <;> rw [h]
  · exact .appended (reshaped_sound hop hl hop.fits haxes hequalities rfl)
  · have hfirst : (first.draft []).Sound g [first.node.id] :=
      pointwise_sound hg ht rfl first (inputs_ok (.cons first.behind .nil)) fun _ => rfl
    have hbehind := g.append_behind [first.node.id] hfirst.integral
    have hlaid := (Graph.append_issued hfirst).operand_behind
      (Graph.append_wellFormed hg hfirst) hbehind
    have hsame : first.lengths = found.lengths := by
      have hlengths := first.lengths_eq
      rw [first.behind.unique found.behind] at hlengths
      exact Except.ok.inj (hlengths.symm.trans found.lengths_eq)
    have hmeant : (View.contiguous first.lengths).HasLengths found.lengths := by
      rw [hsame]
      exact ⟨hl.integral, fun ρ => (View.extent_contiguous hl.integral ρ).symm⟩
    exact .laidOut hfirst (reshaped_sound hlaid hmeant hlaid.fits haxes hequalities rfl)

end

/-! ## Broadcasting -/

/-- The size of an axis of a target is that of its dimension. -/
theorem expansionSize_eq_ok {target : Shape} {axis : Nat} {own : Option Size} :
    expansionSize target axis = .ok own ↔
      ∃ dim, target[axis]? = some dim ∧ dim.size? = .ok own := by
  simp only [expansionSize, bind_eq_ok, dimAt_eq_ok]

/-- An axis that is put in front for a dimension of a target repeats one element, as often as
the dimension says. -/
def Dimension.Leads (dim : Dimension) (range : AxisRange) : Prop :=
  ∃ size, dim.size? = .ok (some size) ∧ range = .whole size true

/-- Leading axes have the sizes of their dimensions. -/
theorem Shape.fits_of_leads {dims : Shape} {ranges : List AxisRange}
    (h : List.Forall₂ Dimension.Leads dims ranges) (ρ : Valuation) :
    dims.Fits ρ (ranges.map (AxisRange.extent ρ)) := by
  induction h with
  | nil => exact .nil
  | cons hhead _ ih =>
      obtain ⟨size, hsize, rfl⟩ := hhead
      refine .cons ?_ ih
      rw [AxisRange.extent_whole]
      exact (Dimension.fits_of_size hsize).2 ρ

/-- The leading axes of a target are put in front, each of its own size. -/
theorem leadAxes_ok {target : Shape} {count : Nat} {view w : View} (hv : view.WellFormed)
    (hi : view.Integral) (h : leadAxes target count view = .ok w) :
    w.WellFormed ∧ w.Integral ∧ ∃ leading, w.shown = leading ++ view.shown ∧
      List.Forall₂ Dimension.Leads (target.take count) leading := by
  induction count generalizing view with
  | zero =>
      obtain rfl := Except.ok.inj h
      exact ⟨hv, hi, [], rfl, .nil⟩
  | succ count ih =>
      simp only [leadAxes, bind_eq_ok, expansionSize_eq_ok] at h
      obtain ⟨own, ⟨dim, hdim, hown⟩, h⟩ := h
      cases own with
      | none => cases h
      | some size =>
          obtain ⟨middle, hmiddle, h⟩ := bind_eq_ok.mp h
          have hsize := (Dimension.fits_of_size hown).1
          have hmiddle : view.expand (.ofNat 0) (.size size) = .ok middle := hmiddle
          obtain ⟨hmv, _, hmshown⟩ := View.expand_ok hv (Nat.zero_le _) hsize hmiddle
          obtain ⟨hwv, hwi, leading, hleading, hall⟩ :=
            ih hmv (View.expand_integral hv hi (Nat.zero_le _) hsize hmiddle) h
          refine ⟨hwv, hwi, leading ++ [.whole size true], ?_, ?_⟩
          · rw [hleading, hmshown]
            simp [Axis.insertAt]
          · rw [List.take_add_one, hdim]
            exact List.rel_append hall (.cons ⟨size, hown, rfl⟩ .nil)

/-- The size of one of the dimensions of a shape. -/
def Shape.Sizes (shape : Shape) (size : Size) : Prop :=
  ∃ dim ∈ shape, dim.size? = .ok (some size)

/-- The size of an axis of a target is one of its sizes. -/
theorem Shape.sizes_of_expansion {target : Shape} {axis : Nat} {size : Size}
    (h : expansionSize target axis = .ok (some size)) : target.Sizes size := by
  obtain ⟨dim, hdim, hsize⟩ := expansionSize_eq_ok.mp h
  exact ⟨dim, List.mem_of_getElem? hdim, hsize⟩

section

variable {P : View → Prop} {target : Shape} {view w : View}

/-- What holds of a view, and stays so when an axis of the target is put in, holds once the
leading axes are there. -/
theorem leadAxes_keep (hkeep : ∀ {v w : View} {size : Size}, P v → target.Sizes size →
      v.expand 0 (.size size) = .ok w → P w) (hview : P view) {count : Nat}
    (h : leadAxes target count view = .ok w) : P w := by
  induction count generalizing view with
  | zero =>
      obtain rfl := Except.ok.inj h
      exact hview
  | succ count ih =>
      simp only [leadAxes, bind_eq_ok] at h
      obtain ⟨own, hown, h⟩ := h
      cases own with
      | none => cases h
      | some size =>
          obtain ⟨middle, hmiddle, h⟩ := bind_eq_ok.mp h
          exact ih (hkeep hview (Shape.sizes_of_expansion hown) hmiddle) h

/-- What holds of a view, and stays so when an axis is repeated as often as the target says,
holds once the axes are aligned. -/
theorem alignAxes_keep [Arithmetic] (hkeep : ∀ {v w : View} {axis : Number} {size : Size}, P v →
      target.Sizes size → v.broadcastAxis axis (.size size) = .ok w → P w) (hview : P view)
    {offset axis : Nat} {lengths : List Size} {equalities : List Equality}
    (h : alignAxes target offset axis lengths view = .ok (w, equalities)) : P w := by
  induction lengths generalizing axis view equalities with
  | nil =>
      obtain ⟨rfl, _⟩ := Prod.mk.inj (Except.ok.inj h)
      exact hview
  | cons length rest ih =>
      simp only [alignAxes, bind_eq_ok] at h
      obtain ⟨own, hown, h⟩ := h
      cases own with
      | none =>
          simp only [bind_eq_ok, pure_eq_ok, exists_eq_left', Prod.mk.injEq] at h
          obtain ⟨⟨_, others⟩, hothers, rfl, _⟩ := h
          exact ih hview hothers
      | some size =>
          simp only at h
          split at h
          · simp only [bind_eq_ok, pure_eq_ok, exists_eq_left', Prod.mk.injEq] at h
            obtain ⟨middle, hmiddle, ⟨_, others⟩, hothers, rfl, _⟩ := h
            exact ih (hkeep hview (Shape.sizes_of_expansion hown) hmiddle) hothers
          · simp only [bind_eq_ok, pure_eq_ok, exists_eq_left', Prod.mk.injEq] at h
            obtain ⟨first, _, ⟨_, others⟩, hothers, rfl, _⟩ := h
            exact ih hview hothers

/-- Leading axes show nothing that was not shown before. -/
theorem leadAxes_within {count : Nat} (h : leadAxes target count view = .ok w) :
    w.Within view :=
  leadAxes_keep (P := fun w => w.Within view)
    (fun hv _ hexpand => (View.expand_within hexpand).trans hv) (.refl view) h

/-- Aligned axes show nothing that was not shown before. -/
theorem alignAxes_within [Arithmetic] {offset axis : Nat} {lengths : List Size}
    {equalities : List Equality}
    (h : alignAxes target offset axis lengths view = .ok (w, equalities)) : w.Within view :=
  alignAxes_keep (P := fun w => w.Within view)
    (fun hv _ hrepeat => (View.broadcastAxis_within hrepeat).trans hv) (.refl view) h

end

section

variable [Arithmetic]

/-- What becomes of a range that is aligned with a dimension of a target, and what is recorded
of it: nothing is known of an anonymous dimension; a range of length one is repeated, and any
other has to have the size of the dimension. -/
inductive Dimension.Aligns (dim : Dimension) (range : AxisRange) :
    AxisRange → List Equality → Prop
  | anonymous (hdim : dim.size? = .ok none) : Aligns dim range range []
  | repeated {size : Size} (hdim : dim.size? = .ok (some size))
      (hunit : (range.length.same .one && !size.same .one) = true) :
      Aligns dim range (.whole size true) []
  | kept {size : Size} {relation : String} {equalities : List Equality}
      (hdim : dim.size? = .ok (some size))
      (hunit : ¬ (range.length.same .one && !size.same .one) = true)
      (hequal : requireEqual "expandTo" relation range.length size = .ok equalities) :
      Aligns dim range range equalities

/-- Where the recorded equalities hold, an aligned range has the size of its dimension, and
another length than before only if that was one. -/
theorem Dimension.Aligns.fits [Unbounded] {dim : Dimension} {range next : AxisRange}
    {equalities : List Equality} (h : dim.Aligns range next equalities) (hi : range.Integral) :
    (∀ e ∈ equalities, e.Integral) ∧ ∀ ρ, (∀ e ∈ equalities, e.Holds ρ) →
      Repeats (range.extent ρ) (next.extent ρ) ∧ dim.Fits ρ (next.extent ρ) := by
  have hlength := AxisRange.length_means hi
  cases h with
  | anonymous hdim =>
      obtain rfl := Dimension.eq_anonymous hdim
      exact ⟨List.forall_mem_nil _, fun ρ _ => ⟨.inr rfl, .inl rfl⟩⟩
  | repeated hdim hunit =>
      obtain ⟨hsize, hfits⟩ := Dimension.fits_of_size hdim
      have hone : range.length = .one :=
        (Size.same_iff hlength.integral Size.means_one.integral).mp
          (Bool.and_eq_true_iff.mp hunit).1
      refine ⟨List.forall_mem_nil _, fun ρ _ => ?_⟩
      rw [AxisRange.extent_whole, ← hlength.value_eq, hone]
      exact ⟨.inl rfl, hfits ρ⟩
  | kept hdim _ hequal =>
      obtain ⟨hsize, hfits⟩ := Dimension.fits_of_size hdim
      have hagree := requireEqual_ok hlength.integral hsize hequal
      refine ⟨hagree.1, fun ρ hall => ⟨.inr rfl, ?_⟩⟩
      rw [← hlength.value_eq, hagree.2 ρ hall]
      exact hfits ρ

/-- One axis is aligned with a target, and then the rest. -/
theorem alignAxes_cons {target : Shape} {offset : Nat} {done rest : List AxisRange}
    {range : AxisRange} {view aligned : View} {equalities : List Equality}
    (hv : view.WellFormed) (hi : view.Integral) (hshown : view.shown = done ++ range :: rest)
    (h : alignAxes target offset done.length ((range :: rest).map AxisRange.length) view =
      .ok (aligned, equalities)) :
    ∃ dim next middle first others, target[offset + done.length]? = some dim ∧
      dim.Aligns range next first ∧ middle.WellFormed ∧ middle.Integral ∧
      middle.shown = done ++ next :: rest ∧
      alignAxes target offset (done.length + 1) (rest.map AxisRange.length) middle =
        .ok (aligned, others) ∧ equalities = first ++ others := by
  simp only [List.map_cons, alignAxes, bind_eq_ok, expansionSize_eq_ok] at h
  obtain ⟨own, ⟨dim, hdim, hown⟩, h⟩ := h
  cases own with
  | none =>
      simp only [bind_eq_ok, pure_eq_ok, exists_eq_left', Prod.mk.injEq] at h
      obtain ⟨⟨_, others⟩, hothers, rfl, rfl⟩ := h
      exact ⟨dim, range, view, [], others, hdim, .anonymous hown, hv, hi, hshown, hothers, rfl⟩
  | some size =>
      simp only at h
      split at h
      · next hunit =>
        simp only [bind_eq_ok, pure_eq_ok, exists_eq_left', Prod.mk.injEq] at h
        obtain ⟨middle, hmiddle, ⟨_, others⟩, hothers, rfl, rfl⟩ := h
        have hsize := (Dimension.fits_of_size hown).1
        have haxis : done.length < view.rank := by
          rw [← hv.length_shown, hshown]
          simp
        obtain ⟨hw, _, hset⟩ := View.broadcastAxis_ok hv haxis hsize hmiddle
        refine ⟨dim, .whole size true, middle, [], others, hdim, .repeated hown hunit, hw,
          View.broadcastAxis_integral hv hi haxis hsize hmiddle, ?_, hothers, rfl⟩
        rw [hset, hshown]
        simp
      · next hunit =>
        simp only [bind_eq_ok, pure_eq_ok, exists_eq_left', Prod.mk.injEq] at h
        obtain ⟨first, hfirst, ⟨_, others⟩, hothers, rfl, rfl⟩ := h
        exact ⟨dim, range, view, first, others, hdim, .kept hown hunit hfirst, hv, hi, hshown,
          hothers, rfl⟩

variable [Unbounded]

/-- Where the recorded equalities hold, the aligned axes have the sizes of the
target, and only axes of size one have changed theirs. -/
theorem alignAxes_ok {target : Shape} {offset : Nat} {done rest : List AxisRange}
    {view aligned : View} {equalities : List Equality} (hv : view.WellFormed)
    (hi : view.Integral) (hshown : view.shown = done ++ rest)
    (hcount : offset + done.length + rest.length = target.length)
    (h : alignAxes target offset done.length (rest.map AxisRange.length) view =
      .ok (aligned, equalities)) :
    aligned.WellFormed ∧ aligned.Integral ∧ (∀ e ∈ equalities, e.Integral) ∧
      ∃ kept, aligned.shown = done ++ kept ∧ ∀ ρ, (∀ e ∈ equalities, e.Holds ρ) →
        List.Forall₂ Repeats (rest.map (AxisRange.extent ρ)) (kept.map (AxisRange.extent ρ)) ∧
        Shape.Fits ρ (target.drop (offset + done.length)) (kept.map (AxisRange.extent ρ)) := by
  induction rest generalizing done view equalities with
  | nil =>
      obtain ⟨rfl, rfl⟩ := Prod.mk.inj (Except.ok.inj h)
      refine ⟨hv, hi, by simp, [], hshown, fun ρ _ => ⟨.nil, ?_⟩⟩
      rw [List.drop_of_length_le (by simp at hcount; omega)]
      exact .nil
  | cons range rest ih =>
      obtain ⟨dim, next, middle, first, others, hdim, haligns, hmv, hmi, hmshown, hothers, rfl⟩ :=
        alignAxes_cons hv hi hshown h
      obtain ⟨hfirst, hnext⟩ := haligns.fits (hi.of_mem_shown (by simp [hshown]))
      have hshown' : middle.shown = (done ++ [next]) ++ rest := by simp [hmshown]
      obtain ⟨hav, hai, hrest, kept, hkept, hall⟩ := ih hmv hmi hshown'
        (by simp at hcount ⊢; omega) (by simpa using hothers)
      refine ⟨hav, hai, List.forall_mem_append.mpr ⟨hfirst, hrest⟩, next :: kept,
        by simp [hkept], fun ρ hequal => ?_⟩
      obtain ⟨hthis, hthose⟩ := List.forall_mem_append.mp hequal
      obtain ⟨hrepeats, hfits⟩ := hnext ρ hthis
      obtain ⟨hsame, hshape⟩ := hall ρ hthose
      obtain ⟨hlt, rfl⟩ := List.getElem?_eq_some_iff.mp hdim
      refine ⟨.cons hrepeats hsame, ?_⟩
      rw [List.drop_eq_getElem_cons hlt]
      refine .cons hfits ?_
      rwa [List.length_append, List.length_singleton, ← Nat.add_assoc] at hshape

/-- An expansion to a shape meets its contract where the recorded equalities hold, or is
refused. -/
theorem expandTo_effect (hg : g.WellFormed) (ht : g.Issued t) (target : Shape) :
    Effect g ((Build.expandTo t target).perform g).1 ((Build.expandTo t target).perform g).2 := by
  refine (Build.expandTo_derives t target).effect fun found inputs hinputs => ?_
  obtain ⟨⟨node, lengths, hnode, hlengths⟩, aligned, view, equalities, hrank, _, haligned, hview,
    hviewRank⟩ := found
  have hop := ht.operand hg hnode
  have hinput := inputs_eq (.cons hop.behind .nil) hinputs
  obtain rfl := View.eq_of_lengths hop.wellFormed hlengths
  have hcount : node.view.shown.length = t.rank := hop.wellFormed.length_shown.trans hop.rank_eq
  have hoffset : target.length - t.rank + 0 + node.view.shown.length = target.length := by omega
  have hshown : node.view.shown = [] ++ node.view.shown := rfl
  obtain ⟨hav, hai, he, kept, hkept, hall⟩ :=
    alignAxes_ok hop.wellFormed hop.integral hshown hoffset haligned
  obtain ⟨hwell, hintegral, leading, hleading, hlead⟩ := leadAxes_ok hav hai hview
  have hextent : ∀ ρ, view.extent ρ =
      leading.map (AxisRange.extent ρ) ++ kept.map (AxisRange.extent ρ) := fun ρ => by
    rw [View.extent, hleading, hkept, List.nil_append, List.map_append]
  have hwithin := (leadAxes_within hview).trans (alignAxes_within haligned)
  refine .of_extent hwell hintegral hviewRank (inputs_lt hg hinputs)
    (Equality.forall_mem_pending.mpr he) (Draft.stores_of_within hop rfl hinput hwithin) hextent
    fun ρ hρ hequal => ?_
  obtain ⟨hrepeats, hfits⟩ := hall ρ (Equality.forall_mem_pending.mp hequal)
  refine ⟨?_, node.view.extent ρ, ?_, .inr ⟨rfl, _, _, rfl, hrepeats⟩⟩
  · show Shape.Fits ρ target _
    rw [← List.take_append_drop (target.length - t.rank) target]
    exact (Shape.fits_of_leads hlead ρ).append hfits
  · rw [hinput, List.map_singleton, List.map_singleton, hop.extentAt_eq]

end

end ShapeGraph
