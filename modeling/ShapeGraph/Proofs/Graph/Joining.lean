import ShapeGraph.Proofs.Graph.Gain
import ShapeGraph.Proofs.View.Acceptance

/-!
# Tensors joined and cut along an axis

A join lays out storage for two tensors that agree off one axis, on which it is as long as
both together.  A slice that specifies one axis narrows that axis by the span that is meant,
and leaves the extent of every other axis as it is.

* `Session.Joins`, `extend_concat` — what a join that succeeds has found and made;
* `RangeSpec.only` — the specification of one axis alone;
* `extend_slice_succeeds` — a slice succeeds if every range takes the span that is meant;
* `extend_slice_only` — what a slice of one axis shows.
-/

namespace ShapeGraph

open ShapeGraph.Numeric (Arithmetic Number Unbounded)

/-! ## Specifications of one axis -/

namespace RangeSpec

/-- The specification of one axis alone; the other axes are kept whole. -/
def only (axis rank : Nat) (spec : RangeSpec) : List RangeSpec :=
  (List.replicate rank .full).set axis spec

variable {axis other rank : Nat} {spec : RangeSpec}

@[simp] theorem length_only : (only axis rank spec).length = rank := by
  simp [only]

/-- The axis has its specification, if it is one of the rank. -/
theorem only_self (h : axis < rank) : (only axis rank spec)[axis]?.getD .full = spec := by
  simp [only, h]

/-- The other axes are kept whole. -/
theorem only_of_ne (h : other ≠ axis) : (only axis rank spec)[other]?.getD .full = .full := by
  rw [only, List.getElem?_set_ne (Ne.symm h), List.getElem?_replicate]
  split <;> rfl

/-- One range of integers and full ranges are ranges of integers. -/
theorem only_integral (h : spec.Integral) : ∀ held ∈ only axis rank spec, held.Integral := by
  intro held hheld
  rcases List.mem_or_eq_of_mem_set hheld with hfull | rfl
  · rw [List.eq_of_mem_replicate hfull]
    exact ⟨trivial, trivial⟩
  · exact h

/-- The full range of an axis goes from zero to its length. -/
theorem span_full [Arithmetic] (length : Size) (sentinel : Number) :
    full.span (some length) sentinel = .ok ⟨.zero, length⟩ := rfl

end RangeSpec

/-- The axes of a shape are mapped if each of them has a span that is meant. -/
theorem mapAxes_succeeds [Arithmetic] {sentinel : Number} {dims : Shape} {specs : List RangeSpec}
    {lengths : List Size} (hcount : lengths.length = dims.length)
    (h : ∀ (axis : Nat) (length : Size), lengths[axis]? = some length →
      ∃ span, (specs[axis]?.getD .full).span (some length) sentinel = .ok span) :
    ∃ mapping, mapAxes sentinel dims specs (lengths.map some) = .ok mapping := by
  induction dims generalizing specs lengths with
  | nil => exact ⟨_, rfl⟩
  | cons dim dims ih =>
      obtain ⟨length, lengths, rfl⟩ := List.exists_cons_of_length_eq_add_one hcount
      obtain ⟨span, hspan⟩ := h 0 length rfl
      have hrest : ∀ (axis : Nat) (held : Size), lengths[axis]? = some held →
          ∃ span, (specs.tail[axis]?.getD .full).span (some held) sentinel = .ok span := by
        intro axis held hheld
        rw [List.getElem?_tail]
        exact h (axis + 1) held hheld
      obtain ⟨rest, hmapped⟩ := ih (by simpa using hcount) hrest
      rw [← List.head?_eq_getElem?] at hspan
      simp only [mapAxes, List.map_cons, List.head?_cons, Option.join_some, List.tail_cons,
        bind_eq_ok, pure_eq_ok, Except.ok.injEq, exists_eq_left']
      exact ⟨_, span, hspan, rest, hmapped, rfl⟩

section

variable [Arithmetic] [Unbounded] {range : AxisRange} {size : Size} {span : Span} {ρ : Valuation}

/-- A range that is not reversed takes the span of all of it. -/
theorem AxisRange.takes_full (hrange : range.Integral) (h : range.Proper ρ) :
    range.Takes ⟨.zero, range.length⟩ := by
  have hlength := length_means hrange
  have hproper := h.start_le_stop
  have hend : range.start.value ρ + range.length.value ρ = range.stop.value ρ := by
    rw [hlength.value_eq, extent]
    omega
  apply takes_of_value hrange Size.means_zero.integral hlength.integral
  · show 0 ≤ Size.zero.value ρ
    exact Int.le_refl 0
  · show 0 ≤ range.length.value ρ
    omega
  · show range.start.value ρ + 0 ≤ min (range.start.value ρ + range.length.value ρ) _
    omega

/-- What a span leaves of a whole axis. -/
theorem View.concrete_narrow_whole (hsize : size.Integral) (hstart : span.start.Integral)
    (hstop : span.stop.Integral) (broadcast : Bool) :
    (narrow (.whole size broadcast) span).concrete ρ = ⟨.int (span.start.value ρ),
      .int (min (span.stop.value ρ) (size.value ρ)), broadcast⟩ := by
  have hfirst := Size.add_means Size.means_zero hstart.means
  have hlast := Size.min_means (Size.add_means Size.means_zero hstop.means) hsize.means
  show ConcreteRange.mk (.int (Size.value ρ _)) (.int (Size.value ρ _)) _ = _
  rw [narrow, AxisRange.whole, hfirst.value_eq, hlast.value_eq, Int.zero_add, Int.zero_add]

end

/-! ## Slices that are called -/

/-- A slice that finds what it is made of appends it. -/
theorem Build.slice_found [Arithmetic] {g : Graph} {t : Tensor} {specs : List RangeSpec}
    (found : Found.Slice g t specs) : (slice t specs).perform g =
      (.ok (handle g found.draft.shape), g.append found.draft [found.node.id]) := by
  have hinputs : found.draft.inputs.mapM (g.inputId .slice) = .ok [found.node.id] :=
    inputs_ok (.cons found.behind .nil)
  refine perform_derive_ok ?_ hinputs
  simp only [found.node_eq, found.lengths_eq, found.mapping_eq, found.view_eq, bind_eq_ok,
    pure_eq_ok, Except.ok.injEq, exists_eq_left', Draft.start_eq_ok]
  refine ⟨_, ⟨found.rank_eq, rfl⟩, ?_⟩
  rw [Draft.setAttribute_of_ne (by decide)]
  rfl

namespace Session

variable [Arithmetic] {s s' : Session} {place axis : Nat} {t : Tensor} {node : Node}
  {specs : List RangeSpec} {spec : RangeSpec} {range : AxisRange} {span : Span} {ρ : Valuation}

/-- **A slice succeeds** if every range takes the span that is meant for it. -/
theorem extend_slice_succeeds (ht : s.issued[place]? = some t) (hop : s.graph.Operand t node)
    (hcount : specs.length ≤ t.rank)
    (h : ∀ (axis : Nat) (range : AxisRange), node.view.shown[axis]? = some range →
      ∃ span, (specs[axis]?.getD .full).span (some range.length) defaultSentinel = .ok span ∧
        range.Takes span) :
    ∃ s', s.extend (.slice place specs) = .ok s' := by
  have hrank : (node.view.shown.map AxisRange.length).length = t.shape.length := by
    rw [List.length_map, hop.wellFormed.length_shown]
    exact hop.rank_eq
  have hspans : ∀ (axis : Nat) (length : Size),
      (node.view.shown.map AxisRange.length)[axis]? = some length →
        ∃ span, (specs[axis]?.getD .full).span (some length) defaultSentinel = .ok span := by
    intro axis length hlength
    rw [List.getElem?_map] at hlength
    obtain ⟨range, hrange, rfl⟩ := Option.map_eq_some_iff.mp hlength
    obtain ⟨span, hspan, _⟩ := h axis range hrange
    exact ⟨span, hspan⟩
  obtain ⟨mapping, hmapping⟩ := mapAxes_succeeds hrank hspans
  have htakes : ∀ (axis : Nat) (span : Span), mapping.spans[axis]? = some span →
      ∃ range, node.view.shown[axis]? = some range ∧ range.Takes span := by
    intro axis span hspan
    obtain ⟨hlength, hmapped⟩ := mapAxes_at hrank hmapping axis
    have hlt : axis < node.view.shown.length := by
      have haxis : axis < mapping.spans.length := (List.getElem?_eq_some_iff.mp hspan).1
      rwa [hlength, List.length_map] at haxis
    have hrange := List.getElem?_eq_getElem hlt
    obtain ⟨meant, hmeant, htakes⟩ := h axis _ hrange
    obtain ⟨held, hheld, hmapped⟩ := hmapped _ (by rw [List.getElem?_map, hrange]; rfl)
    obtain rfl := Option.some.inj (hspan.symm.trans hheld)
    obtain rfl := Except.ok.inj (hmeant.symm.trans hmapped)
    exact ⟨_, hrange, htakes⟩
  obtain ⟨view, hview⟩ := (View.slice_succeeds_iff hop.wellFormed).mpr htakes
  have hshape : view.rank = mapping.shape.length := by
    rw [(View.slice_ok hop.wellFormed hview).2.1, hop.rank_eq, mapAxes_shape hmapping]
    exact List.length_mapIdx.symm
  have hfits : ¬ specs.length > t.shape.length := Nat.not_lt.mpr hcount
  have hmapped : mapSlice t.shape specs ((node.view.shown.map AxisRange.length).map some)
      defaultSentinel = .ok mapping := by
    rw [mapSlice, if_neg hfits]
    exact hmapping
  let found : Found.Slice s.graph t specs :=
    ⟨⟨node, _, Graph.check_eq_ok.mpr hop.behind, View.lengths_eq hop.wellFormed⟩, mapping, view,
      hmapped, hview, hshape⟩
  have hperform : (Command.step s.issued (.slice place specs)).perform s.graph =
      (.ok (Build.handle s.graph found.draft.shape), s.graph.append found.draft [node.id]) := by
    rw [Command.step, Command.operand, Build.perform_read_bind (by rw [ht])]
    exact Build.slice_found found
  exact ⟨_, extend_eq_ok.mpr ⟨_, _, hperform, rfl⟩⟩

variable [Unbounded]

/-- A slice of one axis succeeds if the range takes the span that is meant, and no other range
is reversed. -/
theorem extend_slice_only_succeeds (ht : s.issued[place]? = some t)
    (hop : s.graph.Operand t node) (hproper : ∀ range ∈ node.view.shown, range.Proper ρ)
    (hrange : node.view.shown[axis]? = some range)
    (hspan : spec.span (some range.length) defaultSentinel = .ok span)
    (htakes : range.Takes span) :
    ∃ s', s.extend (.slice place (RangeSpec.only axis t.rank spec)) = .ok s' := by
  refine extend_slice_succeeds ht hop (Nat.le_of_eq RangeSpec.length_only) ?_
  intro other held hheld
  have hlt : other < t.rank := by
    rw [← hop.rank_eq, ← hop.wellFormed.length_shown]
    exact (List.getElem?_eq_some_iff.mp hheld).1
  have hmem := List.mem_of_getElem? hheld
  by_cases hother : other = axis
  · subst hother
    obtain rfl := Option.some.inj (hrange.symm.trans hheld)
    rw [RangeSpec.only_self hlt]
    exact ⟨span, hspan, htakes⟩
  · rw [RangeSpec.only_of_ne hother]
    exact ⟨_, RangeSpec.span_full _ _,
      AxisRange.takes_full (hop.integral.of_mem_shown hmem) (hproper held hmem)⟩

/-- **A slice of one axis** narrows that axis, and leaves the extent of the others. -/
theorem extend_slice_only (hs : s.WellFormed) (ht : s.issued[place]? = some t)
    (hbehind : s.graph.Behind t node) (hspec : spec.Integral)
    (hrange : node.view.shown[axis]? = some range)
    (hspan : spec.span (some range.length) defaultSentinel = .ok span)
    (h : s.extend (.slice place (RangeSpec.only axis t.rank spec)) = .ok s') :
    ∃ view, s.Gains s' view ∧ view.shown[axis]? = some (View.narrow range span) ∧
      ∀ ρ, view.extent ρ = (node.view.extent ρ).set axis ((View.narrow range span).extent ρ) := by
  obtain ⟨u, other, mapping, view, hu, hop, _, hmapping, _, hview, hgains⟩ :=
    extend_slice hs (RangeSpec.only_integral hspec) h
  obtain rfl := Option.some.inj (ht.symm.trans hu)
  obtain rfl := hbehind.unique hop.behind
  obtain ⟨hwell, hrank, _⟩ := View.slice_ok hop.wellFormed hview
  have haxis : axis < t.rank := by
    rw [← hop.rank_eq, ← hop.wellFormed.length_shown]
    exact (List.getElem?_eq_some_iff.mp hrange).1
  have hat : view.shown[axis]? = some (View.narrow range span) := by
    obtain ⟨held, hmeant, hheld⟩ := slice_shown hop hmapping hview hrange
    rw [RangeSpec.only_self haxis] at hmeant
    rw [hheld, Except.ok.inj (hspan.symm.trans hmeant)]
  refine ⟨view, hgains, hat, fun ρ => List.ext_getElem? fun j => ?_⟩
  rw [List.getElem?_set, View.extent, View.extent, List.getElem?_map, List.getElem?_map]
  by_cases hj : axis = j
  · subst hj
    rw [if_pos rfl, hat, List.length_map, hop.wellFormed.length_shown, hop.rank_eq, if_pos haxis]
    rfl
  · rw [if_neg hj]
    cases hheld : node.view.shown[j]? with
    | none =>
        have hnone : view.shown[j]? = none := by
          rw [List.getElem?_eq_none_iff, hwell.length_shown, hrank, ← hop.wellFormed.length_shown]
          exact List.getElem?_eq_none_iff.mp hheld
        rw [hnone, Option.map_none]
    | some held =>
        obtain ⟨whole, hmeant, hshown⟩ := slice_shown hop hmapping hview hheld
        rw [RangeSpec.only_of_ne (Ne.symm hj), RangeSpec.span_full] at hmeant
        obtain rfl := Except.ok.inj hmeant
        have hi := hop.integral.of_mem_shown (List.mem_of_getElem? hheld)
        rw [hshown, Option.map_some, Option.map_some, AxisRange.extent_narrow_full hi]

/-! ## Joins -/

/-- What a join has found and made: two operands with their lengths on the axis, and storage
with the sizes of the first one but for the axis, on which the lengths add up. -/
structure Joins (s s' : Session) (a b : Tensor) (x y : Node) (axis : Nat) (left right : Size)
    (sizes : List Size) : Prop where
  first : s.graph.Operand a x
  second : s.graph.Operand b y
  left_integral : left.Integral
  sizes_integral : ∀ size ∈ sizes, size.Integral
  gains : s.Gains s' (.contiguous sizes)
  first_at : ∀ ρ, (x.view.extent ρ)[axis]? = some (left.value ρ)
  second_at : ∀ ρ, (y.view.extent ρ)[axis]? = some (right.value ρ)
  values : ∀ ρ, sizes.map (Size.value ρ) =
    (x.view.extent ρ).set axis (left.value ρ + right.value ρ)
  agree : ∀ ρ, s'.graph.Holds ρ → y.view.extent ρ = (x.view.extent ρ).set axis (right.value ρ)

/-- **A join that succeeds** has found two operands that agree off the axis wherever the
recorded equalities hold. -/
theorem extend_concat (hs : s.WellFormed) {i j : Nat} {number : Number}
    (h : s.extend (.concat i j number) = .ok s') :
    ∃ a b x y position lengths left right sizes, s.issued[i]? = some a ∧
      s.issued[j]? = some b ∧ Axis.position "concat" number a.rank = .ok position ∧
      s.graph.lengths a = .ok lengths ∧ lengths[position]? = some left ∧
      s.Joins s' a b x y position left right sizes := by
  obtain ⟨u, g, hperform, hs'⟩ := extend_eq_ok.mp h
  obtain ⟨a, ha, hperform⟩ := Command.operand_eq_ok hperform
  obtain ⟨b, hb, hperform⟩ := Command.operand_eq_ok hperform
  obtain ⟨found, inputs, _, rfl, rfl⟩ := (Build.concat_derives a b number).of_ok hperform
  have hopa := (hs.issued a (List.mem_of_getElem? ha)).operand hs.graph found.first_eq
  have hopb := (hs.issued b (List.mem_of_getElem? hb)).operand hs.graph found.second_eq
  have hleft := hopa.graph_lengths_ok found.left_eq
  have hright := hopb.graph_lengths_ok found.right_eq
  have hrank : found.left.length = found.right.length := by
    rw [hopa.length_lengths hleft, hopb.length_lengths hright]
    exact found.ranks_eq
  have hlt : found.position < found.left.length := by
    rw [hopa.length_lengths hleft]
    exact Axis.position_lt found.position_eq
  have hl : found.left[found.position]? = some found.left[found.position] :=
    List.getElem?_eq_getElem hlt
  obtain ⟨right, hr, hsizes, hvalues⟩ :=
    joinedSizes_ok hleft.integral hright.integral hl found.sizes_eq
  have hc : (Command.concat i j number).Integral := trivial
  refine ⟨a, b, found.first, found.second, found.position, found.left, _, right, found.sizes, ha,
    hb, found.position_eq, found.left_eq, hl, hopa, hopb,
    hleft.integral _ (List.mem_of_getElem? hl), hsizes,
    .of_append hs hc h hs' (View.contiguous_integral hsizes), ?_, ?_, ?_, ?_⟩
  · intro ρ
    rw [← hleft.values, List.getElem?_map, hl]
    rfl
  · intro ρ
    rw [← hright.values, List.getElem?_map, hr]
    rfl
  · intro ρ
    rw [hvalues, hleft.values]
  · intro ρ hρ
    rw [hs'] at hρ
    have hall := Equality.forall_mem_pending.mp (Graph.holds_append.mp hρ).2
    refine List.ext_getElem? fun k => ?_
    rw [← hleft.values, ← hright.values, List.getElem?_set, List.getElem?_map, List.getElem?_map,
      List.length_map]
    by_cases hk : found.position = k
    · rw [← hk, if_pos rfl, if_pos hlt, hr]
      rfl
    · rw [if_neg hk]
      exact (joinEqualities_agree hleft.integral hright.integral hrank found.equalities_eq hall
        (Ne.symm hk)).symm

end Session

end ShapeGraph
