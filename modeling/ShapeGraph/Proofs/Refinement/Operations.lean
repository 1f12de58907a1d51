import ShapeGraph.Proofs.Graph.Movement
import ShapeGraph.Proofs.Refinement.Match

/-!
# Operations on sizes that are bound

Each operation goes through on sizes that are ready if it does on the literals
that they are the values of.  Its checks are about ranks, which are the same on
both sides, or about literals, of which there are fewer on the side of the sizes.
What a check is not made about there is recorded, and it is met.

* `mapSlice_follows`, `targetAxes_follows`, `pairEqualities_follows`,
  `joinEqualities_follows`, `batchEqualities_follows` — what the operations are
  derived from;
* `newTensor_advances`, `slice_advances`, … — one lemma for each operation.
-/

namespace ShapeGraph

open ShapeGraph.Numeric (Arithmetic Number Unbounded)

variable {known : String → Prop} {ρ : Valuation}

/-! ## Sizes on an axis -/

/-- A size that is ready on one side, and the literal of it on the other. -/
structure SizeMatch (known : String → Prop) (ρ : Valuation) (size other : Size) : Prop where
  ready : size.Ready known ρ
  eq : other = size.ground ρ

namespace SizesMatch

variable {sizes others : List Size}

/-- The length that is looked up matches, and is not negative. -/
theorem lengthAt_follows (h : SizesMatch known ρ sizes others) (axis : Nat)
    (operation : String) :
    Follows (fun size other => SizeMatch known ρ size other ∧ 0 ≤ size.value ρ)
      (lengthAt sizes axis operation) (lengthAt others axis operation) := by
  intro other hother
  rw [lengthAt_eq_ok, h.eq, List.getElem?_map, Option.map_eq_some_iff] at hother
  obtain ⟨size, hsize, rfl⟩ := hother
  have hmem := List.mem_of_getElem? hsize
  exact ⟨size, lengthAt_eq_ok.mpr hsize, ⟨h.ready size hmem, rfl⟩, h.nonneg size hmem⟩

/-- Sizes still match with one more size in front that matches. -/
theorem cons {size other : Size} (hsize : SizeMatch known ρ size other)
    (hnonneg : 0 ≤ size.value ρ) (h : SizesMatch known ρ sizes others) :
    SizesMatch known ρ (size :: sizes) (other :: others) where
  ready := List.forall_mem_cons.mpr ⟨hsize.ready, h.ready⟩
  nonneg := List.forall_mem_cons.mpr ⟨hnonneg, h.nonneg⟩
  eq := by rw [hsize.eq, h.eq, List.map_cons]

theorem nil : SizesMatch known ρ [] [] := ⟨by simp, by simp, rfl⟩

/-- Sizes that match do so one by one, and none of them is negative. -/
theorem of_cons {size : Size} (h : SizesMatch known ρ (size :: sizes) others) :
    size.Ready known ρ ∧ 0 ≤ size.value ρ ∧
      ∃ rest, others = size.ground ρ :: rest ∧ SizesMatch known ρ sizes rest := by
  obtain ⟨hready, hnonneg, rfl⟩ := h
  obtain ⟨hsize, hrest⟩ := List.forall_mem_cons.mp hready
  obtain ⟨hsize', hrest'⟩ := List.forall_mem_cons.mp hnonneg
  exact ⟨hsize, hsize', _, rfl, hrest, hrest', rfl⟩

theorem removeAt (h : SizesMatch known ρ sizes others) (axis : Nat) :
    SizesMatch known ρ (Axis.removeAt sizes axis) (Axis.removeAt others axis) where
  ready s hs := h.ready s (Axis.mem_of_mem_removeAt hs)
  nonneg s hs := h.nonneg s (Axis.mem_of_mem_removeAt hs)
  eq := by rw [h.eq, Axis.map_removeAt]

/-- Sizes still match when those of one axis are replaced by others that match. -/
theorem set (h : SizesMatch known ρ sizes others) (axis : Nat) {size other : Size}
    (hsize : SizeMatch known ρ size other) (hnonneg : 0 ≤ size.value ρ) :
    SizesMatch known ρ (sizes.set axis size) (others.set axis other) where
  ready s hs := by
    rcases List.mem_or_eq_of_mem_set hs with hs | rfl
    · exact h.ready s hs
    · exact hsize.ready
  nonneg s hs := by
    rcases List.mem_or_eq_of_mem_set hs with hs | rfl
    · exact h.nonneg s hs
    · exact hnonneg
  eq := by rw [h.eq, hsize.eq, List.map_set]

/-- Sizes still match when the last ones are replaced by others that match. -/
theorem dropLast_append (h : SizesMatch known ρ sizes others) {size other : Size}
    (hsize : SizeMatch known ρ size other) (hnonneg : 0 ≤ size.value ρ) :
    SizesMatch known ρ (sizes.dropLast ++ [size]) (others.dropLast ++ [other]) where
  ready := List.forall_mem_append.mpr
    ⟨fun s hs => h.ready s (List.dropLast_subset _ hs), by simpa using hsize.ready⟩
  nonneg := List.forall_mem_append.mpr
    ⟨fun s hs => h.nonneg s (List.dropLast_subset _ hs), by simpa using hnonneg⟩
  eq := by rw [h.eq, hsize.eq, List.map_append, List.map_dropLast, List.map_singleton]

/-- Sizes still match once their undefined numbers have owners: there are none. -/
theorem pinned (h : SizesMatch known ρ sizes others) :
    SizesMatch known ρ (Size.pinned sizes) (Size.pinned others) := by
  have hothers : ∀ s ∈ others, s.Integral := by
    rw [h.eq]
    exact List.forall_mem_map.mpr fun s _ => ⟨_, rfl⟩
  rw [Size.pinned_of_integral fun s hs => (h.ready s hs).integral,
    Size.pinned_of_integral hothers]
  exact h

end SizesMatch

section

variable {left right left' right' : List Size}

/-! ## Equalities of operands -/

/-- Operands are equal on all axes if their literals are, and what is recorded is met. -/
theorem pairEqualities_follows (operation : String) (hl : SizesMatch known ρ left left')
    (hr : SizesMatch known ρ right right') (axis : Nat) :
    Follows (EqualitiesMatch known ρ) (pairEqualities operation right axis left)
      (pairEqualities operation right' axis left') := by
  induction left generalizing left' axis with
  | nil =>
      obtain rfl := hl.eq
      exact .ok .nil
  | cons length rest ih =>
      obtain ⟨hlength, _, others, rfl, hrest⟩ := hl.of_cons
      refine .bind (hr.lengthAt_follows axis operation) ?_
      rintro other _ ⟨⟨hother, rfl⟩, _⟩
      refine .bind (requireEqual_follows hlength hother) fun _ _ hfirst => ?_
      exact .bind (ih hrest (axis + 1)) fun _ _ hothers => .ok (hfirst.append hothers)

/-- Batch axes are equal if their literals are, and what is recorded is met. -/
theorem batchEqualities_follows (hl : SizesMatch known ρ left left')
    (hr : SizesMatch known ρ right right') (axis count : Nat) :
    Follows (EqualitiesMatch known ρ) (batchEqualities left right axis count)
      (batchEqualities left' right' axis count) := by
  induction count generalizing axis with
  | zero => exact .ok .nil
  | succ count ih =>
      refine .bind (hl.lengthAt_follows axis "matmul") ?_
      rintro l _ ⟨⟨hleft, rfl⟩, _⟩
      refine .bind (hr.lengthAt_follows axis "matmul") ?_
      rintro r _ ⟨⟨hright, rfl⟩, _⟩
      refine .bind (requireEqual_follows hleft hright) fun _ _ hfirst => ?_
      exact .bind (ih (axis + 1)) fun _ _ hothers => .ok (hfirst.append hothers)

/-- Joined operands are equal on the other axes if their literals are, and what is recorded is
met. -/
theorem joinEqualities_follows (joined : Nat) (hl : SizesMatch known ρ left left')
    (hr : SizesMatch known ρ right right') (axis : Nat) :
    Follows (EqualitiesMatch known ρ) (joinEqualities joined right axis left)
      (joinEqualities joined right' axis left') := by
  induction left generalizing left' axis with
  | nil =>
      obtain rfl := hl.eq
      exact .ok .nil
  | cons length rest ih =>
      obtain ⟨hlength, _, others, rfl, hrest⟩ := hl.of_cons
      unfold joinEqualities
      split
      · exact .ok_bind (.bind (ih hrest (axis + 1)) fun _ _ hothers =>
          .ok (EqualitiesMatch.nil.append hothers))
      · refine .bind (hr.lengthAt_follows axis "concat") ?_
        rintro other _ ⟨⟨hother, rfl⟩, _⟩
        refine .bind (requireEqual_follows hlength hother) fun _ _ hfirst => ?_
        exact .bind (ih hrest (axis + 1)) fun _ _ hothers => .ok (hfirst.append hothers)

/-! ## Joined axes -/

/-- Joined sizes match. -/
theorem joinedSizes_follows [Arithmetic] [Unbounded] (hl : SizesMatch known ρ left left')
    (hr : SizesMatch known ρ right right') (joined : Nat) :
    Follows (SizesMatch known ρ) (joinedSizes left right joined)
      (joinedSizes left' right' joined) := by
  unfold joinedSizes
  rw [hl.eq, List.getElem?_map]
  cases hlength : left[joined]? with
  | none =>
      rw [← hl.eq]
      exact .ok hl
  | some length =>
      have hmem := List.mem_of_getElem? hlength
      have hready := hl.ready length hmem
      rw [← hl.eq]
      refine .bind (hr.lengthAt_follows joined "concat") ?_
      rintro other _ ⟨⟨hother, rfl⟩, hnonneg⟩
      refine .ok (hl.set joined ⟨hready.add hother, ?_⟩ ?_)
      · exact Size.ground_add hready.integral hother.integral
      · rw [(Size.add_means hready.integral.means hother.integral.means).value_eq]
        exact Int.add_nonneg (hl.nonneg length hmem) hnonneg

end

/-- The dimension of a joined axis is constant only if it is on both sides. -/
theorem joinedDimension_follows [Arithmetic] {a b a' b' : Dimension} (ha : a.Matches a')
    (hb : b.Matches b') :
    Follows Dimension.Matches (joinedDimension a b) (joinedDimension a' b') := by
  unfold joinedDimension
  split
  · next m n =>
    obtain rfl := ha
    obtain rfl := hb
    refine (Follows.self _).mono fun joined _ ⟨heq, hjoined⟩ => ?_
    obtain rfl := heq
    simp only [Dimension.ofNumber, ite_ok_eq_ok] at hjoined
    rw [← hjoined.2]
    rfl
  · exact fun joined _ => ⟨.anonymous, rfl, trivial⟩

/-! ## Ranges -/

/-- What is meant on one side is ready, and what is meant on the other is the
literal of it. -/
def Quantity.Matches (known : String → Prop) (ρ : Valuation) (q q' : Quantity) : Prop :=
  Follows (SizeMatch known ρ) q.toSize q'.toSize

/-- Two bounds of the same form on quantities that match. -/
def Bound.Matches (known : String → Prop) (ρ : Valuation) : Bound → Bound → Prop
  | included q, included q' => q.Matches known ρ q'
  | excluded q, excluded q' => q.Matches known ρ q'
  | unbounded, unbounded => True
  | _, _ => False

/-- Two ranges with bounds that match, either both or neither of them full. -/
structure RangeSpec.Matches (known : String → Prop) (ρ : Valuation) (spec spec' : RangeSpec) :
    Prop where
  isFull_eq : spec.isFull = spec'.isFull
  lower : spec.bounds.1.Matches known ρ spec'.bounds.1
  upper : spec.bounds.2.Matches known ρ spec'.bounds.2

/-- A specification leaves dimensions that match. -/
theorem RangeSpec.Matches.dimension {spec spec' : RangeSpec} (h : spec.Matches known ρ spec')
    {dim dim' : Dimension} (hdim : dim.Matches dim') :
    (spec.dimension dim).Matches (spec'.dimension dim') := by
  unfold RangeSpec.dimension
  rw [h.isFull_eq]
  split
  · exact hdim
  · trivial

/-- Two slices whose spans and shapes match. -/
structure MappingsMatch (known : String → Prop) (ρ : Valuation) (m m' : SliceMapping) :
    Prop where
  spans : SpansMatch known ρ m.spans m'.spans
  shapes : ShapesMatch m.shape m'.shape

section

variable [Arithmetic] [Unbounded]

/-- Sizes that match still do when one is added to both. -/
theorem SizeMatch.succ {size other : Size} (h : SizeMatch known ρ size other) :
    SizeMatch known ρ (size.add .one) (other.add .one) where
  ready := h.ready.add Size.ready_one
  eq := by
    rw [h.eq, ← Size.ground_add h.ready.integral Size.means_one.integral, Size.ground_one]

namespace Bound.Matches

variable {bound bound' : Bound}

/-- Lower bounds that match start at sizes that match. -/
theorem start_follows (h : bound.Matches known ρ bound') :
    Follows (SizeMatch known ρ) bound.start bound'.start := by
  cases bound <;> cases bound' <;> try cases h
  · exact h
  · exact .bind h fun _ _ hs => .ok hs.succ
  · exact .ok ⟨Size.ready_zero, rfl⟩

/-- Upper bounds that match stop at sizes that match. -/
theorem stop_follows (h : bound.Matches known ρ bound') {length length' : Size}
    (hlength : SizeMatch known ρ length length') (sentinel : Number) :
    Follows (SizeMatch known ρ) (bound.stop (some length) sentinel)
      (bound'.stop (some length') sentinel) := by
  cases bound <;> cases bound' <;> try cases h
  · exact .bind h fun _ _ hs => .ok hs.succ
  · exact h
  · exact .ok hlength

end Bound.Matches

/-- Specifications that match come to a span that is ready and to the literals of it. -/
theorem RangeSpec.Matches.span_follows {spec spec' : RangeSpec}
    (h : spec.Matches known ρ spec') {length length' : Size}
    (hlength : SizeMatch known ρ length length') (sentinel : Number) :
    Follows (fun span other => span.Ready known ρ ∧ other = span.ground ρ)
      (spec.span (some length) sentinel) (spec'.span (some length') sentinel) := by
  refine .bind h.lower.start_follows fun _ _ hstart => ?_
  refine .bind (h.upper.stop_follows hlength sentinel) fun _ _ hstop => ?_
  exact .ok ⟨⟨hstart.ready, hstop.ready⟩, by rw [hstart.eq, hstop.eq, Span.ground]⟩

/-- Specifications that match come to spans and dimensions that match, axis by axis. -/
theorem mapAxes_follows {dims dims' : Shape} (hdims : ShapesMatch dims dims')
    {specs specs' : List RangeSpec} (hspecs : List.Forall₂ (RangeSpec.Matches known ρ) specs specs')
    {lengths lengths' : List Size} (hlengths : SizesMatch known ρ lengths lengths')
    (hcount : dims.length = lengths.length) (sentinel : Number) :
    Follows (MappingsMatch known ρ) (mapAxes sentinel dims specs (lengths.map some))
      (mapAxes sentinel dims' specs' (lengths'.map some)) := by
  induction hdims generalizing specs specs' lengths lengths' with
  | nil => exact .ok ⟨⟨by simp, rfl⟩, .nil⟩
  | cons hdim _ ih =>
      obtain ⟨length, lengths, rfl⟩ := List.exists_cons_of_length_eq_add_one hcount.symm
      obtain ⟨hlength, _, others, rfl, hrest⟩ := hlengths.of_cons
      have hspec : (specs.head?.getD .full).Matches known ρ (specs'.head?.getD .full) := by
        cases hspecs with
        | nil => exact ⟨rfl, trivial, trivial⟩
        | cons hhead _ => exact hhead
      have htail : List.Forall₂ (RangeSpec.Matches known ρ) specs.tail specs'.tail := by
        cases hspecs with
        | nil => exact .nil
        | cons _ htail => exact htail
      refine .ok_bind (.bind (hspec.span_follows ⟨hlength, rfl⟩ sentinel) ?_)
      rintro span _ ⟨hspan, rfl⟩
      refine .bind (ih htail hrest (by simpa using hcount)) fun _ _ hm => .ok ⟨⟨?_, ?_⟩, ?_⟩
      · exact List.forall_mem_cons.mpr ⟨hspan, hm.spans.ready⟩
      · rw [hm.spans.eq, List.map_cons]
      · exact .cons (hspec.dimension hdim) hm.shapes

/-- So do those of a slice, once there are no more of them than axes. -/
theorem mapSlice_follows {shape shape' : Shape} (hshape : ShapesMatch shape shape')
    {specs specs' : List RangeSpec} (hspecs : List.Forall₂ (RangeSpec.Matches known ρ) specs specs')
    {lengths lengths' : List Size} (hlengths : SizesMatch known ρ lengths lengths')
    (hcount : shape.length = lengths.length) (sentinel : Number) :
    Follows (MappingsMatch known ρ) (mapSlice shape specs (lengths.map some) sentinel)
      (mapSlice shape' specs' (lengths'.map some) sentinel) :=
  .check (by rw [hspecs.length_eq, hshape.length_eq]; exact id) fun _ =>
    mapAxes_follows hshape hspecs hlengths hcount sentinel

end

/-! ## Reshape targets -/

/-- Axes of a reshape target whose dimensions and sizes match. -/
structure TargetsMatch (known : String → Prop) (ρ : Valuation)
    (axes axes' : List (Dimension × Size)) : Prop where
  shapes : ShapesMatch (axes.map (·.1)) (axes'.map (·.1))
  sizes : SizesMatch known ρ (axes.map (·.2)) (axes'.map (·.2))

section

variable {shape shape' : Shape} {lengths lengths' : List Size}

/-- An entry of a target comes to a dimension and a size that match on both sides. -/
theorem targetAxis_follows (hshape : ShapesMatch shape shape')
    (hlengths : SizesMatch known ρ lengths lengths') (position : Nat) (entry : ReshapeEntry) :
    Follows (fun axis axis' => axis.1.Matches axis'.1 ∧ SizeMatch known ρ axis.2 axis'.2 ∧
        0 ≤ axis.2.value ρ)
      (targetAxis shape lengths position entry) (targetAxis shape' lengths' position entry) := by
  cases entry with
  | size n =>
      refine (Follows.self _).mono fun axis _ ⟨heq, haxis⟩ => ?_
      obtain rfl := heq
      simp only [targetAxis, ite_ok_eq_ok, Bool.and_eq_true] at haxis
      obtain ⟨⟨hsafe, hpos⟩, rfl⟩ := haxis
      obtain ⟨m, rfl⟩ := Number.eq_int_of_isSafe hsafe
      have hpos : 0 < m := by simpa [show (0 : Number) = .int 0 from rfl] using hpos
      exact ⟨rfl, ⟨⟨⟨m, rfl⟩, trivial⟩, rfl⟩, Int.le_of_lt hpos⟩
  | copied axis =>
      simp only [targetAxis]
      cases axis.index? with
      | none => exact .refused _ _
      | some k =>
          by_cases hk : k < shape'.length
          · simp only [hshape.length_eq, if_pos hk]
            refine .bind (hshape.dimAt_follows axis) fun _ _ hdim => ?_
            refine .bind (hlengths.lengthAt_follows k "reshape") fun _ _ hlength => ?_
            exact .ok ⟨hdim, hlength⟩
          · simp only [if_neg hk]
            exact .refused _ _

/-- A target comes to dimensions and sizes that match on both sides. -/
theorem targetAxes_follows (hshape : ShapesMatch shape shape')
    (hlengths : SizesMatch known ρ lengths lengths') (position : Nat)
    (entries : List ReshapeEntry) :
    Follows (TargetsMatch known ρ) (targetAxes shape lengths position entries)
      (targetAxes shape' lengths' position entries) := by
  induction entries generalizing position with
  | nil => exact .ok ⟨.nil, .nil⟩
  | cons entry rest ih =>
      refine .bind (targetAxis_follows hshape hlengths position entry) ?_
      rintro axis axis' ⟨hdim, hsize, hnonneg⟩
      exact .bind (ih (position + 1)) fun _ _ haxes =>
        .ok ⟨.cons hdim haxes.shapes, .cons hsize hnonneg haxes.sizes⟩

/-- The counts of elements are equal if their literals are, and what is recorded is met. -/
theorem elementCount_follows [Arithmetic] [Unbounded] {sizes sizes' : List Size}
    (hlengths : SizesMatch known ρ lengths lengths') (hsizes : SizesMatch known ρ sizes sizes')
    (operation relation : String) :
    Follows (EqualitiesMatch known ρ)
      (requireEqual operation relation (Size.product lengths) (Size.product sizes))
      (requireEqual operation relation (Size.product lengths') (Size.product sizes')) := by
  obtain ⟨hheld, hheld'⟩ := Size.product_ready hlengths.ready
  obtain ⟨hwanted, hwanted'⟩ := Size.product_ready hsizes.ready
  rw [hlengths.eq, hsizes.eq, hheld', hwanted']
  exact requireEqual_follows hheld hwanted

end

/-! ## Leaves -/

/-- A dimension with a size on one side, and a dimension of the literal of it on
the other. -/
structure DimensionsMatch (known : String → Prop) (ρ : Valuation) (dim dim' : Dimension) :
    Prop where
  matches_dim : dim.Matches dim'
  sizes : ∃ size, dim.size? = .ok (some size) ∧ dim'.size? = .ok (some (size.ground ρ)) ∧
    size.Ready known ρ ∧ 0 ≤ size.value ρ

/-- The sizes of a leaf match the literals that the other leaf is made of. -/
theorem leafSizes_follows {dims dims' : Shape}
    (h : List.Forall₂ (DimensionsMatch known ρ) dims dims') (id id' axis : Nat) :
    Follows (SizesMatch known ρ) (leafSizes id axis dims) (leafSizes id' axis dims') := by
  induction h generalizing axis with
  | nil => exact .ok .nil
  | cons hdim _ ih =>
      obtain ⟨size, hsize, hsize', hready, hnonneg⟩ := hdim.sizes
      simp only [leafSizes, hsize, hsize']
      exact .ok_bind (.bind (ih (axis + 1)) fun _ _ hrest =>
        .ok (.cons ⟨hready, rfl⟩ hnonneg hrest))

end ShapeGraph
