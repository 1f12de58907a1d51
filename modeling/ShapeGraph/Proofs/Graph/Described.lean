import ShapeGraph.Proofs.Graph.Given
import ShapeGraph.Proofs.Graph.Leaves

/-!
# Shapes that describe views

A tensor carries a shape, and the node behind it shows a view.  An anonymous dimension says
nothing of its axis.  Any other one has a size, which is compared with the length of the axis
when the shape is made: where both are literals they are the same number.  It stays so whatever
the operations derive from a shape and a view.

A full range is the one that keeps a dimension and puts the length of its axis together anew.
That length is a literal only if it has been that literal before, which rests on the bounds of
all ranges being in normal form.

* `Size.Agrees` — two sizes can be required to be equal;
* `Dimension.Admits`, `Dimension.Describes` — a dimension goes with a length, or with a range;
* `Shape.Admits`, `Shape.Describes` — a shape goes with lengths, or with a view;
* `leafSizes_admits` and the lemmas after it — so does each shape that an operation derives,
  with the sizes or the ranges that it derives with it.
-/

namespace ShapeGraph

open ShapeGraph.Numeric (Arithmetic Number Unbounded)

/-! ## Sizes that agree -/

/-- Two sizes that are both literals are the same number. -/
def Size.Agrees (a b : Size) : Prop :=
  ∀ v w, a = .literal v → b = .literal w → v = w

namespace Size.Agrees

variable {a b : Size} {operation relation : String}

/-- Agreement of two sizes does not depend on their order. -/
theorem symm (h : a.Agrees b) : b.Agrees a :=
  fun v w hv hw => (h w v hw hv).symm

/-- A size agrees with itself, whatever number it is. -/
theorem refl (a : Size) : a.Agrees a := by
  intro v w hv hw
  exact Size.literal.inj (hv.symm.trans hw)

/-- Sizes that are required to be equal agree. -/
theorem of_requireEqual {equalities : List Equality} (ha : a.Integral)
    (h : requireEqual operation relation a b = .ok equalities) : a.Agrees b := by
  rintro v w rfl rfl
  obtain ⟨n, rfl⟩ := ha
  simp only [requireEqual, Size.value?, ite_ok_eq_ok] at h
  exact (Number.same_int_iff.mp h.1).symm

/-- Sizes that agree can be required to be equal. -/
theorem requireEqual_ok (h : a.Agrees b) (ha : a.Integral) (operation relation : String) :
    ∃ equalities, requireEqual operation relation a b = .ok equalities := by
  unfold requireEqual
  split
  · next v w hv hw =>
    obtain rfl := Size.value?_eq_some.mp hv
    obtain rfl := Size.value?_eq_some.mp hw
    obtain rfl := h v w rfl rfl
    obtain ⟨n, rfl⟩ := ha
    exact ⟨[], if_pos (Number.same_int_iff.mpr rfl)⟩
  · split
    · exact ⟨[], rfl⟩
    · exact ⟨_, rfl⟩

end Size.Agrees

/-! ## Dimensions, lengths and ranges -/

section

variable [Arithmetic]

/-- An axis of the given length may have this dimension: its own size, if it has one, agrees. -/
structure Dimension.Admits (dim : Dimension) (length : Size) : Prop where
  canonical : length.Canonical
  sized : ∃ own, dim.size? = .ok own
  agrees : ∀ own, dim.size? = .ok (some own) → own.Agrees length

/-- A range of storage may have this dimension. -/
structure Dimension.Describes (dim : Dimension) (range : AxisRange) : Prop where
  canonical : range.Canonical
  admits : dim.Admits range.length

/-- Axes of the given lengths may have this shape. -/
def Shape.Admits (shape : Shape) (lengths : List Size) : Prop :=
  List.Forall₂ Dimension.Admits shape lengths

/-- A view may have this shape. -/
structure Shape.Describes (shape : Shape) (view : View) : Prop where
  wellFormed : view.WellFormed
  shown : List.Forall₂ Dimension.Describes shape view.shown

namespace Dimension

variable {dim : Dimension} {size length : Size}

/-- An axis may have a dimension whose size agrees with its length. -/
theorem Admits.of_agrees (hlength : length.Canonical) (hdim : dim.size? = .ok (some size))
    (h : size.Agrees length) : dim.Admits length where
  canonical := hlength
  sized := ⟨_, hdim⟩
  agrees own hown := by
    obtain rfl := Option.some.inj (Except.ok.inj (hdim.symm.trans hown))
    exact h

/-- A dimension admits its own size. -/
theorem Admits.own (hdim : dim.size? = .ok (some size)) : dim.Admits size :=
  .of_agrees (.of_dimension hdim) hdim (.refl size)

/-- A dimension without a size admits any length. -/
theorem Admits.unsized (hlength : length.Canonical) (hdim : dim.size? = .ok none) :
    dim.Admits length where
  canonical := hlength
  sized := ⟨none, hdim⟩
  agrees own hown := by
    have hnone : none = some own := Except.ok.inj (hdim.symm.trans hown)
    cases hnone

variable [Unbounded]

/-- The whole of an axis is as long as the axis. -/
theorem Admits.describes_whole (h : dim.Admits length) (broadcast : Bool) :
    dim.Describes (.whole length broadcast) where
  canonical := .whole h.canonical broadcast
  admits := by
    rw [AxisRange.length_whole h.canonical.integral]
    exact h

end Dimension

namespace Shape

variable {shape : Shape} {view : View} {sizes lengths : List Size}

/-- Lengths that a shape admits are in normal form. -/
theorem Admits.canonical (h : shape.Admits sizes) : ∀ s ∈ sizes, s.Canonical := by
  intro s hs
  obtain ⟨axis, hlt, rfl⟩ := List.getElem_of_mem hs
  obtain ⟨hlength, hall⟩ := List.forall₂_iff_get.mp h
  exact (hall axis (hlength ▸ hlt) hlt).canonical

/-- The ranges that a shape describes are in normal form. -/
theorem Describes.canonical (h : shape.Describes view) : ∀ range ∈ view.shown, range.Canonical := by
  intro range hr
  obtain ⟨axis, hlt, rfl⟩ := List.getElem_of_mem hr
  obtain ⟨hlength, hall⟩ := List.forall₂_iff_get.mp h.shown
  exact (hall axis (hlength ▸ hlt) hlt).canonical

/-- The view that a shape describes is one of integers. -/
theorem Describes.integral (h : shape.Describes view) : view.Integral :=
  (View.integral_iff h.wellFormed).mpr fun range hr => (h.canonical range hr).integral

/-- A shape describes views of its rank only. -/
theorem Describes.rank_eq (h : shape.Describes view) : shape.length = view.rank :=
  h.shown.length_eq.trans h.wellFormed.length_shown

/-- A shape that describes a view admits its lengths. -/
theorem Describes.admits (h : shape.Describes view) (hlengths : view.lengths = .ok lengths) :
    shape.Admits lengths := by
  obtain rfl := View.eq_of_lengths h.wellFormed hlengths
  rw [Admits, List.forall₂_map_right_iff]
  exact h.shown.imp fun _ _ hdim => hdim.admits

/-- Another shape describes a view as well if it admits its lengths. -/
theorem Describes.relabelled {other : Shape} (h : shape.Describes view)
    (hlengths : view.lengths = .ok lengths) (hother : other.Admits lengths) :
    other.Describes view where
  wellFormed := h.wellFormed
  shown := by
    obtain rfl := View.eq_of_lengths h.wellFormed hlengths
    rw [Admits, List.forall₂_map_right_iff] at hother
    refine forall₂_iff_getElem?.mpr ⟨hother.length_eq.symm, fun k dim range hdim hrange => ?_⟩
    exact ⟨h.canonical range (List.mem_of_getElem? hrange),
      (forall₂_iff_getElem?.mp hother).2 k dim range hdim hrange⟩

/-- A shape describes the view of storage whose sizes it admits. -/
theorem Admits.describes_contiguous [Unbounded] (h : shape.Admits sizes) :
    shape.Describes (.contiguous sizes) where
  wellFormed := View.contiguous_wellFormed sizes
  shown := by
    rw [View.shown_contiguous fun s hs => (h.canonical s hs).integral,
      List.forall₂_map_right_iff]
    exact List.Forall₂.imp (fun _ _ hdim => hdim.describes_whole false) h

end Shape

/-! ## Sizes of leaves and relabelled tensors -/

/-- An axis without a size of its own gets a symbol for its length. -/
theorem Dimension.admits_getD {dim : Dimension} {own : Option Size} (hown : dim.size? = .ok own)
    (name : String) : dim.Admits (own.getD (.symbol name)) := by
  cases own with
  | none => exact .unsized (.symbol name) hown
  | some size => exact .own hown

/-- The sizes that an input gets from its shape are admitted by it. -/
theorem leafSizes_admits {id axis : Nat} {shape : Shape} {sizes : List Size}
    (h : leafSizes id axis shape = .ok sizes) : shape.Admits sizes := by
  induction shape generalizing axis sizes with
  | nil =>
      obtain rfl := Except.ok.inj h
      exact .nil
  | cons dim dims ih =>
      simp only [leafSizes, bind_eq_ok, pure_eq_ok] at h
      obtain ⟨own, hown, rest, hrest, rfl⟩ := h
      exact .cons (Dimension.admits_getD hown _) (ih hrest)

/-- A declared size is compared with that of its dimension. -/
theorem declaredSizes_admits {id axis : Nat} {dims : Shape} {declared : List (Option Quantity)}
    {sizes : List Size} {equalities : List Equality}
    (hdeclared : ∀ q, some q ∈ declared → ∀ s ∈ q.given, s.Canonical)
    (h : declaredSizes id axis dims declared = .ok (sizes, equalities)) : dims.Admits sizes := by
  induction dims generalizing axis declared sizes equalities with
  | nil =>
      obtain ⟨rfl, _⟩ := Prod.mk.inj (Except.ok.inj h)
      exact .nil
  | cons dim dims ih =>
      obtain ⟨size, first, rest, others, hsize, hrest, rfl, rfl⟩ := declaredSizes_cons_ok h
      have hheld : ∀ q, declared.head?.join = some q → ∀ s ∈ q.given, s.Canonical :=
        fun q hq => hdeclared q (mem_of_head_join hq)
      have htail : ∀ q, some q ∈ declared.tail → ∀ s ∈ q.given, s.Canonical :=
        fun q hq => hdeclared q (List.mem_of_mem_tail hq)
      refine .cons ?_ (ih htail hrest)
      cases hsize with
      | own _ hdim => exact .own hdim
      | new _ hdim => exact .unsized (.symbol _) hdim
      | given hquantity hmeant hdim => exact .unsized (.of_given (hheld _ hquantity) hmeant) hdim
      | compared hquantity hmeant hdim hfirst =>
          have hagrees := Size.Agrees.of_requireEqual (Dimension.fits_of_size hdim).1 hfirst
          exact .of_agrees (.of_given (hheld _ hquantity) hmeant) hdim hagrees

/-- A new shape is compared with the lengths of the tensor. -/
theorem relabelEqualities_admits {lengths : List Size} {axis : Nat} {dims : Shape}
    {equalities : List Equality} (hlengths : ∀ s ∈ lengths, s.Canonical)
    (hcount : axis + dims.length = lengths.length)
    (h : relabelEqualities lengths axis dims = .ok equalities) :
    dims.Admits (lengths.drop axis) := by
  induction dims generalizing axis equalities with
  | nil =>
      rw [List.drop_of_length_le (by simp at hcount; omega)]
      exact .nil
  | cons dim dims ih =>
      simp only [List.length_cons] at hcount
      have hlt : axis < lengths.length := by omega
      have hlength := hlengths lengths[axis] (List.getElem_mem hlt)
      simp only [relabelEqualities, bind_eq_ok] at h
      obtain ⟨own, hown, h⟩ := h
      rw [List.drop_eq_getElem_cons hlt]
      cases own with
      | none =>
          simp only [bind_eq_ok, pure_eq_ok, exists_eq_left'] at h
          obtain ⟨others, hothers, _⟩ := h
          exact .cons (.unsized hlength hown) (ih (by omega) hothers)
      | some size =>
          simp only [bind_eq_ok, pure_eq_ok, lengthAt_eq_ok, List.getElem?_eq_getElem hlt,
            Option.some.injEq, exists_eq_left'] at h
          obtain ⟨first, hfirst, others, hothers, _⟩ := h
          have hagrees := Size.Agrees.of_requireEqual hlength.integral hfirst
          exact .cons (.of_agrees hlength hown hagrees.symm) (ih (by omega) hothers)

/-! ## Ranges that are narrowed and aligned -/

section

variable [Unbounded]

/-- A specification leaves of a range what its dimension describes: all of it, or an axis of
which nothing is said. -/
theorem Dimension.Describes.narrow {dim : Dimension} {range : AxisRange} {spec : RangeSpec}
    {sentinel : Number} {span : Span} (h : dim.Describes range)
    (hspec : ∀ s ∈ spec.given, s.Canonical)
    (hspan : spec.span (some range.length) sentinel = .ok span) :
    (spec.dimension dim).Describes (View.narrow range span) := by
  obtain ⟨hlower, hupper⟩ := List.forall_mem_append.mp hspec
  simp only [RangeSpec.span, bind_eq_ok, pure_eq_ok] at hspan
  obtain ⟨start, hstart, stop, hstop, rfl⟩ := hspan
  have hnarrowed : (View.narrow range ⟨start, stop⟩).Canonical :=
    h.canonical.narrow (Bound.start_canonical hlower hstart)
      (Bound.stop_canonical hupper h.canonical.length hstop)
  refine ⟨hnarrowed, ?_⟩
  by_cases hfull : spec.isFull = true
  · obtain rfl : spec = .full := by
      cases spec with
      | full => rfl
      | bounded | starting | ending | within => cases hfull
    obtain rfl := Except.ok.inj hstart
    obtain rfl := Except.ok.inj hstop
    obtain ⟨own, hown⟩ := h.admits.sized
    refine ⟨hnarrowed.length, ⟨own, hown⟩, fun size hsize v w hv hw => ?_⟩
    exact h.admits.agrees size hsize v w hv
      (View.literal_of_narrow_full h.canonical.integral h.canonical.normal hw)
  · rw [RangeSpec.dimension, if_neg hfull]
    exact .unsized hnarrowed.length rfl

/-- The dimensions that are left of a shape describe the ranges that are left by a slice. -/
theorem mapAxes_describes {sentinel : Number} {dims : Shape} {specs : List RangeSpec}
    {ranges : List AxisRange} {mapping : SliceMapping}
    (hspecs : ∀ spec ∈ specs, ∀ s ∈ spec.given, s.Canonical)
    (h : List.Forall₂ Dimension.Describes dims ranges)
    (hmapping : mapAxes sentinel dims specs ((ranges.map AxisRange.length).map some) =
      .ok mapping) :
    mapping.spans.length = ranges.length ∧ List.Forall₂ Dimension.Describes mapping.shape
      (List.zipWith View.narrow ranges mapping.spans) := by
  induction h generalizing specs mapping with
  | nil =>
      obtain rfl := Except.ok.inj hmapping
      exact ⟨rfl, .nil⟩
  | cons hdim _ ih =>
      simp only [mapAxes, List.map_cons, List.head?_cons, Option.join_some, List.tail_cons,
        bind_eq_ok, pure_eq_ok, Except.ok.injEq, exists_eq_left'] at hmapping
      obtain ⟨span, hspan, rest, hrest, rfl⟩ := hmapping
      have hspec : ∀ s ∈ (specs.head?.getD .full).given, s.Canonical := by
        cases specs with
        | nil => exact List.forall_mem_nil _
        | cons spec _ => exact hspecs spec List.mem_cons_self
      obtain ⟨hlength, hrests⟩ :=
        ih (fun spec hs => hspecs spec (List.mem_of_mem_tail hs)) hrest
      exact ⟨by simp [hlength], .cons (hdim.narrow hspec hspan) hrests⟩

/-- A leading axis is the whole of an axis that has the size of its dimension. -/
theorem Dimension.Leads.describes {dim : Dimension} {range : AxisRange} (h : dim.Leads range) :
    dim.Describes range := by
  obtain ⟨size, hsize, rfl⟩ := h
  exact Admits.describes_whole (.own hsize) true

/-- A range aligned with a dimension of a target is repeated, or has been compared with it. -/
theorem Dimension.Aligns.describes {dim : Dimension} {range next : AxisRange}
    {equalities : List Equality} (h : dim.Aligns range next equalities) (hrange : range.Canonical) :
    dim.Describes next := by
  cases h with
  | anonymous hdim => exact ⟨hrange, .unsized hrange.length hdim⟩
  | repeated hdim _ => exact Admits.describes_whole (.own hdim) true
  | kept hdim _ hequal =>
      have hagrees := Size.Agrees.of_requireEqual hrange.length.integral hequal
      exact ⟨hrange, .of_agrees hrange.length hdim hagrees.symm⟩

/-- Axes that have been aligned with those of a target are described by it, from an offset on.
-/
theorem alignAxes_describes {target : Shape} {offset : Nat} {done rest : List AxisRange}
    {view aligned : View} {equalities : List Equality} (hv : view.WellFormed)
    (hi : view.Integral) (hshown : view.shown = done ++ rest)
    (hrest : ∀ range ∈ rest, range.Canonical)
    (hcount : offset + done.length + rest.length = target.length)
    (h : alignAxes target offset done.length (rest.map AxisRange.length) view =
      .ok (aligned, equalities)) :
    aligned.WellFormed ∧ aligned.Integral ∧ ∃ kept, aligned.shown = done ++ kept ∧
      List.Forall₂ Dimension.Describes (target.drop (offset + done.length)) kept := by
  induction rest generalizing done view equalities with
  | nil =>
      obtain ⟨rfl, _⟩ := Prod.mk.inj (Except.ok.inj h)
      refine ⟨hv, hi, [], hshown, ?_⟩
      rw [List.drop_of_length_le (by simp at hcount; omega)]
      exact .nil
  | cons range rest ih =>
      obtain ⟨dim, next, middle, first, others, hdim, haligns, hmv, hmi, hmshown, hothers, rfl⟩ :=
        alignAxes_cons hv hi hshown h
      have hshown' : middle.shown = (done ++ [next]) ++ rest := by simp [hmshown]
      obtain ⟨hrange, hrest⟩ := List.forall_mem_cons.mp hrest
      obtain ⟨hav, hai, kept, hkept, hall⟩ := ih hmv hmi hshown' hrest
        (by simp at hcount ⊢; omega) (by simpa using hothers)
      refine ⟨hav, hai, next :: kept, by simp [hkept], ?_⟩
      obtain ⟨hlt, rfl⟩ := List.getElem?_eq_some_iff.mp hdim
      rw [List.drop_eq_getElem_cons hlt]
      refine .cons (haligns.describes hrange) ?_
      rwa [List.length_append, List.length_singleton, ← Nat.add_assoc] at hall

end

/-! ## Sizes of joined and reshaped tensors -/

omit [Arithmetic] in
/-- The size of a constant, which has to be safe. -/
theorem Dimension.size_constant {v : Number} {own : Option Size} :
    (constant v).size? = .ok own ↔ v.isSafe = true ∧ own = some (.literal v) := by
  simp only [size?, Size.ofNumber, bind_eq_ok, ite_ok_eq_ok, pure_eq_ok]
  constructor
  · rintro ⟨_, ⟨hsafe, rfl⟩, rfl⟩
    exact ⟨hsafe, rfl⟩
  · rintro ⟨hsafe, rfl⟩
    exact ⟨_, ⟨hsafe, rfl⟩, rfl⟩

/-- A constant that admits a literal is that number. -/
theorem Dimension.Admits.eq_constant {v w : Number} (h : (constant v).Admits (.literal w)) :
    v = w := by
  obtain ⟨own, hown⟩ := h.sized
  obtain ⟨hsafe, rfl⟩ := size_constant.mp hown
  exact h.agrees _ hown v w rfl rfl

/-- The sum of two constants admits the sum of two lengths that they admit. -/
theorem joinedDimension_admits [Unbounded] {first second dim : Dimension} {x y : Size}
    (hx : first.Admits x) (hy : second.Admits y) (h : joinedDimension first second = .ok dim) :
    dim.Admits (x.add y) := by
  have hsum := hx.canonical.add hy.canonical
  unfold joinedDimension at h
  split at h
  · next m n =>
    obtain ⟨hsafe, rfl⟩ := ite_ok_eq_ok.mp h
    have hdim := Dimension.size_constant.mpr ⟨(Bool.and_eq_true_iff.mp hsafe).1, rfl⟩
    refine .of_agrees hsum hdim fun v w hv hw => ?_
    -- a sum is a literal only if both parts are, and these are the constants
    obtain ⟨a, b, rfl, rfl⟩ := Size.literals_of_add hx.canonical.normal hy.canonical.normal hw
    obtain rfl := hx.eq_constant
    obtain rfl := hy.eq_constant
    exact Size.literal.inj (hv.symm.trans hw)
  · obtain rfl := Except.ok.inj h
    exact .unsized hsum rfl

/-- A target entry is a size of its own, or an axis of the operand. -/
theorem targetAxis_admits {shape : Shape} {lengths : List Size} (hshape : shape.Admits lengths)
    {position : Nat} {entry : ReshapeEntry} {axis : Dimension × Size}
    (h : targetAxis shape lengths position entry = .ok axis) : axis.1.Admits axis.2 := by
  cases entry with
  | size n =>
      obtain ⟨hsafe, rfl⟩ := ite_ok_eq_ok.mp h
      exact .own (Dimension.size_constant.mpr ⟨(Bool.and_eq_true_iff.mp hsafe).1, rfl⟩)
  | copied a =>
      obtain ⟨k, hdim, hlength⟩ := targetAxis_copied h
      exact (forall₂_iff_getElem?.mp hshape).2 k _ _ hdim hlength

/-- The sizes that a reshape derives for its target are admitted by the dimensions it derives.
-/
theorem targetAxes_admits {shape : Shape} {lengths : List Size} (hshape : shape.Admits lengths)
    {position : Nat} {entries : List ReshapeEntry} {axes : List (Dimension × Size)}
    (h : targetAxes shape lengths position entries = .ok axes) :
    Shape.Admits (axes.map (·.1)) (axes.map (·.2)) := by
  induction entries generalizing position axes with
  | nil =>
      obtain rfl := Except.ok.inj h
      exact .nil
  | cons entry rest ih =>
      simp only [targetAxes, bind_eq_ok, pure_eq_ok] at h
      obtain ⟨axis, haxis, others, hothers, rfl⟩ := h
      exact .cons (targetAxis_admits hshape haxis) (ih hothers)

end

end ShapeGraph
