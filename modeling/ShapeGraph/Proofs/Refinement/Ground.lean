import ShapeGraph.Proofs.Graph.Contract

/-!
# Sizes and views with their symbols bound

Where every symbol is bound, a size comes down to the literal of its value, a
view to a view of literals, and an operation on them to the same operation on
literals.  Literals are what all checks are about, so whatever goes through for
literals goes through for the sizes that they are the values of.

* `Follows` — a computation that succeeds whenever another one does, with a
  related result;
* `Size.ground`, `AxisRange.ground`, `View.ground` — sizes, ranges and views come
  down to literals;
* `Size.Ready`, `AxisRange.Ready`, `View.Ready` — no symbol is unknown, no divisor
  zero and no range reversed;
* `requireEqual_follows`, `View.slice_follows`, `View.permute_follows`,
  `View.expand_follows` — what goes through for literals.
-/

namespace ShapeGraph

open ShapeGraph.Numeric (Arithmetic Number Unbounded)

/-! ## Following -/

section

variable {α β γ δ : Type}

/-- The first computation succeeds whenever the second one does, and the results
are related. -/
def Follows (R : α → β → Prop) (x : Except Fault α) (y : Except Fault β) : Prop :=
  ∀ b, y = .ok b → ∃ a, x = .ok a ∧ R a b

namespace Follows

variable {R : α → β → Prop} {S : γ → δ → Prop} {x : Except Fault α} {y : Except Fault β}

/-- Two results that are related follow. -/
theorem ok {a : α} {b : β} (h : R a b) : Follows R (.ok a) (.ok b) :=
  fun _ hb => ⟨a, rfl, Except.ok.inj hb ▸ h⟩

/-- Whatever is done on one side, a failure on the other side asks for nothing. -/
theorem refused (x : Except Fault α) (fault : Fault) : Follows R x (.error fault) :=
  fun _ hb => nomatch hb

/-- A computation follows itself. -/
theorem self (x : Except Fault α) : Follows (fun a b => a = b ∧ x = .ok a) x x :=
  fun a ha => ⟨a, ha, rfl, ha⟩

/-- Steps in sequence follow each other one by one. -/
theorem bind {f : α → Except Fault γ} {g : β → Except Fault δ} (h : Follows R x y)
    (hnext : ∀ a b, R a b → Follows S (f a) (g b)) : Follows S (x >>= f) (y >>= g) := by
  intro d hd
  obtain ⟨b, hb, hg⟩ := bind_eq_ok.mp hd
  obtain ⟨a, ha, hab⟩ := h b hb
  obtain ⟨c, hc, hcd⟩ := hnext a b hab d hg
  exact ⟨c, bind_eq_ok.mpr ⟨a, ha, hc⟩, hcd⟩

/-- What follows a step that succeeds on both sides follows. -/
theorem ok_bind {a : α} {b : β} {f : α → Except Fault γ} {g : β → Except Fault δ}
    (h : Follows S (f a) (g b)) : Follows S (.ok a >>= f) (.ok b >>= g) := h

/-- What follows either of two steps, where the same one is taken on both sides. -/
theorem ite_bind {c : Prop} [Decidable c] {x' : Except Fault α} {y' : Except Fault β}
    {f : α → Except Fault γ} {g : β → Except Fault δ} (h : c → Follows R x y)
    (h' : ¬c → Follows R x' y') (hnext : ∀ a b, R a b → Follows S (f a) (g b)) :
    Follows S (if c then x >>= f else x' >>= f) (if c then y >>= g else y' >>= g) := by
  by_cases hc : c
  · rw [if_pos hc, if_pos hc]
    exact (h hc).bind hnext
  · rw [if_neg hc, if_neg hc]
    exact (h' hc).bind hnext

/-- The relation of two results may be weakened. -/
theorem mono {R' : α → β → Prop} (h : Follows R x y) (hR : ∀ a b, R a b → R' a b) :
    Follows R' x y := by
  intro b hb
  obtain ⟨a, ha, hab⟩ := h b hb
  exact ⟨a, ha, hR a b hab⟩

/-- A check that refuses no more than another one lets as much through. -/
theorem check {c c' : Prop} [Decidable c] [Decidable c'] {fault fault' : Fault}
    (hc : c → c') (h : ¬c' → Follows R x y) :
    Follows R (if c then .error fault else x) (if c' then .error fault' else y) := by
  by_cases hc' : c'
  · rw [if_pos hc']
    exact refused _ _
  · rw [if_neg hc', if_neg (mt hc hc')]
    exact h hc'

end Follows

end

/-! ## Sizes -/

namespace Size

/-- The literal of the value of a size. -/
def ground (ρ : Valuation) (s : Size) : Size :=
  .literal (.int (s.value ρ))

/-- A size of integers whose symbols are known and whose divisors are not
zero. -/
structure Ready (known : String → Prop) (ρ : Valuation) (s : Size) : Prop where
  integral : s.Integral
  defined : s.Defined known ρ

variable {known : String → Prop} {ρ : Valuation} {s l r : Size}

/-- A literal is ready, whatever symbols are known. -/
theorem ready_ground (s : Size) : (s.ground ρ).Ready known ρ := ⟨⟨_, rfl⟩, trivial⟩

theorem ready_zero : zero.Ready known ρ := ⟨⟨0, rfl⟩, trivial⟩

theorem ready_one : one.Ready known ρ := ⟨⟨1, rfl⟩, trivial⟩

theorem ground_one : one.ground ρ = one := rfl

section

variable [Arithmetic] [Unbounded]

/-- Sums of sizes that are ready are ready. -/
theorem Ready.add (hl : l.Ready known ρ) (hr : r.Ready known ρ) : (l.add r).Ready known ρ :=
  ⟨(add_means hl.integral.means hr.integral.means).integral, add_defined hl.defined hr.defined⟩

theorem Ready.sub (hl : l.Ready known ρ) (hr : r.Ready known ρ) : (l.sub r).Ready known ρ :=
  ⟨(sub_means hl.integral.means hr.integral.means).integral, sub_defined hl.defined hr.defined⟩

theorem Ready.mul (hl : l.Ready known ρ) (hr : r.Ready known ρ) : (l.mul r).Ready known ρ :=
  ⟨(mul_means hl.integral.means hr.integral.means).integral, mul_defined hl.defined hr.defined⟩

theorem Ready.min (hl : l.Ready known ρ) (hr : r.Ready known ρ) : (l.min r).Ready known ρ :=
  ⟨(min_means hl.integral.means hr.integral.means).integral,
    extremum_defined (by simp) hl.defined hr.defined⟩

/-- Literals are added to the literal of the sum. -/
theorem ground_add (hl : l.Integral) (hr : r.Integral) :
    (l.ground ρ).add (r.ground ρ) = (l.add r).ground ρ := by
  rw [ground, ground, ground, (add_means hl.means hr.means).value_eq]
  simp [add, addLiteral]

theorem ground_sub (hl : l.Integral) (hr : r.Integral) :
    (l.ground ρ).sub (r.ground ρ) = (l.sub r).ground ρ := by
  rw [ground, ground, ground, (sub_means hl.means hr.means).value_eq]
  simp [sub]

theorem ground_mul (hl : l.Integral) (hr : r.Integral) :
    (l.ground ρ).mul (r.ground ρ) = (l.mul r).ground ρ := by
  rw [ground, ground, ground, (mul_means hl.means hr.means).value_eq]
  simp [mul, mulLiteral]

theorem ground_min (hl : l.Integral) (hr : r.Integral) :
    (l.ground ρ).min (r.ground ρ) = (l.min r).ground ρ := by
  rw [ground, ground, ground, (min_means hl.means hr.means).value_eq]
  simp [min, extremum, boundLiteral, Operator.apply, Number.min_int]

/-- The product of sizes that are ready is ready, and comes down to the product
of what they come down to. -/
theorem product_ready {sizes : List Size} (h : ∀ s ∈ sizes, s.Ready known ρ) :
    (product sizes).Ready known ρ ∧
      product (sizes.map (ground ρ)) = (product sizes).ground ρ := by
  have hfold : ∀ (sizes : List Size) (acc : Size), (∀ s ∈ sizes, s.Ready known ρ) →
      acc.Ready known ρ → (sizes.foldl mul acc).Ready known ρ ∧
        (sizes.map (ground ρ)).foldl mul (acc.ground ρ) = (sizes.foldl mul acc).ground ρ := by
    intro sizes
    induction sizes with
    | nil => exact fun _ _ hacc => ⟨hacc, rfl⟩
    | cons s rest ih =>
        intro acc hall hacc
        have hs := hall s List.mem_cons_self
        have hrest := ih (acc.mul s) (fun t ht => hall t (List.mem_cons_of_mem _ ht))
          (hacc.mul hs)
        rw [← ground_mul hacc.integral hs.integral] at hrest
        exact hrest
  exact hfold sizes one h ready_one

end

end Size

/-! ## Equalities -/

/-- An equality of sizes that are ready, which holds. -/
structure Equality.Met (known : String → Prop) (ρ : Valuation) (e : Equality) : Prop where
  left : e.left.Ready known ρ
  right : e.right.Ready known ρ
  holds : e.Holds ρ

/-- The equalities on one side are met, and there are none on the other. -/
def EqualitiesMatch (known : String → Prop) (ρ : Valuation) (equalities others : List Equality) :
    Prop :=
  others = [] ∧ ∀ e ∈ equalities, e.Met known ρ

section

variable {known : String → Prop} {ρ : Valuation}

/-- Where nothing is recorded, nothing has to be met. -/
theorem EqualitiesMatch.nil : EqualitiesMatch known ρ [] [] := ⟨rfl, by simp⟩

/-- Equalities that are met on one side are met together. -/
theorem EqualitiesMatch.append {es es' fs fs' : List Equality} (h : EqualitiesMatch known ρ es es')
    (h' : EqualitiesMatch known ρ fs fs') :
    EqualitiesMatch known ρ (es ++ fs) (es' ++ fs') := by
  obtain ⟨rfl, hes⟩ := h
  obtain ⟨rfl, hfs⟩ := h'
  exact ⟨rfl, List.forall_mem_append.mpr ⟨hes, hfs⟩⟩

/-- What has to be equal for literals may be required of the sizes that they are
the values of. -/
theorem requireEqual_follows {operation relation : String} {l r : Size}
    (hl : l.Ready known ρ) (hr : r.Ready known ρ) :
    Follows (EqualitiesMatch known ρ) (requireEqual operation relation l r)
      (requireEqual operation relation (l.ground ρ) (r.ground ρ)) := by
  intro others hothers
  simp only [requireEqual, Size.ground, Size.value?, Number.same_int, ite_ok_eq_ok,
    decide_eq_true_eq] at hothers
  obtain ⟨hvalue, rfl⟩ := hothers
  unfold requireEqual
  split
  · next a b ha hb =>
    rw [hl.integral.literal_eq ha ρ, hr.integral.literal_eq hb ρ, hvalue]
    exact ⟨[], by simp, .nil⟩
  · split
    · exact ⟨[], rfl, .nil⟩
    · refine ⟨_, rfl, rfl, fun e he => ?_⟩
      obtain rfl := List.mem_singleton.mp he
      exact ⟨hl, hr, hvalue⟩

end

/-! ## Ranges and spans -/

/-- A span with the literals of its bounds. -/
def Span.ground (ρ : Valuation) (span : Span) : Span :=
  ⟨span.start.ground ρ, span.stop.ground ρ⟩

/-- A span whose bounds are ready. -/
structure Span.Ready (known : String → Prop) (ρ : Valuation) (span : Span) : Prop where
  start : span.start.Ready known ρ
  stop : span.stop.Ready known ρ

namespace AxisRange

/-- A range with the literals of its bounds and its size. -/
def ground (ρ : Valuation) (range : AxisRange) : AxisRange :=
  ⟨range.start.ground ρ, range.stop.ground ρ, range.size.ground ρ, range.broadcast⟩

/-- A range of sizes that are ready, which starts in storage and does not end
before it starts. -/
structure Ready (known : String → Prop) (ρ : Valuation) (range : AxisRange) : Prop where
  start : range.start.Ready known ρ
  stop : range.stop.Ready known ρ
  size : range.size.Integral
  proper : range.Proper ρ

variable {known known' : String → Prop} {ρ : Valuation} {range : AxisRange}

/-- A range that is ready is one of integers. -/
theorem Ready.integral (h : range.Ready known ρ) : range.Integral :=
  ⟨h.start.integral, h.stop.integral, h.size⟩

/-- The symbols of a range that is ready are known, and no divisor is zero. -/
theorem Ready.defined (h : range.Ready known ρ) : range.Defined known ρ :=
  ⟨h.start.defined, h.stop.defined⟩

/-- The literals of a range that is ready are ready, whatever symbols are known. -/
theorem Ready.ground (h : range.Ready known ρ) : (range.ground ρ).Ready known' ρ :=
  ⟨Size.ready_ground _, Size.ready_ground _, ⟨_, rfl⟩, h.proper.1, h.proper.2⟩

@[simp] theorem extent_ground : (range.ground ρ).extent ρ = range.extent ρ := rfl

/-- The whole of an axis is ready if its size is ready and not negative. -/
theorem Ready.whole {size : Size} (h : size.Ready known ρ) (hnonneg : 0 ≤ size.value ρ)
    (broadcast : Bool) : (AxisRange.whole size broadcast).Ready known ρ :=
  ⟨Size.ready_zero, h, h.integral, Int.le_refl 0, hnonneg⟩

/-- The whole of an axis has the literal of its size for literal. -/
theorem ground_whole (size : Size) (broadcast : Bool) :
    (whole size broadcast).ground ρ = whole (size.ground ρ) broadcast := rfl

section

variable [Arithmetic] [Unbounded]

/-- The length of the literals of a range is the literal of its length. -/
theorem length_ground (h : range.Integral) : (range.ground ρ).length = range.length.ground ρ :=
  Size.ground_sub h.stop h.start

/-- The length of a range that is ready is ready and not negative. -/
theorem Ready.length (h : range.Ready known ρ) :
    range.length.Ready known ρ ∧ 0 ≤ range.length.value ρ := by
  refine ⟨h.stop.sub h.start, ?_⟩
  rw [(length_means h.integral).value_eq]
  exact Int.sub_nonneg.mpr h.proper.start_le_stop

/-- Narrowing the literals of a range comes to the literals of the narrowed range. -/
theorem narrow_ground (h : range.Integral) {span : Span} (hstart : span.start.Integral)
    (hstop : span.stop.Integral) :
    View.narrow (range.ground ρ) (span.ground ρ) = (View.narrow range span).ground ρ := by
  have hend := (Size.add_means h.start.means hstop.means).integral
  simp only [View.narrow, ground, Span.ground, Size.ground_add h.start hstart,
    Size.ground_add h.start hstop, Size.ground_min hend h.stop]

end

end AxisRange

/-! ## Views -/

namespace View

/-- A view of literals: the values of all its sizes. -/
def ground (ρ : Valuation) (v : View) : View :=
  ⟨v.axes.map (AxisRange.ground ρ), v.order⟩

/-- A well-formed view of ranges that are ready. -/
structure Ready (known : String → Prop) (ρ : Valuation) (v : View) : Prop where
  wellFormed : v.WellFormed
  axes : ∀ range ∈ v.axes, range.Ready known ρ

variable {known known' : String → Prop} {ρ : Valuation} {v : View}

/-- A view that is ready is one of integers. -/
theorem Ready.integral (h : v.Ready known ρ) : v.Integral :=
  fun range hr => (h.axes range hr).integral

/-- The ranges of a view that is ready are ready. -/
theorem Ready.of_mem_shown (h : v.Ready known ρ) {range : AxisRange} (hr : range ∈ v.shown) :
    range.Ready known ρ :=
  h.axes range (Axis.mem_of_mem_picked hr)

@[simp] theorem rank_ground : (v.ground ρ).rank = v.rank := rfl

/-- The literals of a view are shown in the same order. -/
theorem shown_ground : (v.ground ρ).shown = v.shown.map (AxisRange.ground ρ) :=
  Axis.picked_map _ _ _

/-- The literals of a view have its extent. -/
theorem extent_ground : (v.ground ρ).extent ρ = v.extent ρ := by
  rw [extent, shown_ground, List.map_map]
  rfl

/-- The literals of a view that is ready are ready, whatever symbols are known. -/
theorem Ready.ground (h : v.Ready known ρ) : (v.ground ρ).Ready known' ρ where
  wellFormed := by simpa [WellFormed, View.ground] using h.wellFormed
  axes := List.forall_mem_map.mpr fun range hr => (h.axes range hr).ground

end View

/-- The sizes of axes on one side, and the literals of their values on the
other. -/
structure SizesMatch (known : String → Prop) (ρ : Valuation) (sizes others : List Size) :
    Prop where
  ready : ∀ s ∈ sizes, s.Ready known ρ
  nonneg : ∀ s ∈ sizes, 0 ≤ s.value ρ
  eq : others = sizes.map (Size.ground ρ)

/-- A view that is ready on one side, and the literals of it on the other. -/
structure ViewsMatch (known : String → Prop) (ρ : Valuation) (v w : View) : Prop where
  ready : v.Ready known ρ
  eq : w = v.ground ρ

/-- Spans that are ready on one side, and the literals of them on the other. -/
structure SpansMatch (known : String → Prop) (ρ : Valuation) (spans others : List Span) :
    Prop where
  ready : ∀ span ∈ spans, span.Ready known ρ
  eq : others = spans.map (Span.ground ρ)

section

variable {known : String → Prop} {ρ : Valuation}

/-- Storage of sizes that match is shown by views that match. -/
theorem SizesMatch.contiguous {sizes others : List Size} (h : SizesMatch known ρ sizes others) :
    ViewsMatch known ρ (.contiguous sizes) (.contiguous others) := by
  obtain ⟨hready, hnonneg, rfl⟩ := h
  have hi := fun s hs => (hready s hs).integral
  have hground : ∀ s ∈ sizes.map (Size.ground ρ), s.Integral :=
    List.forall_mem_map.mpr fun s _ => ⟨_, rfl⟩
  refine ⟨⟨View.contiguous_wellFormed sizes, ?_⟩, ?_⟩
  · simp only [View.contiguous, Size.pinned_of_integral hi, List.forall_mem_map]
    exact fun s hs => AxisRange.Ready.whole (hready s hs) (hnonneg s hs) false
  · simp [View.contiguous, View.ground, Size.pinned_of_integral hi,
      Size.pinned_of_integral hground, AxisRange.ground_whole]

variable [Arithmetic] [Unbounded] {v w : View}

/-- The lengths of a view that is ready match those of its literals. -/
theorem View.Ready.lengths (h : v.Ready known ρ) :
    SizesMatch known ρ (v.shown.map AxisRange.length)
      ((v.ground ρ).shown.map AxisRange.length) where
  ready := List.forall_mem_map.mpr fun range hr => (h.of_mem_shown hr).length.1
  nonneg := List.forall_mem_map.mpr fun range hr => (h.of_mem_shown hr).length.2
  eq := by
    rw [shown_ground, List.map_map, List.map_map]
    exact List.map_congr_left fun range hr =>
      AxisRange.length_ground (h.of_mem_shown hr).integral

/-- Views that match have lengths that match, one for each axis. -/
theorem ViewsMatch.lengths_follows (h : ViewsMatch known ρ v w) :
    Follows (fun lengths others => SizesMatch known ρ lengths others ∧ lengths.length = v.rank)
      v.lengths w.lengths := by
  obtain ⟨hready, rfl⟩ := h
  have hground : (v.ground ρ).Ready known ρ := hready.ground
  rw [View.lengths_eq hready.wellFormed, View.lengths_eq hground.wellFormed]
  exact .ok ⟨hready.lengths, by rw [List.length_map, hready.wellFormed.length_shown]⟩

end

namespace View

variable {known : String → Prop} {ρ : Valuation} {v w : View}

/-! ## Slicing -/

section

variable {start stop : Size} (axis : Nat)

/-- Two bounds pass the check for negative ones if their literals do. -/
theorem refuseNegative_follows (hstart : start.Ready known ρ) (hstop : stop.Ready known ρ) :
    Follows (fun _ _ => 0 ≤ start.value ρ ∧ 0 ≤ stop.value ρ) (refuseNegative axis start stop)
      (refuseNegative axis (start.ground ρ) (stop.ground ρ)) := by
  have hany : ∀ {s : Size}, s.Ready known ρ → (s.value?.any fun n => n.lt 0) = true →
      s.value ρ < 0 := by
    intro s hs h
    cases hv : s.value? with
    | none => simp [hv] at h
    | some n =>
        rw [hv, hs.integral.literal_eq hv ρ] at h
        simpa [show (0 : Number) = .int 0 from rfl] using h
  have hground : ∀ s : Size, ((s.ground ρ).value?.any fun n => n.lt 0) =
      decide (s.value ρ < 0) := fun s => by
    simp [Size.ground, Size.value?, show (0 : Number) = .int 0 from rfl]
  refine .check (fun h => ?_) fun h => .ok ?_
  · simp only [hground, Bool.or_eq_true, decide_eq_true_eq] at h ⊢
    exact h.imp (hany hstart) (hany hstop)
  · simpa [hground] using h

/-- Two bounds pass the check for reversed ones if their literals do. -/
theorem refuseReversed_follows (hstart : start.Ready known ρ) (hstop : stop.Ready known ρ) :
    Follows (fun _ _ => start.value ρ ≤ stop.value ρ) (refuseReversed axis start stop)
      (refuseReversed axis (start.ground ρ) (stop.ground ρ)) := by
  intro _ h
  simp only [refuseReversed, Size.ground, Size.value?, Number.lt_int, ite_error_eq_ok,
    decide_eq_true_eq, Int.not_lt] at h
  refine ⟨(), ?_, h.1⟩
  unfold refuseReversed
  split
  · next s e hs he =>
    rw [hstart.integral.literal_eq hs ρ, hstop.integral.literal_eq he ρ]
    simp [h.1]
  · rfl

end

/-- The range at an axis is ready, and the literals of it are at the same axis. -/
theorem axisAt_follows (hv : v.Ready known ρ) (axis : Nat) :
    Follows (fun range other => range.Ready known ρ ∧ other = range.ground ρ) (v.axisAt axis)
      ((v.ground ρ).axisAt axis) := by
  intro other hother
  have hground : (v.ground ρ).Ready known ρ := hv.ground
  rw [axisAt_eq_ok hground.wellFormed, shown_ground, List.getElem?_map,
    Option.map_eq_some_iff] at hother
  obtain ⟨range, hrange, rfl⟩ := hother
  exact ⟨range, (axisAt_eq_ok hv.wellFormed).mpr hrange,
    hv.of_mem_shown (List.mem_of_getElem? hrange), rfl⟩

/-- Replacing an axis goes together with taking literals. -/
theorem setAxis_ground (axes : List AxisRange) (axis : Nat) (range : AxisRange) :
    (v.ground ρ).setAxis (axes.map (AxisRange.ground ρ)) axis (range.ground ρ) =
      (v.setAxis axes axis range).map (AxisRange.ground ρ) := by
  have horder : (v.ground ρ).order = v.order := rfl
  cases h : v.order[axis]? <;> simp [setAxis, horder, h, List.map_set]

section

variable [Arithmetic] [Unbounded]

/-- A range that is narrowed without being reversed is ready. -/
theorem narrow_ready {range : AxisRange} {span : Span} (hrange : range.Ready known ρ)
    (hspan : span.Ready known ρ) (hstart : 0 ≤ span.start.value ρ)
    (hle : (narrow range span).start.value ρ ≤ (narrow range span).stop.value ρ) :
    (narrow range span).Ready known ρ := by
  refine ⟨hrange.start.add hspan.start, (hrange.start.add hspan.stop).min hrange.stop,
    hrange.size, ?_, hle⟩
  show 0 ≤ (range.start.add span.start).value ρ
  rw [(Size.add_means hrange.start.integral.means hspan.start.integral.means).value_eq]
  exact Int.add_nonneg hrange.proper.start_nonneg hstart

/-- Axes are narrowed if their literals are narrowed by the literals of the spans. -/
theorem sliceFrom_follows (hv : v.Ready known ρ) {spans : List Span}
    (hspans : ∀ span ∈ spans, span.Ready known ρ) (axis : Nat) {axes : List AxisRange}
    (haxes : ∀ range ∈ axes, range.Ready known ρ) :
    Follows (fun narrowed others => (∀ range ∈ narrowed, range.Ready known ρ) ∧
        narrowed.length = axes.length ∧ others = narrowed.map (AxisRange.ground ρ))
      (v.sliceFrom axis spans axes)
      ((v.ground ρ).sliceFrom axis (spans.map (Span.ground ρ))
        (axes.map (AxisRange.ground ρ))) := by
  induction spans generalizing axis axes with
  | nil => exact .ok ⟨haxes, rfl, rfl⟩
  | cons span rest ih =>
      have hspan := hspans span List.mem_cons_self
      refine .bind (refuseNegative_follows axis hspan.start hspan.stop) fun _ _ hnonneg => ?_
      refine .bind (refuseReversed_follows axis hspan.start hspan.stop) fun _ _ _ => ?_
      refine .bind (axisAt_follows hv axis) fun range _ hrange => ?_
      obtain ⟨hrange, rfl⟩ := hrange
      simp only [AxisRange.narrow_ground hrange.integral hspan.start.integral
        hspan.stop.integral]
      refine .bind (refuseReversed_follows axis (hrange.start.add hspan.start)
        ((hrange.start.add hspan.stop).min hrange.stop)) fun _ _ hle => ?_
      have hnarrow := narrow_ready hrange hspan hnonneg.1 hle
      rw [setAxis_ground]
      refine (ih (fun s hs => hspans s (List.mem_cons_of_mem _ hs)) (axis + 1) ?_).mono ?_
      · intro held hheld
        rcases mem_setAxis hheld with hold | rfl
        · exact haxes held hold
        · exact hnarrow
      · rintro narrowed others ⟨hready, hlength, rfl⟩
        exact ⟨hready, by rw [hlength, length_setAxis], rfl⟩

end

end View

section

variable {known : String → Prop} {ρ : Valuation} {v w : View}

/-- Views that match are sliced to views that match, if the slice of the literals is accepted.
-/
theorem ViewsMatch.slice_follows [Arithmetic] [Unbounded] (h : ViewsMatch known ρ v w)
    {spans others : List Span} (hspans : SpansMatch known ρ spans others) :
    Follows (ViewsMatch known ρ) (v.slice spans) (w.slice others) := by
  obtain ⟨hready, rfl⟩ := h
  obtain ⟨hspans, rfl⟩ := hspans
  refine .check (by simp) fun _ => .bind (View.sliceFrom_follows hready hspans 0 hready.axes) ?_
  rintro axes _ ⟨haxes, hlength, rfl⟩
  refine .ok ⟨⟨?_, haxes⟩, rfl⟩
  show v.order.Perm (List.range axes.length)
  rw [hlength]
  exact hready.wellFormed

/-! ## Reordering and inserting -/

/-- Views that match are permuted to views that match. -/
theorem ViewsMatch.permute_follows (h : ViewsMatch known ρ v w) (axes : List Number) :
    Follows (ViewsMatch known ρ) (v.permute axes) (w.permute axes) := by
  obtain ⟨hready, rfl⟩ := h
  refine .bind (.self _) ?_
  rintro positions _ ⟨rfl, hpositions⟩
  refine .bind (.self _) ?_
  rintro order _ ⟨rfl, horder⟩
  obtain ⟨_, rfl⟩ := Axis.pick_eq_ok.mp horder
  exact .ok ⟨⟨(Axis.picked_perm (Axis.permutation_perm hpositions)).trans hready.wellFormed,
    hready.axes⟩, rfl⟩

/-- Views that match are expanded to views that match, by a size that is ready and its literal.
-/
theorem ViewsMatch.expand_follows (h : ViewsMatch known ρ v w) (axis : Number) {size : Size}
    (hsize : size.Ready known ρ) (hnonneg : 0 ≤ size.value ρ) :
    Follows (ViewsMatch known ρ) (v.expand axis (.size size))
      (w.expand axis (.size (size.ground ρ))) := by
  obtain ⟨hready, rfl⟩ := h
  refine .bind (.self _) ?_
  rintro position _ ⟨rfl, hposition⟩
  have hground : (size.ground ρ).Integral := ⟨_, rfl⟩
  simp only [Quantity.toSize]
  refine .ok_bind ?_
  rw [hsize.integral.pin_eq, hground.pin_eq]
  refine .ok ⟨⟨?_, List.forall_mem_append.mpr ⟨hready.axes, ?_⟩⟩, ?_⟩
  · show (Axis.insertAt v.order position v.axes.length).Perm
      (List.range (v.axes ++ [AxisRange.whole size true]).length)
    rw [List.length_append, List.length_singleton, List.range_succ]
    exact (Axis.insertAt_perm _ _ _).trans
      ((hready.wellFormed.cons _).trans (List.perm_append_singleton _ _).symm)
  · simpa using AxisRange.Ready.whole hsize hnonneg true
  · simp [View.ground, AxisRange.ground_whole]

end

end ShapeGraph
