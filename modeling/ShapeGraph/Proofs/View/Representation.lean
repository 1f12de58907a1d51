import ShapeGraph.Proofs.Size.Symbols
import ShapeGraph.Proofs.View.Exchange

/-!
# How a view is kept

A view keeps its axes in storage order next to the order in which they are shown, and its
operations edit the two through different positions: a slice finds its axes through the order, a
new axis comes last in storage wherever it is shown, and a permutation touches the order alone.
The order has to stay a permutation of the axes through all of it.  Then every axis can be found,
the inverse of the order leads back, and an operation reaches no axis that it does not name.

* `Bijective`, `Inverted`, `Readable` — what it takes to find an axis, and the way back;
* `slice_fault`, `resolve_fault` — what slicing and resolving can fail with;
* `Operation.Names`, `Operation.apply_kept` — an axis that is not named stays as it is;
* `Operation.Keeps`, `Operation.apply_keeps` — what else an operation does not touch;
* `Standing.represented` — all of this for the views that calls end in.
-/

namespace ShapeGraph.View

open ShapeGraph.Axis (exists_place getElem?_invert insertAt invert_picked length_invert picked
  picked_invert)
open ShapeGraph.Numeric (Arithmetic Number)

variable {v w : View}

/-! ## Finding axes -/

/-- The order leads from the logical axes onto the physical ones, and to each of them once. -/
structure Bijective (v : View) : Prop where
  rank_eq : v.rank = v.axes.length
  shows : ∀ axis < v.rank, ∃ physical < v.axes.length, v.order[axis]? = some physical
  shown : ∀ physical < v.axes.length, ∃! axis : Nat, v.order[axis]? = some physical

/-- The inverse of the order leads back, before it and after it. -/
structure Inverted (v : View) : Prop where
  length_eq : v.inverseOrder.length = v.rank
  leads : ∀ axis physical : Nat,
    v.inverseOrder[physical]? = some axis ↔ v.order[axis]? = some physical
  after : picked v.order v.inverseOrder = List.range v.rank
  before : picked v.inverseOrder v.order = List.range v.rank

/-- No reading of the view looks for an axis that is not there. -/
structure Readable [Arithmetic] (v : View) : Prop where
  axisAt : ∀ axis < v.rank, ∃ range, v.axisAt axis = .ok range
  ranges : ∃ ranges, v.ranges = .ok ranges ∧ ranges.length = v.rank
  lengths : ∃ lengths, v.lengths = .ok lengths ∧ lengths.length = v.rank
  slice : ∀ spans problem, v.slice spans ≠ .error (.range "tracker" problem)
  resolve : ∀ bindings problem, v.resolve bindings ≠ .error (.range "tracker" problem)

/-- The order is a permutation of the positions that it has. -/
theorem WellFormed.order_perm (hv : v.WellFormed) : v.order.Perm (List.range v.rank) :=
  hv.length_axes ▸ hv

/-- The order of a well-formed view is bijective. -/
theorem WellFormed.bijective (hv : v.WellFormed) : v.Bijective where
  rank_eq := hv.length_axes.symm
  shows := by
    intro axis haxis
    have hplace : v.order[axis]? = some v.order[axis] := List.getElem?_eq_getElem haxis
    exact ⟨_, hv.within _ (List.mem_of_getElem? hplace), hplace⟩
  shown := by
    intro physical hphysical
    obtain ⟨axis, haxis⟩ := exists_place hv hphysical
    refine ⟨axis, haxis, ?_⟩
    intro other hother
    have hlt : axis < v.order.length := (List.getElem?_eq_some_iff.mp haxis).1
    exact ((List.getElem?_inj hlt hv.nodup).mp (haxis.trans hother.symm)).symm

theorem WellFormed.inverted (hv : v.WellFormed) : v.Inverted where
  length_eq := length_invert v.order
  leads := by
    intro axis physical
    constructor
    · intro h
      have hlt : physical < v.axes.length := by
        rw [hv.length_axes, rank, ← length_invert]
        exact (List.getElem?_eq_some_iff.mp h).1
      obtain ⟨place, hplace⟩ := exists_place hv hlt
      have hback : v.inverseOrder[physical]? = some place := getElem?_invert hv hplace
      obtain rfl := Option.some.inj (hback.symm.trans h)
      exact hplace
    · exact getElem?_invert hv
  after := picked_invert hv.order_perm
  before := invert_picked hv.order_perm

/-! ## What reading can fail with -/

section

variable {fault : Fault}

/-- A bound that is negative is refused as a range of a slice. -/
theorem refuseNegative_fault {axis : Nat} {start stop : Size}
    (h : refuseNegative axis start stop = .error fault) :
    ∃ problem, fault = .range "slice" problem := by
  unfold refuseNegative at h
  split at h
  · exact ⟨_, (Except.error.inj h).symm⟩
  · cases h

theorem refuseReversed_fault {axis : Nat} {start stop : Size}
    (h : refuseReversed axis start stop = .error fault) :
    ∃ problem, fault = .range "slice" problem := by
  unfold refuseReversed at h
  split at h
  · split at h
    · exact ⟨_, (Except.error.inj h).symm⟩
    · cases h
  · cases h

variable [Arithmetic]

/-- Narrowing axes that are there fails only for what the spans ask for. -/
theorem sliceFrom_fault (hv : v.WellFormed) {spans : List Span} {axis : Nat}
    {axes : List AxisRange} (hcount : axis + spans.length ≤ v.rank)
    (h : v.sliceFrom axis spans axes = .error fault) :
    ∃ problem, fault = .range "slice" problem := by
  induction spans generalizing axis axes with
  | nil => cases h
  | cons span rest ih =>
      rw [List.length_cons] at hcount
      obtain ⟨range, hrange⟩ := hv.axisAt_ok (show axis < v.rank by omega)
      simp only [sliceFrom, hrange, ok_bind] at h
      rcases bind_eq_error.mp h with hnegative | ⟨_, _, h⟩
      · exact refuseNegative_fault hnegative
      · rcases bind_eq_error.mp h with hreversed | ⟨_, _, h⟩
        · exact refuseReversed_fault hreversed
        · rcases bind_eq_error.mp h with hnarrowed | ⟨_, _, h⟩
          · exact refuseReversed_fault hnarrowed
          · exact ih (by omega) h

/-- **Slicing fails** only for what the spans ask for. -/
theorem slice_fault (hv : v.WellFormed) {spans : List Span} (h : v.slice spans = .error fault) :
    ∃ problem, fault = .range "slice" problem := by
  unfold slice at h
  split at h
  · exact ⟨_, (Except.error.inj h).symm⟩
  · next hcount =>
    rcases bind_eq_error.mp h with hfrom | ⟨_, _, h⟩
    · exact sliceFrom_fault hv (by omega) hfrom
    · cases h

/-- The fault is one of an evaluation, or a range that has come out reversed. -/
def OfResolving (fault : Fault) : Prop :=
  fault.report.code? = some "DIVISION_BY_ZERO" ∨
    (∃ s names, fault = .size (.unresolved s names)) ∨ ∃ problem, fault = .range "resolve" problem

/-- What stops an evaluation is one of the faults of resolving. -/
theorem evaluate_fault {bindings : Bindings} {s : Size} (h : s.evaluate bindings = .error fault) :
    OfResolving fault := by
  rcases s.evaluate_cases bindings with ⟨v, _, hv⟩ | ⟨other, hother, hzero⟩ | ⟨t, _, _, hleft⟩
  · cases hv.symm.trans h
  · obtain rfl := Except.error.inj (hother.symm.trans h)
    exact .inl hzero
  · obtain rfl := Except.error.inj (hleft.symm.trans h)
    exact .inr (.inl ⟨_, _, rfl⟩)

/-- What stops the resolution of ranges is one of them, too. -/
theorem resolveFrom_fault {bindings : Bindings} {ranges : List AxisRange} {axis : Nat}
    (h : resolveFrom bindings axis ranges = .error fault) : OfResolving fault := by
  induction ranges generalizing axis with
  | nil => cases h
  | cons range rest ih =>
      rw [resolveFrom] at h
      rcases bind_eq_error.mp h with hstart | ⟨_, _, h⟩
      · exact evaluate_fault hstart
      · rcases bind_eq_error.mp h with hstop | ⟨_, _, h⟩
        · exact evaluate_fault hstop
        · split at h
          · exact .inr (.inr ⟨_, (Except.error.inj h).symm⟩)
          · rcases bind_eq_error.mp h with hrest | ⟨_, _, h⟩
            · exact ih hrest
            · cases h

/-- **Resolving fails** only for what the sizes come to. -/
theorem resolve_fault (hv : v.WellFormed) {bindings : Bindings}
    (h : v.resolve bindings = .error fault) : OfResolving fault := by
  rw [resolve, ranges_eq hv, ok_bind] at h
  rcases bind_eq_error.mp h with hfrom | ⟨_, _, h⟩
  · exact resolveFrom_fault hfrom
  · cases h

/-- No reading of a well-formed view fails for want of an axis. -/
theorem WellFormed.readable (hv : v.WellFormed) : v.Readable where
  axisAt := fun _ haxis => hv.axisAt_ok haxis
  ranges := ⟨_, ranges_eq hv, hv.length_shown⟩
  lengths := ⟨_, lengths_eq hv, by rw [List.length_map, hv.length_shown]⟩
  slice := by
    intro spans problem h
    obtain ⟨other, hother⟩ := slice_fault hv h
    simp at hother
  resolve := by
    intro bindings problem h
    rcases resolve_fault hv h with hzero | ⟨_, _, hleft⟩ | ⟨_, hrange⟩
    · have hcode : (some "INVALID_RANGE" : Option String) = some "DIVISION_BY_ZERO" := hzero
      simp at hcode
    · cases hleft
    · simp at hrange

end

/-! ## What an operation does not touch -/

section

variable [Arithmetic]

/-- The operation names a physical axis: it has a span for it, or repeats it. -/
def Operation.Names (v : View) (physical : Nat) : Operation → Prop
  | slice spans => ∃ axis < spans.length, v.order[axis]? = some physical
  | permute _ => False
  | expand _ _ => False
  | broadcastAxis axis _ => ∃ position, Axis.position "expand" axis v.rank = .ok position ∧
      v.order[position]? = some physical

/-- What an operation leaves alone beside the axes that it does not name. -/
def Operation.Keeps (v w : View) : Operation → Prop
  | slice _ => w.order = v.order ∧ w.axes.length = v.axes.length ∧
      ∀ (physical : Nat) (range narrowed : AxisRange), v.axes[physical]? = some range →
        w.axes[physical]? = some narrowed →
          narrowed.size = range.size ∧ narrowed.broadcast = range.broadcast
  | permute _ => w.axes = v.axes ∧ w.order.Perm v.order
  | expand axis _ => w.axes.length = v.axes.length + 1 ∧
      ∃ position, Axis.position "expand" axis (v.rank + 1) = .ok position ∧
        w.order = insertAt v.order position v.axes.length
  | broadcastAxis _ _ => w.order = v.order ∧ w.axes.length = v.axes.length

/-- A slice narrows each physical axis by the span of the place at which it is shown. -/
theorem slice_axes_at (hv : v.WellFormed) {spans : List Span} (h : v.slice spans = .ok w)
    {axis physical : Nat} (hplace : v.order[axis]? = some physical) :
    w.axes[physical]? = v.axes[physical]?.map fun range => spans[axis]?.elim range (narrow range) := by
  have hw := (slice_ok hv h).1
  have hshown := slice_shown_at hv h axis
  rwa [shown, shown, Axis.getElem?_picked hw.within, Axis.getElem?_picked hv.within,
    slice_order h, hplace, Option.bind_some, Option.bind_some] at hshown

/-- **An axis that is not named stays as it is.** -/
theorem Operation.apply_kept (hv : v.WellFormed) {op : Operation} (h : op.apply v = .ok w)
    {physical : Nat} {range : AxisRange} (hrange : v.axes[physical]? = some range)
    (hnamed : ¬ op.Names v physical) : w.axes[physical]? = some range := by
  have hlt : physical < v.axes.length := (List.getElem?_eq_some_iff.mp hrange).1
  cases op with
  | slice spans =>
      obtain ⟨axis, hplace⟩ := exists_place hv hlt
      have hspan : spans[axis]? = none := by
        rw [List.getElem?_eq_none_iff]
        by_contra hshort
        exact hnamed ⟨axis, by omega, hplace⟩
      rw [slice_axes_at hv h hplace, hrange, hspan]
      rfl
  | permute axes =>
      obtain ⟨_, _, rfl⟩ := permute_eq_ok.mp h
      exact hrange
  | expand axis size =>
      simp only [Operation.apply, View.expand, bind_eq_ok, pure_eq_ok] at h
      obtain ⟨_, _, _, _, rfl⟩ := h
      rw [List.getElem?_append_left hlt]
      exact hrange
  | broadcastAxis axis size =>
      obtain ⟨position, _, hposition, _, rfl⟩ := broadcastAxis_made h
      obtain ⟨other, _, hplace⟩ := hv.bijective.shows position (Axis.position_lt hposition)
      have hother : other ≠ physical := by
        intro heq
        exact hnamed ⟨position, hposition, heq ▸ hplace⟩
      show (v.setAxis v.axes position _)[physical]? = some range
      rw [setAxis, hplace, List.getElem?_set_ne hother]
      exact hrange

/-- **What an operation leaves alone**, whichever axes it names. -/
theorem Operation.apply_keeps (hv : v.WellFormed) {op : Operation} (h : op.apply v = .ok w) :
    op.Keeps v w := by
  have hw := op.apply_wellFormed hv h
  cases op with
  | slice spans =>
      have horder := slice_order h
      have hlength : w.axes.length = v.axes.length := by
        rw [hw.length_axes, hv.length_axes, rank, rank, horder]
      refine ⟨horder, hlength, ?_⟩
      intro physical range narrowed hrange hnarrowed
      obtain ⟨axis, hplace⟩ := exists_place hv (List.getElem?_eq_some_iff.mp hrange).1
      rw [slice_axes_at hv h hplace, hrange, Option.map_some] at hnarrowed
      obtain rfl := Option.some.inj hnarrowed
      cases spans[axis]? with
      | none => exact ⟨rfl, rfl⟩
      | some span => exact ⟨rfl, rfl⟩
  | permute axes =>
      obtain ⟨positions, hpositions, rfl⟩ := permute_eq_ok.mp h
      exact ⟨rfl, Axis.picked_perm (Axis.permutation_perm hpositions)⟩
  | expand axis size =>
      simp only [Operation.apply, View.expand, bind_eq_ok, pure_eq_ok] at h
      obtain ⟨position, hposition, _, _, rfl⟩ := h
      exact ⟨List.length_append, position, hposition, rfl⟩
  | broadcastAxis axis size =>
      obtain ⟨position, _, _, _, rfl⟩ := broadcastAxis_made h
      exact ⟨rfl, length_setAxis _ _ _ _⟩

end

/-! ## Settled views -/

/-- The range at a place is pinned at that place. -/
theorem pinAxes_at {axes : List AxisRange} (n : Nat) {physical : Nat} {range : AxisRange}
    (h : axes[physical]? = some range) :
    ∃ m, (pinAxes n axes)[physical]? = some (range.pin m) := by
  induction axes generalizing n physical with
  | nil => cases h
  | cons first rest ih =>
      cases physical with
      | zero =>
          obtain rfl := Option.some.inj h
          exact ⟨n, rfl⟩
      | succ physical => exact ih _ h

/-- Each axis is settled by itself. -/
theorem settle_at (owner : Nat) {physical : Nat} {range : AxisRange}
    (h : w.axes[physical]? = some range) :
    ∃ m, (w.settle owner).axes[physical]? = some ((range.pin m).settle owner) := by
  obtain ⟨m, hm⟩ := pinAxes_at w.pinBound h
  refine ⟨m, ?_⟩
  show ((pinAxes w.pinBound w.axes).map (AxisRange.settle owner))[physical]? = _
  rw [List.getElem?_map, hm]
  rfl

/-- An axis without undefined values of its own stays as it is when the view is settled. -/
theorem settle_kept (owner : Nat) {physical : Nat} {range : AxisRange} (howned : range.Owned)
    (h : w.axes[physical]? = some range) : (w.settle owner).axes[physical]? = some range := by
  obtain ⟨m, hm⟩ := settle_at owner h
  rw [hm, AxisRange.pin_of_freshCount howned.freshCount_eq, howned.settle_eq]

theorem length_settle (w : View) (owner : Nat) :
    (w.settle owner).axes.length = w.axes.length := by
  show ((pinAxes w.pinBound w.axes).map (AxisRange.settle owner)).length = _
  rw [List.length_map, length_pinAxes]

/-- What an operation leaves alone is left alone by settling as well. -/
theorem Operation.Keeps.settle [Arithmetic] (howned : v.Owned) {op : Operation}
    (h : op.Keeps v w) (owner : Nat) : op.Keeps v (w.settle owner) := by
  cases op with
  | slice spans =>
      obtain ⟨horder, hlength, hall⟩ := h
      refine ⟨horder, (length_settle w owner).trans hlength, ?_⟩
      intro physical range settled hrange hsettled
      have hlt : physical < w.axes.length := hlength ▸ (List.getElem?_eq_some_iff.mp hrange).1
      have hnarrowed := List.getElem?_eq_getElem hlt
      obtain ⟨m, hm⟩ := settle_at owner hnarrowed
      obtain rfl := Option.some.inj (hm.symm.trans hsettled)
      obtain ⟨hsize, hbroadcast⟩ := hall physical range _ hrange hnarrowed
      have hown := (howned range (List.mem_of_getElem? hrange)).size
      refine ⟨?_, hbroadcast⟩
      simp only [AxisRange.settle, AxisRange.pin]
      rw [hsize, Size.pin_eq_self hown.freshCount_eq, hown.settle_eq]
  | permute axes =>
      obtain ⟨haxes, horder⟩ := h
      have hown : w.Owned := by
        intro range hr
        exact howned range (haxes ▸ hr)
      rw [hown.settle_eq]
      exact ⟨haxes, horder⟩
  | expand axis size => exact ⟨(length_settle w owner).trans h.1, h.2⟩
  | broadcastAxis axis size => exact ⟨h.1, (length_settle w owner).trans h.2⟩

/-! ## Views that stand -/

section

variable [Arithmetic]

/-- What an operation leaves of a view: the axes that it does not name, and whatever else it
keeps. -/
structure Operation.Frame (op : Operation) (v w : View) : Prop where
  kept : ∀ (physical : Nat) (range : AxisRange), v.axes[physical]? = some range →
    ¬ op.Names v physical → w.axes[physical]? = some range
  keeps : op.Keeps v w

/-- An operation that is accepted leaves alone all axes that it does not name. -/
theorem Operation.apply_frame (hv : v.WellFormed) {op : Operation} (h : op.apply v = .ok w) :
    op.Frame v w :=
  ⟨fun _ _ hrange hnamed => op.apply_kept hv h hrange hnamed, op.apply_keeps hv h⟩

/-- The frame of an operation is not touched when its result is settled. -/
theorem Operation.Frame.settle (howned : v.Owned) {op : Operation} (h : op.Frame v w)
    (owner : Nat) : op.Frame v (w.settle owner) where
  kept := by
    intro physical range hrange hnamed
    have hown := howned range (List.mem_of_getElem? hrange)
    exact settle_kept owner hown (h.kept physical range hrange hnamed)
  keeps := h.keeps.settle howned owner

/-- Binding symbols leaves the order and the kinds of the axes alone. -/
theorem substitute_keeps {bindings : Bindings} (h : v.substitute bindings = .ok w) :
    w.order = v.order ∧ w.axes.map AxisRange.broadcast = v.axes.map AxisRange.broadcast := by
  obtain ⟨haxes, horder⟩ := substitute_iff.mp h
  refine ⟨horder.symm, ?_⟩
  generalize v.axes = before, w.axes = after at haxes
  induction haxes with
  | nil => rfl
  | cons hrange _ ih => rw [List.map_cons, List.map_cons, ih, hrange.broadcast]

end

/-- **How every view is kept**, whatever calls it ends.  Its order is a bijection from logical
axes onto physical ones, with its inverse on both sides, so that no axis is looked for in vain.
Operations leave every axis alone that they do not name, in what they make and in what that is
settled to, and binding symbols leaves the order and the kinds of the axes alone. -/
theorem Standing.represented [Arithmetic] (hv : v.Standing) :
    v.Bijective ∧ v.Inverted ∧ v.Readable ∧
      (∀ (op : Operation) (w : View), op.apply v = .ok w →
        op.Frame v w ∧ ∀ owner, op.Frame v (w.settle owner)) ∧
      ∀ (bindings : Bindings) (w : View), v.substitute bindings = .ok w →
        w.order = v.order ∧
          w.axes.map AxisRange.broadcast = v.axes.map AxisRange.broadcast := by
  have hwell := hv.wellFormed
  refine ⟨hwell.bijective, hwell.inverted, hwell.readable, ?_, ?_⟩
  · intro op w h
    have hframe := op.apply_frame hwell h
    exact ⟨hframe, hframe.settle hv.owned⟩
  · intro bindings w h
    exact substitute_keeps h

/-- A slice of the rows leaves the columns as they are, which are shown at one place only. -/
theorem represented_rowsAndColumns :
    (∃! axis : Nat, rowsAndColumns.order[axis]? = some 1) ∧
      ∃ w, rowsAndColumns.slice [⟨.one, .literal 4⟩] = .ok w ∧
        w.axes[1]? = some (.whole (.symbol "n") false) := by
  obtain ⟨hbijective, _, _, hframes, _⟩ := standing_rowsAndColumns.represented
  obtain ⟨w, hw⟩ : ∃ w, rowsAndColumns.slice [⟨.one, .literal 4⟩] = .ok w := ⟨_, rfl⟩
  obtain ⟨hframe, _⟩ := hframes (.slice [⟨.one, .literal 4⟩]) w hw
  refine ⟨hbijective.shown 1 (by decide), w, hw, hframe.kept 1 _ rfl ?_⟩
  rintro ⟨axis, hlt, hplace⟩
  obtain rfl : axis = 0 := Nat.lt_one_iff.mp hlt
  cases hplace

end ShapeGraph.View
