import ShapeGraph.Proofs.View.Evaluation

/-!
# Views under a binding

Binding the symbols of a view binds them in each of its ranges.  Narrowing a range and binding
it can change places, because a sum and a lesser size become those of what their parts become.

A view that resolves can be bound in stages.  Its bounds come to integers, so each stage can
rebuild them; what has to be shown is that it can rebuild the sizes of the axes in storage as
well, of which resolving makes no use.  But a range ends where its axis does or at a lesser
size that is made of that, and such a lesser size can be rebuilt only if its parts can.

* `AxisRange.Becomes` — what a range becomes under a binding;
* `narrow_becomes` — narrowing and binding change places;
* `Size.Caps`, `Reachable.capped` — the size of an axis is part of where its range ends;
* `resolve_in_stages` — a view that resolves does so in stages.
-/

namespace ShapeGraph

open ShapeGraph.Numeric (Arithmetic Number Unbounded)

/-- Replaces the bound symbols of a span. -/
def Span.substitute [Arithmetic] (bindings : Bindings) (span : Span) : Except Fault Span := do
  let start ← span.start.substitute bindings
  let stop ← span.stop.substitute bindings
  return ⟨start, stop⟩

/-- The sizes of a range become those of another one. -/
structure AxisRange.Becomes [Arithmetic] (bindings : Bindings) (range range' : AxisRange) :
    Prop where
  start : range.start.substitute bindings = .ok range'.start
  stop : range.stop.substitute bindings = .ok range'.stop
  size : range.size.substitute bindings = .ok range'.size
  broadcast : range.broadcast = range'.broadcast

section

variable [Arithmetic] {bindings : Bindings}

/-- A span is bound bound by bound. -/
theorem Span.substitute_iff {span span' : Span} : span.substitute bindings = .ok span' ↔
    span.start.substitute bindings = .ok span'.start ∧
      span.stop.substitute bindings = .ok span'.stop := by
  simp only [Span.substitute, bind_eq_ok, pure_eq_ok]
  constructor
  · rintro ⟨start, hstart, stop, hstop, rfl⟩
    exact ⟨hstart, hstop⟩
  · rintro ⟨hstart, hstop⟩
    exact ⟨_, hstart, _, hstop, rfl⟩

theorem AxisRange.substitute_iff {range range' : AxisRange} :
    range.substitute bindings = .ok range' ↔ range.Becomes bindings range' := by
  simp only [AxisRange.substitute, bind_eq_ok, pure_eq_ok]
  constructor
  · rintro ⟨start, hstart, stop, hstop, size, hsize, rfl⟩
    exact ⟨hstart, hstop, hsize, rfl⟩
  · rintro ⟨hstart, hstop, hsize, hbroadcast⟩
    refine ⟨_, hstart, _, hstop, _, hsize, ?_⟩
    rw [hbroadcast]

/-- The whole of an axis becomes the whole of what its size becomes. -/
theorem AxisRange.whole_becomes {size size' : Size} (h : size.substitute bindings = .ok size')
    (broadcast : Bool) :
    (AxisRange.whole size broadcast).Becomes bindings (.whole size' broadcast) :=
  ⟨rfl, h, h, rfl⟩

namespace View

/-- A view is bound range by range. -/
theorem substitute_iff {v w : View} : v.substitute bindings = .ok w ↔
    List.Forall₂ (AxisRange.Becomes bindings) v.axes w.axes ∧ v.order = w.order := by
  simp only [substitute, bind_eq_ok, pure_eq_ok, mapM_eq_ok, AxisRange.substitute_iff]
  constructor
  · rintro ⟨axes, haxes, rfl⟩
    exact ⟨haxes, rfl⟩
  · rintro ⟨haxes, horder⟩
    refine ⟨_, haxes, ?_⟩
    rw [horder]

variable [Unbounded]

/-- **Narrowing and binding change places.** -/
theorem narrow_becomes {range range' : AxisRange} {span span' : Span} (hrange : range.Integral)
    (hspan : span.Integral) (hb : bindings.Integral) (h : range.Becomes bindings range')
    (h' : span.substitute bindings = .ok span') :
    (narrow range span).Becomes bindings (narrow range' span') := by
  obtain ⟨hstart, hstop⟩ := Span.substitute_iff.mp h'
  have hsum := (Size.add_means hrange.start.means hspan.2.means).integral
  have hend := Size.substitute_add hrange.start hspan.2 hb h.start hstop
  exact ⟨Size.substitute_add hrange.start hspan.1 hb h.start hstart,
    Size.substitute_extremum (.inl rfl) hsum hrange.stop hb hend h.stop, h.size, h.broadcast⟩

end View

end

/-! ## Where ranges end -/

/-- A size, or a lesser one that is made of it. -/
inductive Size.Caps [Arithmetic] (size : Size) : Size → Prop
  | self : Caps size size
  | min {stop : Size} (bound : Size) (before : Caps size stop) (integral : bound.Integral) :
      Caps size (bound.min stop)

namespace Size

variable [Arithmetic] [Unbounded] {bindings : Bindings} {size stop : Size}

/-- A size that caps another one is of integers if the other one is. -/
theorem Caps.integral (h : size.Caps stop) (hsize : size.Integral) : stop.Integral := by
  induction h with
  | self => exact hsize
  | min bound before hbound ih => exact (Size.min_means hbound.means ih.means).integral

/-- Where what a size has been made into can be rebuilt, the size can, and it is part of what
that becomes. -/
theorem Caps.substitute (h : size.Caps stop) (hsize : size.Integral) (hb : bindings.Integral)
    {stop' : Size} (hstop : stop.substitute bindings = .ok stop') :
    ∃ size', size.substitute bindings = .ok size' ∧ size'.Caps stop' := by
  induction h generalizing stop' with
  | self => exact ⟨stop', hstop, .self⟩
  | min bound before hbound ih =>
      obtain ⟨bound', rest, hbound', hrest, rfl⟩ :=
        (substitute_min_iff hbound (before.integral hsize) hb).mp hstop
      obtain ⟨size', hsize', hcaps⟩ := ih hrest
      exact ⟨size', hsize', .min bound' hcaps (substitute_integral hbound hb hbound')⟩

end Size

namespace View

/-- Every range ends at the size of its axis or at a lesser size made of it. -/
def Capped [Arithmetic] (v : View) : Prop :=
  ∀ range ∈ v.axes, range.size.Caps range.stop

section

variable [Arithmetic] [Unbounded] {v w : View}

/-- A slice of a capped view is capped. -/
theorem slice_capped (hv : v.WellFormed) (hi : v.Integral) (h : v.Capped) {spans : List Span}
    (hspans : ∀ span ∈ spans, span.Integral) (hw : v.slice spans = .ok w) : w.Capped := by
  obtain ⟨hwell, _, hshown⟩ := slice_ok hv hw
  intro range hr
  rw [← hwell.mem_shown] at hr
  obtain ⟨axis, haxis⟩ := List.mem_iff_getElem?.mp hr
  rw [slice_shown_at hv hw] at haxis
  obtain ⟨old, hold, rfl⟩ := Option.map_eq_some_iff.mp haxis
  have hmem := List.mem_of_getElem? hold
  have hcaps := h old (hv.mem_shown.mp hmem)
  cases hspan : spans[axis]? with
  | none => exact hcaps
  | some span =>
      have hsi := hspans span (List.mem_of_getElem? hspan)
      exact .min _ hcaps (Size.add_means (hi.of_mem_shown hmem).start.means hsi.2.means).integral

/-- A capped view stays so when symbols are bound. -/
theorem substitute_capped (hi : v.Integral) (h : v.Capped) {bindings : Bindings}
    (hb : bindings.Integral) (hw : v.substitute bindings = .ok w) : w.Capped := by
  simp only [substitute, bind_eq_ok, pure_eq_ok] at hw
  obtain ⟨axes, haxes, rfl⟩ := hw
  intro range' hr
  obtain ⟨range, hrange, hbound⟩ := exists_of_mem_mapM haxes hr
  have hbecomes := AxisRange.substitute_iff.mp hbound
  obtain ⟨size', hsize', hcaps⟩ :=
    (h range hrange).substitute (hi range hrange).size hb hbecomes.stop
  obtain rfl := Except.ok.inj (hsize'.symm.trans hbecomes.size)
  exact hcaps

end

/-- **The size of an axis is part of where its range ends**, in every view that can be
reached. -/
theorem Reachable.capped {v : View} (h : v.Reachable) : @Capped Arithmetic.unbounded v := by
  induction h with
  | whole integral made =>
      simp only [ofQuantities, bind_eq_ok, pure_eq_ok] at made
      obtain ⟨sizes, _, rfl⟩ := made
      exact List.forall_mem_map.mpr fun _ _ => @Size.Caps.self .unbounded _
  | slice before integral exactly made ih =>
      exact @slice_capped .unbounded _ _ _ before.wellFormed before.integral ih _ integral
        (exactly.symm.trans made)
  | permute _ made ih =>
      simp only [View.permute, bind_eq_ok, pure_eq_ok] at made
      obtain ⟨_, _, _, _, rfl⟩ := made
      exact ih
  | expand _ _ made ih =>
      simp only [View.expand, bind_eq_ok, pure_eq_ok] at made
      obtain ⟨_, _, _, _, rfl⟩ := made
      refine List.forall_mem_append.mpr ⟨ih, fun range hr => ?_⟩
      obtain rfl := List.mem_singleton.mp hr
      exact @Size.Caps.self .unbounded _
  | broadcastAxis _ _ _ made ih =>
      obtain ⟨_, _, _, _, rfl⟩ := broadcastAxis_made made
      intro range hr
      rcases mem_setAxis hr with hold | rfl
      · exact ih range hold
      · exact @Size.Caps.self .unbounded _
  | substitute before integral exactly made ih =>
      exact @substitute_capped .unbounded _ _ _ before.integral ih _ integral
        (exactly.symm.trans made)

/-! ## Stages -/

section

variable [Arithmetic] [Unbounded] {both first second : Bindings}

/-- A range that resolves can be bound in a first stage, and resolves to the same in the
second one. -/
theorem ResolvesTo.in_stages {range : AxisRange} {concrete : ConcreteRange}
    (hrange : range.Integral) (hcaps : range.size.Caps range.stop)
    (hjoins : both.Joins first second) (hfirst : first.Integral) (hsecond : second.Integral)
    (h : ResolvesTo both range concrete) :
    ∃ range', range.Becomes first range' ∧ ResolvesTo second range' concrete := by
  have hboth := hjoins.integral hfirst hsecond
  obtain ⟨m, n, ⟨hstart, hstop⟩, hm, hn, rfl⟩ := h
  rw [Size.evaluate_eq_ok] at hstart hstop
  obtain ⟨size, hsize, _⟩ := hcaps.substitute hrange.size hboth hstop
  obtain ⟨start', hstart', hstart⟩ :=
    Size.substitute_substitute hjoins hfirst hsecond hrange.start hstart
  obtain ⟨stop', hstop', hstop⟩ :=
    Size.substitute_substitute hjoins hfirst hsecond hrange.stop hstop
  obtain ⟨size', hsize', _⟩ :=
    Size.substitute_substitute hjoins hfirst hsecond hrange.size hsize
  refine ⟨⟨start', stop', size', range.broadcast⟩, ⟨hstart', hstop', hsize', rfl⟩,
    ⟨m, n, ⟨?_, ?_⟩, hm, hn, rfl⟩⟩
  · exact Size.evaluate_eq_ok.mpr hstart
  · exact Size.evaluate_eq_ok.mpr hstop

omit [Unbounded] in
/-- The ranges that a bound view shows are those of the view, bound. -/
theorem substitute_shown {v w : View} (hv : v.WellFormed) (h : v.substitute first = .ok w)
    {axis : Nat} {range' : AxisRange} (hrange' : w.shown[axis]? = some range') :
    ∃ range, v.shown[axis]? = some range ∧ range.Becomes first range' := by
  obtain ⟨haxes, horder⟩ := substitute_iff.mp h
  have hlength : v.axes.length = w.axes.length := haxes.length_eq
  have hwithin : Axis.Within w.order w.axes.length := by
    rw [← horder, ← hlength]
    exact hv.within
  rw [shown, Axis.getElem?_picked hwithin, ← horder] at hrange'
  obtain ⟨p, hp, hphysical⟩ := Option.bind_eq_some_iff.mp hrange'
  have hlt : p < v.axes.length := by
    rw [hlength]
    exact (List.getElem?_eq_some_iff.mp hphysical).1
  have hold : v.axes[p]? = some v.axes[p] := List.getElem?_eq_getElem hlt
  refine ⟨v.axes[p], ?_, (forall₂_iff_getElem?.mp haxes).2 p _ _ hold hphysical⟩
  rw [shown, Axis.getElem?_picked hv.within, hp]
  exact hold

/-- **A view that resolves does so in stages**, and to the same. -/
theorem resolve_in_stages {v : View} (hv : v.WellFormed) (hi : v.Integral) (hcapped : v.Capped)
    (hjoins : both.Joins first second) (hfirst : first.Integral) (hsecond : second.Integral)
    {resolved : ResolvedView} (h : v.resolve both = .ok resolved) :
    ∃ w, v.substitute first = .ok w ∧ w.resolve second = .ok resolved := by
  have hboth := hjoins.integral hfirst hsecond
  obtain ⟨ranges, hlength, hranges, rfl⟩ := (resolve_iff hv hi hboth).mp h
  have hstages : ∀ range ∈ v.axes, ∀ concrete, ResolvesTo both range concrete →
      ∃ range', range.Becomes first range' ∧ ResolvesTo second range' concrete :=
    fun range hr concrete hconcrete =>
      hconcrete.in_stages (hi range hr) (hcapped range hr) hjoins hfirst hsecond
  -- each range in storage is shown, and what is shown resolves
  have hbound : ∀ range ∈ v.axes, ∃ range', range.substitute first = .ok range' := by
    intro range hr
    obtain ⟨axis, haxis⟩ := List.mem_iff_getElem?.mp (hv.mem_shown.mpr hr)
    have hlt : axis < ranges.length := by
      rw [hlength, ← hv.length_shown]
      exact (List.getElem?_eq_some_iff.mp haxis).1
    have hconcrete := hranges axis range _ haxis (List.getElem?_eq_getElem hlt)
    obtain ⟨range', hbecomes, _⟩ := hstages range hr _ hconcrete
    exact ⟨range', AxisRange.substitute_iff.mpr hbecomes⟩
  obtain ⟨axes, haxes⟩ := mapM_ok hbound
  have hw : v.substitute first = .ok ⟨axes, v.order⟩ := by
    rw [substitute, haxes]
    rfl
  obtain ⟨hwell, hwi⟩ := substitute_sound hv hi hfirst hw
  refine ⟨_, hw, (resolve_iff hwell hwi hsecond).mpr ⟨ranges, hlength, ?_, rfl⟩⟩
  intro axis range' concrete hrange' hconcrete
  obtain ⟨range, hrange, hbecomes⟩ := substitute_shown hv hw hrange'
  have hmem := hv.mem_shown.mp (List.mem_of_getElem? hrange)
  obtain ⟨other, hother, hresolves⟩ :=
    hstages range hmem concrete (hranges axis range concrete hrange hconcrete)
  have hsame := (AxisRange.substitute_iff.mpr hbecomes).symm.trans
    (AxisRange.substitute_iff.mpr hother)
  obtain rfl := Except.ok.inj hsame
  exact hresolves

end

end View

end ShapeGraph
