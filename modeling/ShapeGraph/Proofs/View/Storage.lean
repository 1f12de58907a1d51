import ShapeGraph.Proofs.View.Extent

/-!
# Views stay in storage

Views are stacked on views, and all of them read the storage at the bottom.  A
view lies within another if every physical axis that it reads is one that the
other reads, no further than the other does; axes that repeat one element read
nothing.  Every view operation stays within the view that it starts from, so
any stack of them stays within the storage at its bottom.

* `Within` — what one view reads the other one reads too;
* `Within.refl`, `Within.trans` — views can be stacked;
* `slice_within`, `permute_within`, `expand_within`, `broadcastAxis_within` — no
  operation leaves the view that it is applied to;
* `Laid`, `Within.laid` — what lies within whole storage ends where that ends.
-/

namespace ShapeGraph

open ShapeGraph.Numeric (Arithmetic Number Unbounded)

namespace View

/-- Every physical axis that the view reads is read by the other one, and no less
far. -/
def Within (w v : View) : Prop :=
  ∀ (p : Nat) (range : AxisRange), w.axes[p]? = some range → range.broadcast = true ∨
    ∃ held, v.axes[p]? = some held ∧ held.broadcast = false ∧
      ∀ ρ, range.stop.value ρ ≤ held.stop.value ρ

/-- The view shows whole storage of sizes that are integers. -/
def Laid (v : View) : Prop :=
  ∃ sizes : List Size, (∀ s ∈ sizes, s.Integral) ∧ v = contiguous sizes

variable {u v w : View}

/-- A view whose axes are repeated ones or those of the other lies within it. -/
theorem Within.of_axes (h : ∀ (p : Nat) (range : AxisRange), w.axes[p]? = some range →
    range.broadcast = true ∨ v.axes[p]? = some range) : w.Within v := by
  intro p range hrange
  rcases h p range hrange with hrepeated | hheld
  · exact .inl hrepeated
  · by_cases hbroadcast : range.broadcast = true
    · exact .inl hbroadcast
    · exact .inr ⟨range, hheld, by simpa using hbroadcast, fun ρ => Int.le_refl _⟩

theorem Within.refl (v : View) : v.Within v :=
  .of_axes fun _ _ h => .inr h

/-- Reading within is transitive. -/
theorem Within.trans (h : w.Within v) (h' : v.Within u) : w.Within u := by
  intro p range hrange
  rcases h p range hrange with hrepeated | ⟨held, hheld, hread, hstop⟩
  · exact .inl hrepeated
  · rcases h' p held hheld with hrepeated | ⟨below, hbelow, hread', hstop'⟩
    · rw [hread] at hrepeated
      cases hrepeated
    · exact .inr ⟨below, hbelow, hread', fun ρ => Int.le_trans (hstop ρ) (hstop' ρ)⟩

/-- A range replaced behind a logical axis replaces that of its physical axis. -/
theorem setAxis_cases {axes : List AxisRange} {axis p : Nat} {range held : AxisRange}
    (h : (v.setAxis axes axis range)[p]? = some held) :
    (v.order[axis]? = some p ∧ held = range) ∨ axes[p]? = some held := by
  unfold setAxis at h
  split at h
  · next physical hphysical =>
    rw [List.getElem?_set] at h
    by_cases hp : physical = p
    · subst hp
      rw [if_pos rfl] at h
      split at h
      · exact .inl ⟨hphysical, (Option.some.inj h).symm⟩
      · cases h
    · rw [if_neg hp] at h
      exact .inr h
  · exact .inr h

/-! ## Operations -/

section

variable [Arithmetic] [Unbounded]

/-- A narrowed range ends no later than the range that it narrows. -/
theorem narrow_stop_le {current : AxisRange} (hc : current.Integral) {span : Span}
    (hspan : span.stop.Integral) (ρ : Valuation) :
    (narrow current span).stop.value ρ ≤ current.stop.value ρ := by
  have hsum := Size.add_means hc.start.means hspan.means
  have hmin := (Size.min_means hsum hc.stop.means).value_eq ρ
  have hle := Int.min_le_right (current.start.value ρ + span.stop.value ρ) (current.stop.value ρ)
  show Size.value ρ ((current.start.add span.stop).min current.stop) ≤ _
  rw [hmin]
  exact hle

/-- Axes that stay within the view do so after one more of them is narrowed,
since what is narrowed is the view's own range. -/
theorem setAxis_narrow_within (hi : v.Integral) {axes : List AxisRange} {axis : Nat}
    {current : AxisRange} {span : Span} (hspan : span.stop.Integral)
    (hcurrent : v.axisAt axis = .ok current) (hacc : Within { v with axes := axes } v) :
    Within { v with axes := v.setAxis axes axis (narrow current span) } v := by
  intro p range hrange
  rcases setAxis_cases hrange with ⟨hp, rfl⟩ | hkept
  · have hheld : v.axes[p]? = some current := by
      unfold axisAt at hcurrent
      rw [hp, Option.bind_some] at hcurrent
      cases hget : v.axes[p]? with
      | none => simp [hget] at hcurrent
      | some held => simpa [hget] using hcurrent
    by_cases hbroadcast : current.broadcast = true
    · exact .inl hbroadcast
    · have hc : current.Integral := hi current (List.mem_of_getElem? hheld)
      exact .inr ⟨current, hheld, by simpa using hbroadcast, narrow_stop_le hc hspan⟩
  · exact hacc p range hkept

/-- Axes that are narrowed one after the other read within the view. -/
theorem sliceFrom_within (hi : v.Integral) {spans : List Span}
    (hspans : ∀ span ∈ spans, span.stop.Integral) {axis : Nat} {axes narrowed : List AxisRange}
    (hacc : Within { v with axes := axes } v) (h : v.sliceFrom axis spans axes = .ok narrowed) :
    Within { v with axes := narrowed } v := by
  induction spans generalizing axis axes with
  | nil =>
      obtain rfl := Except.ok.inj h
      exact hacc
  | cons span rest ih =>
      simp only [sliceFrom, bind_eq_ok] at h
      obtain ⟨_, _, _, _, current, hcurrent, _, _, h⟩ := h
      have hstep := setAxis_narrow_within hi (hspans span List.mem_cons_self) hcurrent hacc
      exact ih (fun s hs => hspans s (List.mem_cons_of_mem _ hs)) hstep h

/-- A slice reads within the view. -/
theorem slice_within (hi : v.Integral) {spans : List Span}
    (hspans : ∀ span ∈ spans, span.stop.Integral) (h : v.slice spans = .ok w) : w.Within v := by
  simp only [slice, ite_error_eq_ok, bind_eq_ok, pure_eq_ok] at h
  obtain ⟨_, axes, haxes, rfl⟩ := h
  exact sliceFrom_within hi hspans (.refl v) haxes

end

/-- A permutation reads within the view. -/
theorem permute_within {axes : List Number} (h : v.permute axes = .ok w) : w.Within v := by
  simp only [permute, bind_eq_ok, pure_eq_ok] at h
  obtain ⟨_, _, order, _, rfl⟩ := h
  exact .of_axes fun _ _ hrange => .inr hrange

theorem expand_within {axis : Number} {size : Quantity} (h : v.expand axis size = .ok w) :
    w.Within v := by
  simp only [expand, bind_eq_ok, pure_eq_ok] at h
  obtain ⟨position, _, extent, _, rfl⟩ := h
  refine .of_axes fun p range hrange => ?_
  by_cases hp : p < v.axes.length
  · rw [List.getElem?_append_left hp] at hrange
    exact .inr hrange
  · rw [List.getElem?_append_right (by omega)] at hrange
    obtain rfl := List.mem_singleton.mp (List.mem_of_getElem? hrange)
    exact .inl rfl

/-- A repeated axis reads within the view: it reads one element. -/
theorem broadcastAxis_within [Arithmetic] {axis : Number} {size : Quantity}
    (h : v.broadcastAxis axis size = .ok w) : w.Within v := by
  obtain ⟨position, extent, _, _, rfl⟩ := broadcastAxis_made h
  refine .of_axes fun p range hrange => ?_
  rcases setAxis_cases hrange with ⟨_, rfl⟩ | hkept
  · exact .inl rfl
  · exact .inr hkept

/-! ## Whole storage -/

/-- What lies within whole storage reads none but its axes, and ends where they
end. -/
theorem Within.laid (h : w.Within v) (hv : v.Laid) {p : Nat} {range : AxisRange}
    (hrange : w.axes[p]? = some range) : range.broadcast = true ∨
      ∃ held, v.shown[p]? = some held ∧ ∀ ρ, range.stop.value ρ ≤ held.extent ρ := by
  obtain ⟨sizes, hsizes, rfl⟩ := hv
  rcases h p range hrange with hrepeated | ⟨held, hheld, _, hstop⟩
  · exact .inl hrepeated
  · have haxes : (contiguous sizes).axes = sizes.map fun size => .whole size false := by
      rw [contiguous, Size.pinned_of_integral hsizes]
    rw [haxes] at hheld
    refine .inr ⟨held, by rw [shown_contiguous hsizes]; exact hheld, fun ρ => ?_⟩
    obtain ⟨size, _, rfl⟩ := List.mem_map.mp (List.mem_of_getElem? hheld)
    rw [AxisRange.extent_whole]
    exact hstop ρ

end View

end ShapeGraph
