import ShapeGraph.Proofs.View.Representation

/-!
# The symbols in a view

A view is made of sizes, and each of its operations puts some of them together with those that
it is given.  As no operation on sizes asks for a new symbol, whatever holds of all symbols that
go into a view holds of those that come out of it.  Telling undefined values apart leaves symbols
alone, so it makes no difference who a view belongs to.

* `Size.Among`, `AxisRange.Among`, `View.Among` — all symbols have a property;
* `Size.among_combine` and the lemmas after it — so have those of sizes put together;
* `among_contiguous`, `among_slice`, `among_permute`, `among_expand`, `among_broadcastAxis` — one
  law for each way to make a view;
* `Among.settle`, `Among.lengths` — and for what is made of a view;
* `contiguous_settle_at` — a symbol that is laid out stands for the whole of its axis.
-/

namespace ShapeGraph

open ShapeGraph.Numeric (Arithmetic Number)

variable {P Q : String → Prop}

/-! ## Sizes -/

namespace Size

/-- All symbols of a size have a property. -/
def Among (P : String → Prop) (s : Size) : Prop :=
  ∀ name ∈ s.names, P name

variable {s l r : Size} {sizes : List Size}

/-- What is true of the symbols of a size may be weakened. -/
theorem Among.mono (h : s.Among P) (hPQ : ∀ name, P name → Q name) : s.Among Q :=
  fun name hname => hPQ name (h name hname)

/-- A literal has no symbols. -/
theorem among_literal (v : Number) : (literal v).Among P :=
  List.forall_mem_nil _

theorem among_symbol {name : String} (h : P name) : (symbol name).Among P :=
  List.forall_mem_singleton.mpr h

/-- Pinning a size leaves its symbols alone. -/
theorem names_pin (s : Size) (n : Nat) : (s.pin n).names = s.names := by
  induction s generalizing n with
  | literal v => rfl
  | symbol name => rfl
  | binary op l r ihl ihr => rw [pin, names, names, ihl, ihr]

theorem names_settle (s : Size) (owner : Nat) : (s.settle owner).names = s.names := by
  induction s with
  | literal v => rfl
  | symbol name => rfl
  | binary op l r ihl ihr => rw [settle, names, names, ihl, ihr]

/-- What is true of the symbols of a size is true of them when it is pinned. -/
theorem Among.pin (h : s.Among P) (n : Nat) : (s.pin n).Among P := by
  unfold Among
  rw [names_pin]
  exact h

/-- What is true of the symbols of a size is true of them when it is settled. -/
theorem Among.settle (h : s.Among P) (owner : Nat) : (s.settle owner).Among P := by
  unfold Among
  rw [names_settle]
  exact h

/-- What is true of the symbols of sizes is true of them when they are pinned from a number on.
-/
theorem among_pinFrom {n : Nat} (h : ∀ s ∈ sizes, s.Among P) :
    ∀ s ∈ pinFrom n sizes, s.Among P := by
  induction sizes generalizing n with
  | nil => exact List.forall_mem_nil _
  | cons s rest ih =>
      obtain ⟨hs, hrest⟩ := List.forall_mem_cons.mp h
      exact List.forall_mem_cons.mpr ⟨hs.pin n, ih hrest⟩

theorem among_pinned (h : ∀ s ∈ sizes, s.Among P) : ∀ s ∈ pinned sizes, s.Among P :=
  among_pinFrom h

/-- A size made of a number has no symbols. -/
theorem among_ofNumber {v : Number} (h : ofNumber v = .ok s) : s.Among P := by
  obtain ⟨_, rfl⟩ := ite_ok_eq_ok.mp h
  exact among_literal v

section

variable [Arithmetic]

/-- Sizes that are put together have the symbols of their parts. -/
theorem among_combine {op : Operator} {t : Size} (hl : l.Among P) (hr : r.Among P)
    (h : combine op l r = .ok t) : t.Among P := by
  intro name hname
  rcases List.mem_append.mp (mem_names_of_combine h hname) with hleft | hright
  · exact hl name hleft
  · exact hr name hright

/-- A sum has the symbols of its terms. -/
theorem Among.add (hl : l.Among P) (hr : r.Among P) : (l.add r).Among P :=
  among_combine hl hr (show combine .add l r = .ok (l.add r) from rfl)

theorem Among.sub (hl : l.Among P) (hr : r.Among P) : (l.sub r).Among P :=
  among_combine hl hr (show combine .sub l r = .ok (l.sub r) from rfl)

theorem Among.mul (hl : l.Among P) (hr : r.Among P) : (l.mul r).Among P :=
  among_combine hl hr (show combine .mul l r = .ok (l.mul r) from rfl)

theorem Among.min (hl : l.Among P) (hr : r.Among P) : (l.min r).Among P :=
  among_combine hl hr (show combine .min l r = .ok (l.min r) from rfl)

/-- A product of sizes has the symbols of all of them. -/
theorem among_product (h : ∀ s ∈ sizes, s.Among P) : (product sizes).Among P := by
  suffices ∀ acc : Size, acc.Among P → (sizes.foldl mul acc).Among P from this one (among_literal 1)
  induction sizes with
  | nil => exact fun _ hacc => hacc
  | cons size rest ih =>
      obtain ⟨hsize, hrest⟩ := List.forall_mem_cons.mp h
      exact fun acc hacc => ih hrest _ (hacc.mul hsize)

end

end Size

/-! ## Ranges -/

/-- All symbols of a range have a property. -/
def AxisRange.Among (P : String → Prop) (range : AxisRange) : Prop :=
  ∀ size ∈ range.sizes, size.Among P

/-- All symbols of a span have a property. -/
structure Span.Among (P : String → Prop) (span : Span) : Prop where
  start : span.start.Among P
  stop : span.stop.Among P

namespace AxisRange

variable {range : AxisRange}

/-- The symbols of a range are those of its bounds and of its size. -/
theorem among_iff : range.Among P ↔
    range.start.Among P ∧ range.stop.Among P ∧ range.size.Among P := by
  simp [Among, sizes]

/-- What is true of the symbols of a range may be weakened. -/
theorem Among.mono (h : range.Among P) (hPQ : ∀ name, P name → Q name) : range.Among Q :=
  fun size hsize => (h size hsize).mono hPQ

/-- The whole of an axis has the symbols of its size. -/
theorem among_whole {size : Size} (h : size.Among P) (broadcast : Bool) :
    (whole size broadcast).Among P :=
  among_iff.mpr ⟨Size.among_literal 0, h, h⟩

theorem Among.pin (h : range.Among P) (n : Nat) : (range.pin n).Among P := by
  obtain ⟨hstart, hstop, hsize⟩ := among_iff.mp h
  exact among_iff.mpr ⟨hstart.pin _, hstop.pin _, hsize.pin _⟩

theorem Among.settle (h : range.Among P) (owner : Nat) : (range.settle owner).Among P := by
  obtain ⟨hstart, hstop, hsize⟩ := among_iff.mp h
  exact among_iff.mpr ⟨hstart.settle _, hstop.settle _, hsize.settle _⟩

variable [Arithmetic]

/-- The length of a range has the symbols of the range. -/
theorem Among.length (h : range.Among P) : range.length.Among P := by
  obtain ⟨hstart, hstop, _⟩ := among_iff.mp h
  exact hstop.sub hstart

/-- A part of a range has the symbols of the range and of the span. -/
theorem Among.narrow (h : range.Among P) {span : Span} (hspan : span.Among P) :
    (View.narrow range span).Among P := by
  obtain ⟨hstart, hstop, hsize⟩ := among_iff.mp h
  exact among_iff.mpr ⟨hstart.add hspan.start, (hstart.add hspan.stop).min hstop, hsize⟩

end AxisRange

/-! ## Views -/

namespace View

/-- The symbols of a view. -/
def names (v : View) : List String :=
  v.axes.flatMap fun range => range.sizes.flatMap Size.names

/-- All symbols of a view have a property. -/
def Among (P : String → Prop) (v : View) : Prop :=
  ∀ range ∈ v.axes, range.Among P

variable {v w : View}

/-- A symbol of a view has what is true of all of them. -/
theorem Among.of_mem (h : v.Among P) {name : String} (hname : name ∈ v.names) : P name := by
  obtain ⟨range, hrange, hin⟩ := List.mem_flatMap.mp hname
  obtain ⟨size, hsize, hmem⟩ := List.mem_flatMap.mp hin
  exact h range hrange size hsize name hmem

/-- What is true of the symbols of a view may be weakened. -/
theorem Among.mono (h : v.Among P) (hPQ : ∀ name, P name → Q name) : v.Among Q :=
  fun range hrange => (h range hrange).mono hPQ

/-- Storage has the symbols of its sizes. -/
theorem among_contiguous {sizes : List Size} (h : ∀ s ∈ sizes, s.Among P) :
    (contiguous sizes).Among P := by
  rw [Among, contiguous, List.forall_mem_map]
  intro s hs
  exact AxisRange.among_whole (Size.among_pinned h s hs) false

/-- Pinned ranges have the symbols of the ranges. -/
theorem among_pinAxes {n : Nat} {axes : List AxisRange} (h : ∀ range ∈ axes, range.Among P) :
    ∀ range ∈ pinAxes n axes, range.Among P := by
  induction axes generalizing n with
  | nil => exact List.forall_mem_nil _
  | cons range rest ih =>
      obtain ⟨hrange, hrest⟩ := List.forall_mem_cons.mp h
      exact List.forall_mem_cons.mpr ⟨hrange.pin n, ih hrest⟩

theorem Among.settle (h : v.Among P) (owner : Nat) : (v.settle owner).Among P := by
  rw [Among, View.settle, List.forall_mem_map]
  intro range hrange
  exact (among_pinAxes h range hrange).settle owner

/-- The size at a place is pinned at that place. -/
theorem pinFrom_at {sizes : List Size} {n place : Nat} {size : Size}
    (h : sizes[place]? = some size) : ∃ m, (Size.pinFrom n sizes)[place]? = some (size.pin m) := by
  induction sizes generalizing n place with
  | nil => cases h
  | cons first rest ih =>
      cases place with
      | zero =>
          obtain rfl := Option.some.inj h
          exact ⟨n, rfl⟩
      | succ place => exact ih h

/-- **A symbol that is laid out** stands for the whole of its axis, whoever the view belongs to. -/
theorem contiguous_settle_at (owner : Nat) {sizes : List Size} {place : Nat} {name : String}
    (h : sizes[place]? = some (.symbol name)) :
    ((contiguous sizes).settle owner).axes[place]? = some (.whole (.symbol name) false) := by
  obtain ⟨m, hm⟩ : ∃ m, (Size.pinned sizes)[place]? = some ((Size.symbol name).pin m) :=
    pinFrom_at h
  have haxis : (contiguous sizes).axes[place]? = some (.whole (.symbol name) false) := by
    rw [contiguous, List.getElem?_map, hm]
    rfl
  obtain ⟨n, hn⟩ := settle_at owner haxis
  exact hn

/-- A permutation of a view has its symbols. -/
theorem among_permute (hv : v.Among P) {axes : List Number} (h : v.permute axes = .ok w) :
    w.Among P := by
  simp only [permute, bind_eq_ok, pure_eq_ok] at h
  obtain ⟨_, _, _, _, rfl⟩ := h
  exact hv

/-- An expansion of a view has its symbols and those of the size. -/
theorem among_expand (hv : v.Among P) {axis : Number} {size : Size} (hsize : size.Among P)
    (h : v.expand axis (.size size) = .ok w) : w.Among P := by
  simp only [expand, Quantity.toSize, bind_eq_ok, pure_eq_ok, Except.ok.injEq,
    exists_eq_left'] at h
  obtain ⟨position, _, rfl⟩ := h
  have hadded := AxisRange.among_whole (hsize.pin v.pinBound) true
  exact List.forall_mem_append.mpr ⟨hv, List.forall_mem_singleton.mpr hadded⟩

variable [Arithmetic]

/-- Lengths have the symbols of their view. -/
theorem Among.lengths (hv : v.Among P) {lengths : List Size} (h : v.lengths = .ok lengths) :
    ∀ s ∈ lengths, s.Among P := by
  intro s hs
  obtain ⟨range, hrange, rfl⟩ := mem_lengths h hs
  exact (hv range hrange).length

/-- A repeated axis has the symbols of the view and of the size. -/
theorem among_broadcastAxis (hv : v.Among P) {axis : Number} {size : Size} (hsize : size.Among P)
    (h : v.broadcastAxis axis (.size size) = .ok w) : w.Among P := by
  obtain ⟨position, extent, _, hextent, rfl⟩ := broadcastAxis_made h
  obtain rfl := Except.ok.inj hextent
  intro range hrange
  rcases mem_setAxis hrange with hold | rfl
  · exact hv range hold
  · exact AxisRange.among_whole (hsize.pin v.pinBound) true

/-- Narrowed ranges have the symbols of the ranges and of the spans. -/
theorem among_sliceFrom (hv : v.Among P) {spans : List Span} (hspans : ∀ span ∈ spans, span.Among P)
    {axis : Nat} {axes narrowed : List AxisRange} (haxes : ∀ range ∈ axes, range.Among P)
    (h : v.sliceFrom axis spans axes = .ok narrowed) : ∀ range ∈ narrowed, range.Among P := by
  induction spans generalizing axis axes with
  | nil =>
      obtain rfl := Except.ok.inj h
      exact haxes
  | cons span rest ih =>
      obtain ⟨hspan, hrest⟩ := List.forall_mem_cons.mp hspans
      simp only [sliceFrom, bind_eq_ok] at h
      obtain ⟨_, _, _, _, current, hcurrent, _, _, h⟩ := h
      refine ih hrest ?_ h
      intro range hrange
      rcases mem_setAxis hrange with hold | rfl
      · exact haxes range hold
      · exact (hv current (mem_axes_of_axisAt hcurrent)).narrow hspan

/-- **A slice asks for the symbols of its view and of its spans only.** -/
theorem among_slice (hv : v.Among P) {spans : List Span} (hspans : ∀ span ∈ spans, span.Among P)
    (h : v.slice spans = .ok w) : w.Among P := by
  simp only [slice, ite_error_eq_ok, bind_eq_ok, pure_eq_ok] at h
  obtain ⟨_, axes, haxes, rfl⟩ := h
  exact among_sliceFrom hv hspans hv haxes

end View

end ShapeGraph
