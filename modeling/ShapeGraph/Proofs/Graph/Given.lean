import ShapeGraph.Proofs.Graph.Movement
import ShapeGraph.Proofs.Size.Irreducible
import ShapeGraph.Proofs.View.FullRange

/-!
# Sizes that callers hand in

Callers hand in sizes with the bounds of a slice and with the axes of a host computation; what
else a command takes is checked to be made of integers and names.  Sizes are terms that the
operations on sizes have made, so they are in normal form, and all that a graph makes of sizes
in normal form is in normal form again.

* `Command.given` — the sizes that are handed in with a command;
* `Size.Canonical`, `AxisRange.Canonical` — sizes and ranges of integers in normal form;
* `Size.Made.canonical` — what callers can have made is canonical;
* `Bound.start_canonical`, `Bound.stop_canonical`, `AxisRange.Canonical.narrow` — so is the span
  of a slice, and what it leaves of a range.
-/

namespace ShapeGraph

open ShapeGraph.Numeric (Arithmetic Exact Number Unbounded)

/-! ## What is given -/

/-- The size that a caller hands in, unless it is a bare number. -/
def Quantity.given : Quantity → List Size
  | number _ => []
  | size s => [s]

/-- The size that a caller hands in with a bound. -/
def Bound.given : Bound → List Size
  | included value => value.given
  | excluded value => value.given
  | unbounded => []

/-- The sizes that a caller hands in with a range. -/
def RangeSpec.given (spec : RangeSpec) : List Size :=
  spec.bounds.1.given ++ spec.bounds.2.given

/-- The sizes that a caller hands in with a command. -/
def Command.given : Command → List Size
  | slice _ specs => specs.flatMap RangeSpec.given
  | addFunction _ _ _ _ sizes => (sizes.getD []).flatMap fun q => q.elim [] Quantity.given
  | _ => []

/-- A quantity is one of integers if the size that is handed in with it is. -/
theorem Quantity.integral_of_given {q : Quantity} (h : ∀ s ∈ q.given, s.Integral) :
    q.Integral := by
  cases q with
  | number v => trivial
  | size s => exact h s (List.mem_singleton.mpr rfl)

/-- A range is one of integers if the sizes that are handed in with it are. -/
theorem RangeSpec.integral_of_given {spec : RangeSpec} (h : ∀ s ∈ spec.given, s.Integral) :
    spec.Integral := by
  have hbound : ∀ bound : Bound, (∀ s ∈ bound.given, s.Integral) → bound.Integral := by
    intro bound hb
    cases bound with
    | included value => exact Quantity.integral_of_given hb
    | excluded value => exact Quantity.integral_of_given hb
    | unbounded => trivial
  obtain ⟨hlower, hupper⟩ := List.forall_mem_append.mp h
  exact ⟨hbound _ hlower, hbound _ hupper⟩

/-- A command is one of integers if the sizes that are handed in with it are. -/
theorem Command.integral_of_given {command : Command} (h : ∀ s ∈ command.given, s.Integral) :
    command.Integral := by
  cases command with
  | slice t specs =>
      intro spec hspec
      exact RangeSpec.integral_of_given fun s hs => h s (List.mem_flatMap.mpr ⟨spec, hspec, hs⟩)
  | addFunction name inputs shape payload sizes =>
      rintro declared rfl q hq
      exact Quantity.integral_of_given fun s hs => h s (List.mem_flatMap.mpr ⟨some q, hq, hs⟩)
  | _ => trivial

section

variable [Arithmetic]

/-- A size of integers in normal form. -/
structure Size.Canonical (s : Size) : Prop where
  integral : s.Integral
  normal : s.Normal

/-- A range of integers whose bounds are in normal form. -/
structure AxisRange.Canonical (range : AxisRange) : Prop where
  integral : range.Integral
  normal : range.Normal

end

/-- A size that callers can have made, with nothing rounded on the way. -/
def Size.Made (s : Size) : Prop :=
  ∃ r : Recipe, r.Integral ∧ (Exact fun _ => r.size) ∧ r.size = .ok s

/-- A size that callers can have made is in normal form. -/
theorem Size.Made.canonical {s : Size} (h : s.Made) : @Size.Canonical .unbounded s := by
  obtain ⟨r, hr, hexact, hs⟩ := h
  have hs : @Recipe.size .unbounded r = .ok s := hexact.symm.trans hs
  exact @Size.Canonical.mk .unbounded s (@Recipe.size_integral .unbounded _ r s hr hs)
    (@Recipe.size_normal .unbounded r s hs)

section

variable [Arithmetic]

namespace Size.Canonical

/-- An integer is in normal form. -/
theorem int (n : Int) : (literal (.int n)).Canonical :=
  ⟨⟨n, rfl⟩, trivial⟩

theorem symbol (name : String) : (Size.symbol name).Canonical :=
  ⟨trivial, trivial⟩

/-- Bare numbers are checked to be integers. -/
theorem of_given {q : Quantity} (hq : ∀ s ∈ q.given, s.Canonical) {size : Size}
    (h : q.toSize = .ok size) : size.Canonical := by
  cases q with
  | number v =>
      obtain ⟨hsafe, rfl⟩ := ite_ok_eq_ok.mp h
      obtain ⟨n, rfl⟩ := Number.eq_int_of_isSafe hsafe
      exact int n
  | size s =>
      obtain rfl := Except.ok.inj h
      exact hq s (List.mem_singleton.mpr rfl)

/-- The size of a dimension is a literal or a symbol. -/
theorem of_dimension {dim : Dimension} {size : Size} (h : dim.size? = .ok (some size)) :
    size.Canonical := by
  refine ⟨(Dimension.fits_of_size h).1, ?_⟩
  cases dim with
  | constant v =>
      simp only [Dimension.size?, Size.ofNumber, bind_eq_ok, ite_ok_eq_ok, pure_eq_ok,
        Option.some.injEq] at h
      obtain ⟨_, ⟨_, rfl⟩, rfl⟩ := h
      trivial
  | dynamic name =>
      rw [Dimension.size?] at h
      split at h
      · cases h
      · simp only [Size.ofSymbol, bind_eq_ok, ite_error_eq_ok, pure_eq_ok, Except.ok.injEq,
          Option.some.injEq] at h
        obtain ⟨_, ⟨_, rfl⟩, rfl⟩ := h
        trivial

variable [Unbounded] {l r : Size}

/-- Sums of sizes in normal form are. -/
theorem add (hl : l.Canonical) (hr : r.Canonical) : (l.add r).Canonical :=
  ⟨(add_means hl.integral.means hr.integral.means).integral,
    combine_normal hl.normal hr.normal (show combine .add l r = .ok (l.add r) from rfl)⟩

theorem sub (hl : l.Canonical) (hr : r.Canonical) : (l.sub r).Canonical :=
  ⟨(sub_means hl.integral.means hr.integral.means).integral,
    combine_normal hl.normal hr.normal (show combine .sub l r = .ok (l.sub r) from rfl)⟩

end Size.Canonical

/-- Bounds of a range are made of what is given and of the length of the axis. -/
theorem Bound.start_canonical [Unbounded] {bound : Bound} (hb : ∀ s ∈ bound.given, s.Canonical)
    {size : Size} (h : bound.start = .ok size) : size.Canonical := by
  cases bound with
  | included value => exact .of_given hb h
  | excluded value =>
      simp only [start, bind_eq_ok, pure_eq_ok] at h
      obtain ⟨s, hs, rfl⟩ := h
      exact .add (.of_given hb hs) (.int 1)
  | unbounded =>
      obtain rfl := Except.ok.inj h
      exact .int 0

/-- A span stops at a size in normal form, if its bound and the length of its axis are. -/
theorem Bound.stop_canonical [Unbounded] {bound : Bound} (hb : ∀ s ∈ bound.given, s.Canonical)
    {length : Size} (hlength : length.Canonical) {sentinel : Number} {size : Size}
    (h : bound.stop (some length) sentinel = .ok size) : size.Canonical := by
  cases bound with
  | included value =>
      simp only [stop, bind_eq_ok, pure_eq_ok] at h
      obtain ⟨s, hs, rfl⟩ := h
      exact .add (.of_given hb hs) (.int 1)
  | excluded value => exact .of_given hb h
  | unbounded =>
      obtain rfl := Except.ok.inj h
      exact hlength

namespace AxisRange.Canonical

variable {range : AxisRange} {size : Size}

/-- The whole of an axis is a range in normal form if its size is. -/
theorem whole (h : size.Canonical) (broadcast : Bool) :
    (AxisRange.whole size broadcast).Canonical :=
  ⟨.whole h.integral broadcast, whole_normal h.normal broadcast⟩

variable [Unbounded]

/-- The length of a range in normal form is. -/
theorem length (h : range.Canonical) : range.length.Canonical :=
  .sub ⟨h.integral.stop, h.normal.stop⟩ ⟨h.integral.start, h.normal.start⟩

/-- A part of a range in normal form is if the bounds of the part are. -/
theorem narrow (h : range.Canonical) {span : Span} (hstart : span.start.Canonical)
    (hstop : span.stop.Canonical) : (View.narrow range span).Canonical :=
  ⟨View.narrow_integral h.integral hstart.integral hstop.integral,
    h.normal.narrow hstart.normal hstop.normal⟩

end AxisRange.Canonical

end

end ShapeGraph
