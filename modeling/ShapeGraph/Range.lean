import ShapeGraph.Shape
import ShapeGraph.Size.Substitute

/-!
# Ranges of an axis

A slice says for each axis which part of it to keep.  Whatever the form of a
specification, it comes down to a lower and an upper bound, and these to a span
`[start, stop)` of sizes.  Only the full range keeps the dimension of its axis.
Every other one yields an anonymous axis, even when both bounds are literals,
because bounds are sizes like any other.

* `RangeParts.spec` — which form is meant when parts of several are given;
* `RangeSpec.bounds`, `Bound.start`, `Bound.stop` — from a form to a span;
* `mapSlice` — the spans and dimensions of all axes of a shape.
-/

namespace ShapeGraph

open ShapeGraph.Numeric (Arithmetic Number)

/-- A half-open range of positions on one axis. -/
structure Span where
  start : Size
  stop : Size
deriving DecidableEq

/-- The text of a span. -/
def Span.text (span : Span) : String :=
  "[" ++ span.start.text ++ ", " ++ span.stop.text ++ ")"

/-- One end of a range. -/
inductive Bound where
  | included (value : Quantity)
  | excluded (value : Quantity)
  | unbounded

/-- Which part of an axis to keep. -/
inductive RangeSpec where
  | full
  | bounded (lower upper : Bound)
  | starting (start : Quantity)
  | ending (stop : Quantity) (inclusive : Bool)
  | within (start stop : Quantity) (inclusive : Bool)

/-- The parts of a range specification, in which several forms may be mixed. -/
structure RangeParts where
  lower : Option Bound
  upper : Option Bound
  onward : Option Quantity
  upTo : Option Quantity
  start : Option Quantity
  stop : Option Quantity
  inclusive : Bool

/-- The form that is meant: two bounds before a start alone, that before an
end alone, and both ends last.  A part that is missing is unbounded. -/
def RangeParts.spec (parts : RangeParts) : RangeSpec :=
  match parts.lower, parts.onward, parts.upTo, parts.start, parts.stop with
  | some lower, _, _, _, _ => .bounded lower (parts.upper.getD .unbounded)
  | none, some start, _, _, _ => .starting start
  | none, none, some stop, _, _ => .ending stop parts.inclusive
  | none, none, none, some start, some stop => .within start stop parts.inclusive
  | none, none, none, some start, none => .starting start
  | none, none, none, none, some stop => .ending stop parts.inclusive
  | none, none, none, none, none => .bounded .unbounded .unbounded

/-- The position that stands for the end of an axis of unknown size. -/
def defaultSentinel : Number := 2147483647

variable [Arithmetic]

namespace Bound

/-- An upper bound that includes its value on request. -/
def upper (inclusive : Bool) (value : Quantity) : Bound :=
  if inclusive then .included value else .excluded value

/-- The start of a span that a lower bound sets. -/
def start : Bound → Except Fault Size
  | included value => value.toSize
  | excluded value => return (← value.toSize).add .one
  | unbounded => .ok .zero

/-- The end of a span that an upper bound sets; without a bound it is the size
of the axis, or the sentinel if that is unknown. -/
def stop (size : Option Size) (sentinel : Number) : Bound → Except Fault Size
  | excluded value => value.toSize
  | included value => return (← value.toSize).add .one
  | unbounded =>
    match size with
    | some size => .ok size
    | none => Size.ofNumber sentinel

end Bound

namespace RangeSpec

/-- The whole axis is kept. -/
def isFull : RangeSpec → Bool
  | full => true
  | _ => false

/-- The lower and the upper bound of a specification. -/
def bounds : RangeSpec → Bound × Bound
  | full => (.unbounded, .unbounded)
  | bounded lower upper => (lower, upper)
  | starting start => (.included start, .unbounded)
  | ending stop inclusive => (.unbounded, .upper inclusive stop)
  | within start stop inclusive => (.included start, .upper inclusive stop)

/-- The span of a specification on an axis of the given size. -/
def span (spec : RangeSpec) (size : Option Size) (sentinel : Number) : Except Fault Span := do
  let start ← spec.bounds.1.start
  let stop ← spec.bounds.2.stop size sentinel
  return ⟨start, stop⟩

/-- The dimension that is left of a sliced axis. -/
def dimension (spec : RangeSpec) (dim : Dimension) : Dimension :=
  if spec.isFull then dim else .anonymous

end RangeSpec

/-- The spans and the dimensions of a slice, axis by axis. -/
structure SliceMapping where
  spans : List Span
  shape : Shape

/-- Maps the specifications axis by axis.  Axes without one are kept whole; the
size of an axis is the one given, or else that of its dimension. -/
def mapAxes (sentinel : Number) :
    Shape → List RangeSpec → List (Option Size) → Except Fault SliceMapping
  | [], _, _ => .ok ⟨[], []⟩
  | dim :: dims, specs, sizes => do
    let spec := specs.head?.getD .full
    let size ←
      match sizes.head?.join with
      | some size => .ok (some size)
      | none => dim.size?
    let span ← spec.span size sentinel
    let rest ← mapAxes sentinel dims specs.tail sizes.tail
    return ⟨span :: rest.spans, spec.dimension dim :: rest.shape⟩

/-- Maps range specifications over a shape, with the sizes of its axes as far
as they are known. -/
def mapSlice (shape : Shape) (specs : List RangeSpec) (sizes : List (Option Size))
    (sentinel : Number) : Except Fault SliceMapping :=
  if specs.length > shape.length then .error (.range "slice" (.specCount specs.length shape))
  else mapAxes sentinel shape specs sizes

end ShapeGraph
