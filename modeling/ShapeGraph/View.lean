import ShapeGraph.Axis
import ShapeGraph.Range
import ShapeGraph.Size.Occurrence

/-!
# Views of storage

A view holds one range per axis of the storage behind a tensor and the order in
which these axes are shown.  Slicing narrows ranges, permuting reorders them,
and expanding adds axes that repeat one element and visit no storage.

* `View.slice` composes a span with the range that is already there;
* `View.broadcastAxis` repeats an axis of length one;
* `View.resolve` gives the concrete ranges once every symbol is bound;
* `View.settle` makes a view the property of the node that has it.

Axes are *physical* as the storage has them and *logical* as the view shows
them; `order` lists the physical axis behind each logical one.  The end of a
whole axis and its size are one size, undefined values included.
-/

namespace ShapeGraph

open ShapeGraph.Numeric (Arithmetic Number)

variable [Arithmetic]

/-- The range `[start, stop)` of one physical axis of the given size in
storage.  A broadcast axis repeats a single element. -/
structure AxisRange where
  start : Size
  stop : Size
  size : Size
  broadcast : Bool
deriving DecidableEq

namespace AxisRange

/-- The whole of an axis. -/
def whole (size : Size) (broadcast : Bool) : AxisRange :=
  ⟨.zero, size, size, broadcast⟩

/-- The sizes that make a range. -/
def sizes (range : AxisRange) : List Size :=
  [range.start, range.stop, range.size]

/-- Numbers the fresh undefined values of a range from `n` on. -/
def pin (n : Nat) (range : AxisRange) : AxisRange :=
  { range with
    start := range.start.pin n
    stop := range.stop.pin (n + range.start.freshCount)
    size := range.size.pin (n + range.start.freshCount + range.stop.freshCount) }

/-- The number of fresh undefined values in a range. -/
def freshCount (range : AxisRange) : Nat :=
  range.start.freshCount + range.stop.freshCount + range.size.freshCount

/-- Gives the numbered undefined values of a range to an owner. -/
def settle (owner : Nat) (range : AxisRange) : AxisRange :=
  { range with
    start := range.start.settle owner
    stop := range.stop.settle owner
    size := range.size.settle owner }

/-- The length of a range. -/
def length (range : AxisRange) : Size :=
  range.stop.sub range.start

/-- The text of a range; a broadcast one has a star. -/
def text (range : AxisRange) : String :=
  (Span.mk range.start range.stop).text ++ (if range.broadcast then "*" else "")

/-- The same bounds, size and kind. -/
def same (a b : AxisRange) : Bool :=
  a.broadcast == b.broadcast && a.start.same b.start && a.stop.same b.stop && a.size.same b.size

/-- The whole of an axis that storage holds. -/
def isWhole (range : AxisRange) : Bool :=
  !range.broadcast && range.start.same .zero && range.stop.same range.size

/-- Replaces the bound symbols of a range. -/
def substitute (bindings : Bindings) (range : AxisRange) : Except Fault AxisRange := do
  let start ← range.start.substitute bindings
  let stop ← range.stop.substitute bindings
  let size ← range.size.substitute bindings
  return ⟨start, stop, size, range.broadcast⟩

end AxisRange

/-- A view of storage. -/
structure View where
  /-- The physical axes. -/
  axes : List AxisRange
  /-- The physical axis behind each logical one. -/
  order : List Nat
deriving DecidableEq

/-- A range with known bounds. -/
structure ConcreteRange where
  start : Number
  stop : Number
  broadcast : Bool
deriving DecidableEq

/-- A view whose symbols are bound. -/
structure ResolvedView where
  /-- The length of each logical axis. -/
  shape : List Number
  /-- The range of each logical axis. -/
  ranges : List ConcreteRange
  /-- The physical axis behind each logical one. -/
  order : List Nat
deriving DecidableEq

namespace View

/-- The view of whole storage in its own order. -/
def contiguous (sizes : List Size) : View :=
  ⟨(Size.pinned sizes).map fun size => .whole size false, List.range sizes.length⟩

/-- The view of whole storage whose sizes callers give. -/
def ofQuantities (sizes : List Quantity) : Except Fault View :=
  return contiguous (← sizes.mapM Quantity.toSize)

/-- The least number beyond those of the undefined values in a view. -/
def pinBound (v : View) : Nat :=
  Size.listBound (v.axes.flatMap AxisRange.sizes)

/-- The number of logical axes. -/
def rank (v : View) : Nat :=
  v.order.length

/-- The range shown on a logical axis. -/
def axisAt (v : View) (axis : Nat) : Except Fault AxisRange :=
  match v.order[axis]?.bind (v.axes[·]?) with
  | some range => .ok range
  | none => .error (.range "tracker" (.noAxis (.ofNat axis) (.ofNat v.rank)))

/-- The ranges of all logical axes. -/
def ranges (v : View) : Except Fault (List AxisRange) :=
  (List.range v.rank).mapM v.axisAt

/-- The lengths of all logical axes. -/
def lengths (v : View) : Except Fault (List Size) :=
  return (← v.ranges).map AxisRange.length

/-- The number of elements shown. -/
def elementCount (v : View) : Except Fault Size :=
  return Size.product (← v.lengths)

/-- Replaces the range behind a logical axis. -/
def setAxis (v : View) (axes : List AxisRange) (axis : Nat) (range : AxisRange) :
    List AxisRange :=
  match v.order[axis]? with
  | some physical => axes.set physical range
  | none => axes

/-! ## Slicing -/

/-- A span on an axis cannot start or end before storage. -/
def refuseNegative (axis : Nat) (start stop : Size) : Except Fault Unit :=
  if (start.value?.any fun s => s.lt 0) || (stop.value?.any fun e => e.lt 0) then
    .error (.range "slice" (.negative start stop axis))
  else .ok ()

/-- A span with literal ends cannot end before it starts. -/
def refuseReversed (axis : Nat) (start stop : Size) : Except Fault Unit :=
  match start.value?, stop.value? with
  | some s, some e => if e.lt s then .error (.range "slice" (.reversed s e axis)) else .ok ()
  | _, _ => .ok ()

/-- The part `[start, stop)` of a range: `[s0, e0)` narrows to
`[s0 + start, min (s0 + stop) e0)`. -/
def narrow (current : AxisRange) (span : Span) : AxisRange :=
  { current with
    start := current.start.add span.start
    stop := (current.start.add span.stop).min current.stop }

/-- Narrows the logical axes from `axis` on, one per span. -/
def sliceFrom (v : View) : Nat → List Span → List AxisRange → Except Fault (List AxisRange)
  | _, [], axes => .ok axes
  | axis, span :: rest, axes => do
    refuseNegative axis span.start span.stop
    refuseReversed axis span.start span.stop
    let range := narrow (← v.axisAt axis) span
    refuseReversed axis range.start range.stop
    sliceFrom v (axis + 1) rest (v.setAxis axes axis range)

/-- Narrows the logical axes by spans relative to their ranges.  Axes without
a span are kept whole. -/
def slice (v : View) (spans : List Span) : Except Fault View :=
  if spans.length > v.rank then .error (.range "slice" (.rangeCount spans.length v.rank))
  else return { v with axes := ← v.sliceFrom 0 spans v.axes }

/-! ## Reordering and expanding -/

/-- Reorders the logical axes; the first one shown is the axis listed first. -/
def permute (v : View) (axes : List Number) : Except Fault View := do
  let positions ← Axis.permutation (.ofNat v.rank) axes
  return { v with order := ← Axis.pick v.order (positions.map .ofNat) }

/-- Adds a broadcast axis of the given size at a logical position. -/
def expand (v : View) (axis : Number) (size : Quantity) : Except Fault View := do
  let position ← Axis.position "expand" axis (v.rank + 1)
  let extent := (← size.toSize).pin v.pinBound
  return ⟨v.axes ++ [.whole extent true], Axis.insertAt v.order position v.axes.length⟩

/-- Repeats a logical axis of length one as often as the size says. -/
def broadcastAxis (v : View) (axis : Number) (size : Quantity) : Except Fault View := do
  let position ← Axis.position "expand" axis v.rank
  let current ← v.axisAt position
  match current.length.value? with
  | some length =>
    if length ≠ 1 then .error (.range "expand" (.notUnit position length))
    else pure ()
  | none => pure ()
  let extent := (← size.toSize).pin v.pinBound
  return { v with axes := v.setAxis v.axes position (.whole extent true) }

/-! ## Reading a view -/

/-- The view shows whole storage, in its own order and without repetition. -/
def isContiguous (v : View) : Bool :=
  v.order == List.range v.rank && v.axes.all AxisRange.isWhole

/-- The logical position at which each physical axis is shown. -/
def inverseOrder (v : View) : List Nat :=
  Axis.invert v.order

/-- Replaces the bound symbols in every range. -/
def substitute (bindings : Bindings) (v : View) : Except Fault View :=
  return { v with axes := ← v.axes.mapM (AxisRange.substitute bindings) }

/-- The concrete ranges of logical axes, from `axis` on. -/
def resolveFrom (bindings : Bindings) : Nat → List AxisRange → Except Fault (List ConcreteRange)
  | _, [] => .ok []
  | axis, range :: rest => do
    let start ← range.start.evaluate bindings
    let stop ← range.stop.evaluate bindings
    if start.lt 0 || stop.lt start then
      .error (.range "resolve" (.unresolvable axis start stop range.start range.stop))
    else
      return ⟨start, stop, range.broadcast⟩ :: (← resolveFrom bindings (axis + 1) rest)

/-- The view under a binding of all its symbols. -/
def resolve (bindings : Bindings) (v : View) : Except Fault ResolvedView := do
  let ranges ← resolveFrom bindings 0 (← v.ranges)
  return ⟨ranges.map fun range => range.stop.sub range.start, ranges, v.order⟩

/-- Numbers the fresh undefined values of ranges from `n` on. -/
def pinAxes : Nat → List AxisRange → List AxisRange
  | _, [] => []
  | n, range :: rest => range.pin n :: pinAxes (n + range.freshCount) rest

/-- The view as the property of an owner: all its undefined values are told
apart and belong to it, but for those that belong to another one already. -/
def settle (owner : Nat) (v : View) : View :=
  { v with axes := (pinAxes v.pinBound v.axes).map (AxisRange.settle owner) }

/-- The same ranges in the same order. -/
def same (a b : View) : Bool :=
  a.order == b.order && a.axes.length == b.axes.length &&
    (a.axes.zip b.axes).all fun pair => pair.1.same pair.2

/-- The text of a view; the order is left out when it is that of storage. -/
def text (v : View) : Except Fault String := do
  let listed := ", ".intercalate ((← v.ranges).map AxisRange.text)
  if v.order == List.range v.rank then return "ShapeTracker(" ++ listed ++ ")"
  else
    let order := ", ".intercalate (v.order.map Nat.repr)
    return "ShapeTracker(" ++ listed ++ " | order=[" ++ order ++ "])"

end View

end ShapeGraph
