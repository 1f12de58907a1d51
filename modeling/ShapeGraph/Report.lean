import ShapeGraph.Entries
import ShapeGraph.Fault

/-!
# Reports of faults

What callers see of a fault: the class of the error, its message, and for the
classes of this library a code, a category and a context of named values.  The
classes are the functions from `Report.plain` to `Report.handle`;
`Fault.report` chooses the class and finds the words for every cause.
-/

namespace ShapeGraph

open ShapeGraph.Numeric (Number textJoined)

/-- What the classes of this library say beside their message. -/
structure Label where
  code : String
  category : String
  context : Option (Entries Value)

/-- What is seen of something thrown: an error, or a bare value. -/
inductive Report where
  | error (name message : String) (label : Option Label) (cause : Option Report)
  | value (v : Value)
deriving Inhabited

namespace Report

/-! ## The classes of errors -/

/-- An error outside the family of this library. -/
def plain (name message : String) : Report :=
  .error name message none none

/-- An error of the general class. -/
def general (message code category : String) (context : Option (Entries Value))
    (cause : Option Report) : Report :=
  .error "GraphError" message (some ⟨code, category, context⟩) cause

/-- Operands disagree in rank or in a size that is known. -/
def shapeMismatch (operation reason : String) (context : Option (Entries Value)) : Report :=
  .error "ShapeMismatchError" s!"Shape mismatch in '{operation}': {reason}"
    (some ⟨"SHAPE_MISMATCH", "shape", context⟩) none

/-- A range or an axis is inconsistent. -/
def invalidRange (operation reason : String) (context : Option (Entries Value)) : Report :=
  .error "InvalidRangeError" s!"Invalid range in '{operation}': {reason}"
    (some ⟨"INVALID_RANGE", "range", context⟩) none

/-- Two sizes differ once they are bound. -/
def dynamicMismatch (relation : String) (left right : Number)
    (context : Option (Entries Value)) : Report :=
  .error "UnresolvedDynamicMismatchError"
    s!"Dynamic size mismatch for {relation}: {left.text} != {right.text}"
    (some ⟨"DYNAMIC_MISMATCH", "resolution", context⟩) none

/-- A host computation failed. -/
def payload (function reason : String) (context : Option (Entries Value))
    (cause : Option Report) : Report :=
  .error "FunctionPayloadError" s!"Function '{function}' failed: {reason}"
    (some ⟨"FUNCTION_PAYLOAD_FAILED", "payload", context⟩) cause

/-- A size expression is malformed. -/
def expression (message code : String) (context : Option (Entries Value)) : Report :=
  .error "ExpressionError" message (some ⟨code, "expression", context⟩) none

/-- Symbols remain where a number is needed. -/
def unresolved (expression : String) (symbols : List String) : Report :=
  let listed := ", ".intercalate symbols
  .error "UnresolvedExpressionError"
    s!"Expression '{expression}' cannot be resolved: unbound symbol(s) {listed}"
    (some ⟨"UNRESOLVED_EXPRESSION", "expression",
      some [("expression", .text expression), ("symbols", .text listed)]⟩) none

/-- A handle or a builder cannot be used. -/
def handle (operation reason : String) (context : Option (Entries Value)) : Report :=
  .error "InvalidHandleError" s!"Invalid tensor handle in '{operation}': {reason}"
    (some ⟨"INVALID_HANDLE", "handle", context⟩) none

/-! ## Reading a report -/

/-- The message of an error; of a bare value, its text. -/
def message : Report → String
  | .error _ message _ _ => message
  | .value v => v.toText

/-- The code of an error of this library. -/
def code? : Report → Option String
  | .error _ _ (some label) _ => some label.code
  | _ => none

/-- The families of errors that the report belongs to. -/
def families : Report → List String
  | .error name _ (some _) _ =>
    if name == "ExpressionError" || name == "UnresolvedExpressionError" then
      ["GraphError", "ExpressionError"]
    else ["GraphError"]
  | _ => []

/-- The report in full: the class, the message and the context line by line. -/
def formatted : Report → String
  | .error name message label _ =>
    let context := (label.bind (·.context)).getD []
    let lines := context.map fun entry => "  " ++ entry.1 ++ ": " ++ entry.2.toText ++ "\n"
    name ++ ": " ++ message ++
      (if context.isEmpty then "" else "\nContext:\n" ++ String.join lines)
  | .value v => v.toText

end Report

/-! ## The words for every cause -/

/-- The text of a shape whose sizes are known. -/
def sizesText (sizes : List Number) : String :=
  textJoined "x" sizes

/-- The report of a size fault. -/
def SizeFault.report : SizeFault → Report
  | notInteger value =>
    .expression s!"Expression literals must be safe integers, got {value.text}" "NON_INTEGER"
      (some [("value", .number value)])
  | emptySymbol => .expression "Symbol names must be non-empty" "INVALID_SYMBOL" none
  | literalByZero dividend =>
    .expression s!"Division by zero in {dividend.text} / 0" "DIVISION_BY_ZERO" none
  | byZero dividend =>
    .expression "Division by zero" "DIVISION_BY_ZERO" (some [("dividend", .text dividend.text)])
  | unresolved size symbols => .unresolved size.text symbols
  | badBinding symbol value =>
    .expression
      s!"Cannot bind symbol '{symbol}' to {value.text}: sizes are non-negative integers"
      "INVALID_BINDING" (some [("symbol", .text symbol), ("value", .number value)])

/-- The report of a dimension fault. -/
def DimensionFault.report : DimensionFault → Report
  | badSize size =>
    .plain "RangeError" s!"Constant dimension must be a non-negative integer, got {size.text}"
  | emptySymbol => .plain "RangeError" "Dynamic dimension symbol must be non-empty"

/-- The reason of a shape fault in words. -/
def ShapeFault.reason : ShapeFault → String
  | rankLimit rank limit => s!"rank {rank} exceeds maximum supported rank {limit}"
  | ranks left right => s!"rank {left.length} does not match rank {right.length}"
  | sizes relation left right => s!"{relation}: {left.text} != {right.text}"
  | viewRank rank shape => s!"tracker rank {rank} does not match shape {shape.text}"
  | declaredSizes count shape => s!"{count} sizes declared for shape {shape.text}"
  | relabelled held wanted =>
    s!"cannot realize {held.text} as {wanted.text}: rank differs"
  | lowerRank held wanted => s!"cannot expand {held.text} to lower rank {wanted.text}"
  | factors left right => s!"cannot multiply {left.text} by {right.text}"
  | fedRank name declared fed =>
    s!"input '{name}' of shape {declared.text} fed with rank {fed.length}"
  | fedSize name axis declared fed =>
    s!"input '{name}' axis {axis} is fixed at {declared.text}, fed {fed.text}"
  | fedCount name count fed =>
    s!"input '{name}' data holds {count} values for shape {sizesText fed}"

/-- The context of a shape fault. -/
def ShapeFault.context : ShapeFault → Option (Entries Value)
  | ranks left right => some [("left", .text left.text), ("right", .text right.text)]
  | factors left right =>
    some [("leftRank", .number (.ofNat left.length)), ("rightRank", .number (.ofNat right.length))]
  | fedRank _ _ fed => some [("fed", .text (sizesText fed))]
  | _ => none

/-- The reason of a range fault in words. -/
def RangeFault.reason : RangeFault → String
  | noAxis axis rank => s!"axis {axis.text} is out of bounds for rank {rank.text}"
  | permutationLength count rank =>
    s!"permutation length {count} must match tensor rank {rank.text}"
  | duplicateAxis axis => s!"duplicate axis {axis.text} in permutation"
  | noItem axis => s!"axis {axis.text} is out of bounds"
  | specCount count shape =>
    s!"{count} ranges given for shape {shape.text} of rank {shape.length}"
  | rangeCount count rank => s!"{count} ranges given for rank {rank}"
  | negative start stop axis =>
    s!"range [{start.text}, {stop.text}) on axis {axis} starts before storage"
  | reversed start stop axis =>
    s!"range [{start.text}, {stop.text}) on axis {axis} has start after end"
  | notUnit axis length =>
    s!"axis {axis} has length {length.text}; only length-1 axes can be broadcast"
  | unresolvable axis start stop _ _ =>
    s!"axis {axis} resolves to [{start.text}, {stop.text})"
  | target size position =>
    s!"target size {size.text} at position {position} must be a positive integer"
  | copied axis position shape =>
    s!"copy({axis.text}) at position {position} names no axis of {shape.text}"
  | anonymousSize => "an anonymous axis has no size to broadcast to"
  | anonymousAxis axis => s!"new axis {axis} is anonymous and has no size"

/-- The context of a range fault. -/
def RangeFault.context : RangeFault → Option (Entries Value)
  | unresolvable _ _ _ lower upper =>
    some [("start", .text lower.text), ("end", .text upper.text)]
  | _ => none

/-- The report of a mismatch. -/
def MismatchFault.report : MismatchFault → Report
  | rebound symbol held wanted boundBy reboundBy =>
    .dynamicMismatch s!"symbol '{symbol}'" held wanted
      (some [("boundBy", .text boundBy.name), ("reboundBy", .text reboundBy.name)])
  | size relation known value term =>
    .dynamicMismatch relation known value (some [("expression", .text term.text)])
  | obligation relation left right leftSize rightSize =>
    .dynamicMismatch relation left right
      (some [("left", .text leftSize.text), ("right", .text rightSize.text)])

/-- The reason of a payload fault in words. -/
def PayloadFault.reason (node : Nat) : PayloadFault → String
  | missing => "node has no payload"
  | unresolvedInput id => s!"input %{id} is not resolved"
  | wrongNode returned => s!"returned a view of %{returned.text} instead of %{node}"
  | rank returned declared => s!"returned rank {returned}, declared {declared.text}"
  | count returned sizes => s!"returned {returned} values for shape {sizesText sizes}"

/-- The reason of a handle fault in words. -/
def HandleFault.reason : HandleFault → String
  | foreign id owner graph =>
    s!"tensor %{id.text} belongs to graph #{owner.text}, not #{graph.text}"
  | noNode id => s!"no node with id {id.text}"
  | finished kind => s!"node builder for '{kind}' was already finished"
  | noResolvedNode id => s!"no resolved node with id {id.text}"

/-- The context of every report about a host computation. -/
def payloadContext (node : Nat) : Option (Entries Value) :=
  some [("node", .number (.ofNat node))]

/-- What is seen of a fault. -/
def Fault.report : Fault → Report
  | size reason => reason.report
  | dimension reason => reason.report
  | shape operation reason => .shapeMismatch operation reason.reason reason.context
  | range operation reason => .invalidRange operation reason.reason reason.context
  | mismatch reason => reason.report
  | payload function node reason =>
    .payload function (reason.reason node) (payloadContext node) none
  | handle operation reason => .handle operation reason.reason none
  | threw function node cause =>
    .payload function cause.report.message (payloadContext node) (some cause.report)
  | noReferenceAxis axis =>
    .plain "Error" s!"expected a resolved input with an axis {axis}"
  | tooLong length => .plain "RangeError" s!"Invalid typed array length: {length.text}"
  | noRoom => .plain "RangeError" "Array buffer allocation failed"
  | host message => .plain "Error" message
  | hostValue value => .value value

end ShapeGraph
