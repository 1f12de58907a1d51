/-!
# Kinds of nodes

What a node of the graph does.  Leaves hold or compute data, view operations
rearrange it, and the rest calculates.  Hosts may insert nodes of kinds that
are not listed here; these are known by their name alone.

* `OpKind.ofName_name` — a listed kind is found again by its name.
-/

namespace ShapeGraph

/-- Functions of one element. -/
inductive UnaryOp where
  | neg
  | exp
  | log
  | sin
  | cos
  | sqrt
  | recip
  | sigmoid
deriving DecidableEq, Repr

/-- Functions of two elements. -/
inductive BinaryOp where
  | add
  | sub
  | mul
  | div
  | maximum
deriving DecidableEq, Repr

/-- Functions of an element and a fixed number. -/
inductive ScalarOp where
  | add
  | mul
deriving DecidableEq, Repr

/-- Reductions along an axis. -/
inductive ReduceOp where
  | sum
  | mean
  | max
deriving DecidableEq, Repr

/-- What a node does. -/
inductive OpKind where
  | input
  | constant
  | function
  | slice
  | permute
  | reshape
  | expand
  | concat
  | contiguous
  | unary (op : UnaryOp)
  | binary (op : BinaryOp)
  | scalar (op : ScalarOp)
  | reduce (op : ReduceOp)
  | softmax
  | matmul
  | other (name : String)
deriving DecidableEq, Repr

namespace OpKind

/-- The name of a kind. -/
def name : OpKind → String
  | input => "input"
  | constant => "constant"
  | function => "function"
  | slice => "slice"
  | permute => "permute"
  | reshape => "reshape"
  | expand => "expand"
  | concat => "concat"
  | contiguous => "contiguous"
  | unary .neg => "neg"
  | unary .exp => "exp"
  | unary .log => "log"
  | unary .sin => "sin"
  | unary .cos => "cos"
  | unary .sqrt => "sqrt"
  | unary .recip => "recip"
  | unary .sigmoid => "sigmoid"
  | binary .add => "add"
  | binary .sub => "sub"
  | binary .mul => "mul"
  | binary .div => "div"
  | binary .maximum => "maximum"
  | scalar .add => "add_scalar"
  | scalar .mul => "mul_scalar"
  | reduce .sum => "sum"
  | reduce .mean => "mean"
  | reduce .max => "max"
  | softmax => "softmax"
  | matmul => "matmul"
  | other name => name

/-- All kinds but those known by their name alone. -/
def listed : List OpKind :=
  [input, constant, function, slice, permute, reshape, expand, concat, contiguous,
    unary .neg, unary .exp, unary .log, unary .sin, unary .cos, unary .sqrt, unary .recip,
    unary .sigmoid, binary .add, binary .sub, binary .mul, binary .div, binary .maximum,
    scalar .add, scalar .mul, reduce .sum, reduce .mean, reduce .max, softmax, matmul]

/-- The kind of a name. -/
def ofName (name : String) : OpKind :=
  (listed.find? fun kind => kind.name = name).getD (other name)

theorem ofName_name {kind : OpKind} (h : kind ∈ listed) : ofName kind.name = kind := by
  revert kind
  decide

end OpKind

end ShapeGraph
