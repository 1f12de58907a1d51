import ShapeGraph.Numeric.Text
import ShapeGraph.Text.UnitOrder

/-!
# Size expressions

Every size and every bound of a range is a term over number literals and named
run-time symbols: a batch size, a sequence length.  This file holds the terms,
their equality, their symbols and their text.  How terms are put together so
that literals fold is the subject of `ShapeGraph.Size.Combine`.

* `mem_symbols` — the symbols of a term are the names that occur in it.
-/

namespace ShapeGraph

open ShapeGraph.Numeric (Arithmetic Number)

/-- The operations on sizes. -/
inductive Operator where
  | add
  | sub
  | mul
  | div
  | min
  | max
deriving DecidableEq, Repr

namespace Operator

/-- The sign of an operation, its name for those written as a call. -/
def sign : Operator → String
  | add => "+"
  | sub => "-"
  | mul => "*"
  | div => "/"
  | min => "min"
  | max => "max"

/-- The name of an operation. -/
def name : Operator → String
  | add => "add"
  | sub => "sub"
  | mul => "mul"
  | div => "div"
  | min => "min"
  | max => "max"

/-- The operation of a name. -/
def ofName? (name : String) : Option Operator :=
  [add, sub, mul, div, min, max].find? fun op => op.name = name

theorem ofName?_name (op : Operator) : ofName? op.name = some op := by
  cases op <;> rfl

/-- The operation on numbers; division rounds down. -/
def apply [Arithmetic] : Operator → Number → Number → Number
  | add => Number.add
  | sub => Number.sub
  | mul => Number.mul
  | div => Number.floorDiv
  | min => Number.min
  | max => Number.max

end Operator

/-- A symbolic size. -/
inductive Size where
  | literal (value : Number)
  | symbol (name : String)
  | binary (op : Operator) (left right : Size)
deriving DecidableEq, Inhabited

namespace Size

/-- The literal zero. -/
def zero : Size := .literal 0

/-- The literal one. -/
def one : Size := .literal 1

/-- The value of a literal. -/
def value? : Size → Option Number
  | literal v => some v
  | _ => none

/-- The name of a bare symbol. -/
def symbol? : Size → Option String
  | symbol name => some name
  | _ => none

/-- A literal and nothing else. -/
def isLiteral (s : Size) : Bool :=
  s.value?.isSome

/-- The same term with the same values.  Undefined values are the same only if
they are one occurrence. -/
def same : Size → Size → Bool
  | literal a, literal b => a.identical b
  | symbol a, symbol b => a == b
  | binary op l r, binary op' l' r' => op == op' && l.same l' && r.same r'
  | _, _ => false

/-- The names in a term, from left to right and with repetitions. -/
def names : Size → List String
  | literal _ => []
  | symbol name => [name]
  | binary _ l r => l.names ++ r.names

/-- The free symbols of a term, sorted and without repetitions. -/
def symbols (s : Size) : List String :=
  Text.sortNames s.names.eraseDups

/-- The text of a term.  Adding a negative literal is written as taking its
negation away. -/
def text : Size → String
  | literal v => v.text
  | symbol name => name
  | binary .min l r => "min(" ++ l.text ++ ", " ++ r.text ++ ")"
  | binary .max l r => "max(" ++ l.text ++ ", " ++ r.text ++ ")"
  | binary .add l (literal v) =>
    if v.lt 0 then "(" ++ l.text ++ " - " ++ v.neg.text ++ ")"
    else "(" ++ l.text ++ " + " ++ v.text ++ ")"
  | binary op l r => "(" ++ l.text ++ " " ++ op.sign ++ " " ++ r.text ++ ")"

/-! ## Symbols -/

@[simp] theorem mem_symbols {name : String} {s : Size} : name ∈ s.symbols ↔ name ∈ s.names := by
  simp [symbols, List.mem_eraseDups]

end Size

end ShapeGraph
