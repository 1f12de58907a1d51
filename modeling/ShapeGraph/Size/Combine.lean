import ShapeGraph.Fault

/-!
# Putting sizes together

Every operation folds literals as it goes, so that a size built from literals
alone is a literal again.  Literals move to the right of the commutative
operations, where they meet the literal of an inner term and merge with it:
an offset with an offset, a factor with a factor, a bound with a bound.

* `addLiteral`, `mulLiteral`, `boundLiteral` — one literal is taken in, through
  all the literals already there;
* `difference` — what is left of a difference when both sides share a base;
* `combine` — any operation; only a division can fail, and only by zero.
-/

namespace ShapeGraph.Size

open ShapeGraph.Numeric (Arithmetic Number)

/-- The literal of a number that callers give.  It has to be a safe integer. -/
def ofNumber (v : Number) : Except Fault Size :=
  if v.isSafe then .ok (.literal v) else .error (.size (.notInteger v))

/-- The symbol of a name that callers give.  It cannot be empty. -/
def ofSymbol (name : String) : Except Fault Size :=
  if name.isEmpty then .error (.size .emptySymbol) else .ok (.symbol name)

variable [Arithmetic]

/-! ## Sums -/

/-- A term plus a literal.  Zero adds nothing, and offsets merge. -/
def addLiteral : Size → Number → Size
  | literal a, v => literal (a.add v)
  | binary .add base (literal c), v =>
    if v = 0 then binary .add base (literal c) else addLiteral base (c.add v)
  | t, v => if v = 0 then t else binary .add t (literal v)

/-- The sum of two sizes. -/
def add : Size → Size → Size
  | l, literal b => addLiteral l b
  | literal a, r => addLiteral r a
  | l, r => binary .add l r

/-! ## Differences -/

/-- The base and the offset of a term that ends in adding a literal. -/
def offset? : Size → Option (Size × Number)
  | binary .add base (literal c) => some (base, c)
  | _ => none

/-- The difference of two terms, a literal when both have the same base. -/
def difference (l r : Size) : Size :=
  if l.same r then zero
  else
    match l.offset?, r.offset? with
    | some (base, c), some (base', c') =>
      if base.same r then literal c.renewed
      else if base.same base' then literal (c.sub c')
      else if l.same base' then literal c'.neg
      else binary .sub l r
    | some (base, c), none => if base.same r then literal c.renewed else binary .sub l r
    | none, some (base', c') => if l.same base' then literal c'.neg else binary .sub l r
    | none, none => binary .sub l r

/-- The difference of two sizes.  Taking a literal away is adding its
negation. -/
def sub : Size → Size → Size
  | literal a, literal b => literal (a.sub b)
  | l, literal b => addLiteral l b.neg
  | l, r => difference l r

/-! ## Products and quotients -/

/-- A term times a literal.  Zero and one decide, and factors merge. -/
def mulLiteral : Size → Number → Size
  | literal a, v => literal (a.mul v)
  | binary .mul base (literal c), v =>
    if v = 0 then zero
    else if v = 1 then binary .mul base (literal c)
    else mulLiteral base (c.mul v)
  | t, v => if v = 0 then zero else if v = 1 then t else binary .mul t (literal v)

/-- The product of two sizes. -/
def mul : Size → Size → Size
  | l, literal b => mulLiteral l b
  | literal a, r => mulLiteral r a
  | l, r => binary .mul l r

/-- The quotient of two sizes, rounded down.  A literal divisor must not be
zero. -/
def div : Size → Size → Except Fault Size
  | literal a, literal b =>
    if b = 0 then .error (.size (.literalByZero a)) else .ok (literal (a.floorDiv b))
  | l, literal b =>
    if b = 0 then .error (.size (.byZero l))
    else if b = 1 then .ok l
    else .ok (binary .div l (literal b))
  | literal a, r => if a = 0 then .ok (literal a) else .ok (binary .div (literal a) r)
  | l, r => .ok (binary .div l r)

/-! ## Bounds -/

/-- A term bounded by a literal from above or below; bounds of one kind
merge. -/
def boundLiteral (op : Operator) : Size → Number → Size
  | literal a, v => literal (op.apply a v)
  | binary inner base (literal c), v =>
    if inner = op then boundLiteral op base (op.apply c v)
    else binary op (binary inner base (literal c)) (literal v)
  | t, v => binary op t (literal v)

/-- The lesser or the greater of two sizes, as the operation says. -/
def extremum (op : Operator) : Size → Size → Size
  | l, literal b => boundLiteral op l b
  | literal a, r => boundLiteral op r a
  | l, r => if l.same r then l else binary op l r

/-- The lesser of two sizes. -/
def min (l r : Size) : Size := extremum .min l r

/-- The greater of two sizes. -/
def max (l r : Size) : Size := extremum .max l r

/-! ## Any operation -/

/-- An operation on two sizes. -/
def combine : Operator → Size → Size → Except Fault Size
  | .add, l, r => .ok (l.add r)
  | .sub, l, r => .ok (l.sub r)
  | .mul, l, r => .ok (l.mul r)
  | .div, l, r => l.div r
  | .min, l, r => .ok (l.min r)
  | .max, l, r => .ok (l.max r)

/-- The product of a list of sizes. -/
def product (sizes : List Size) : Size :=
  sizes.foldl mul one

end ShapeGraph.Size
