/-!
# Numbers of the size calculus

Sizes, positions and data are double-precision numbers.  Nearly all of them
are integers, and as long as these stay within `±(2^53 - 1)` double-precision
arithmetic is exact, so a number is either such an integer or a double that is
not one: a fraction, a large value or an infinity.  The sign of zero is never
observed and zero is always the integer `0`.  What an operation without a
result gives is the undefined value, which is set apart as well.

Which integers arithmetic gives as they are is its `Arithmetic`.  That of
double precision is in force everywhere; that of integers of any size says what
a computation comes to when nothing is rounded.

* `add_int`, `sub_int`, `mul_int`, `floorDiv_int` — arithmetic of integers is
  integer arithmetic as long as the result is held;
* `same_int`, `lt_int` — so are equality and order;
* `identical_self` — a number is identical to itself unless it is an undefined
  value that nothing tells apart.

Comparisons with the undefined value fail, also with itself, and `min` and
`max` with it are undefined.  A term may still be the term that it is, so
undefined values say which occurrence they are, and `identical` goes by that.
-/

namespace ShapeGraph.Numeric

/-- The greatest integer up to which every integer is a double: `2^53 - 1`. -/
def maxSafe : Nat := 9007199254740991

/-- Which integers the results of arithmetic are held as; all other results are
rounded to doubles. -/
class Arithmetic where
  holds : Int → Bool

namespace Arithmetic

/-- Double precision: the safe integers are exact. -/
instance double : Arithmetic := ⟨fun n => n.natAbs ≤ maxSafe⟩

/-- Integers of any size: nothing is rounded. -/
@[reducible] def unbounded : Arithmetic := ⟨fun _ => true⟩

end Arithmetic

/-- Which occurrence of the undefined value it is.  A computation gives a fresh
one, which nothing tells apart yet.  Those of something under construction are
numbered, and those of something that stands belong to it. -/
inductive Occurrence where
  | fresh
  | numbered (n : Nat)
  | owned (owner n : Nat)
deriving DecidableEq, Inhabited

/-- A double-precision number, integers within `±maxSafe` and the undefined
value set apart. -/
inductive Number where
  | int (n : Int)
  | real (x : Float)
  | undefined (which : Occurrence)
deriving DecidableEq, Inhabited

namespace Number

instance (n : Nat) : OfNat Number n := ⟨.int n⟩

/-- The number of a natural number such as a count or a position. -/
def ofNat (n : Nat) : Number := .int n

/-- The double as a number: safe integers become `int`. -/
def ofFloat (x : Float) : Number :=
  if x.isNaN then .undefined .fresh
  else if x.floor == x && x.abs ≤ Float.ofNat maxSafe then .int x.toInt64.toInt
  else .real x

/-- The number as a double. -/
def toFloat : Number → Float
  | .int n => Float.ofInt n
  | .real x => x
  | .undefined _ => 0.0 / 0.0

/-- The decimal `digits · 10^exponent`, negated on request, to the nearest
double. -/
def ofDecimal (negative : Bool) (digits : Nat) (exponent : Int) : Number :=
  let size := Float.ofScientific digits (exponent < 0) exponent.natAbs
  ofFloat (if negative then -size else size)

/-- Above all other numbers. -/
def infinity : Number := .real (1.0 / 0.0)

/-- Below all other numbers. -/
def negInfinity : Number := .real (-1.0 / 0.0)

/-- The undefined value, whichever occurrence it is. -/
def isUndefined : Number → Bool
  | .undefined _ => true
  | _ => false

/-- An integer within `±maxSafe`. -/
def isSafe : Number → Bool
  | .int n => n.natAbs ≤ maxSafe
  | _ => false

/-- An integer of any size. -/
def isInteger : Number → Bool
  | .int _ => true
  | .real x => x.isFinite && x.floor == x
  | .undefined _ => false

/-- The position in a list that the number names: it is an integer and not
negative. -/
def index? : Number → Option Nat
  | .int n => if n < 0 then none else some n.toNat
  | _ => none

/-- The whole part of a number, if it counts something. -/
def truncate? : Number → Option Nat
  | .int n => index? (.int n)
  | .real x => (ofFloat x.floor).index?
  | .undefined _ => none

/-- Equality of values; the undefined value equals nothing. -/
def same : Number → Number → Bool
  | .int a, .int b => a == b
  | .real x, .real y => x == y
  | _, _ => false

/-- Order of values; the undefined value is below nothing. -/
def lt : Number → Number → Bool
  | .int a, .int b => a < b
  | a, b => a.toFloat < b.toFloat

section

variable [Arithmetic]

/-- An operation that is exact on integers while its result is held, and the
rounded one everywhere else. -/
def lift (exact : Int → Int → Int) (rounded : Float → Float → Float) : Number → Number → Number
  | .int a, .int b =>
    if Arithmetic.holds (exact a b) then .int (exact a b)
    else ofFloat (rounded (Float.ofInt a) (Float.ofInt b))
  | a, b => ofFloat (rounded a.toFloat b.toFloat)

/-- The sum. -/
def add : Number → Number → Number :=
  lift (· + ·) (· + ·)

/-- The difference. -/
def sub : Number → Number → Number :=
  lift (· - ·) (· - ·)

/-- The product. -/
def mul : Number → Number → Number :=
  lift (· * ·) (· * ·)

/-- The quotient rounded down.  For safe integers the double-precision
quotient never rounds up to an integer it does not reach, so the integer
quotient is the same. -/
def floorDiv : Number → Number → Number :=
  lift Int.fdiv (fun x y => (x / y).floor)

/-- The product of a list of numbers. -/
def product (xs : List Number) : Number :=
  xs.foldl mul 1

end

/-- The negation. -/
def neg : Number → Number
  | .int n => .int (-n)
  | .real x => ofFloat (-x)
  | .undefined _ => .undefined .fresh

/-- The lesser of two numbers, undefined when one of them is. -/
def min (a b : Number) : Number :=
  if a.isUndefined || b.isUndefined then .undefined .fresh else if b.lt a then b else a

/-- The greater of two numbers, undefined when one of them is. -/
def max (a b : Number) : Number :=
  if a.isUndefined || b.isUndefined then .undefined .fresh else if a.lt b then b else a

/-- The number rounded to single precision.  Integers up to `2^24` are exact
there. -/
def toSingle : Number → Number
  | .int n => if n.natAbs ≤ 16777216 then .int n else ofFloat (Float.ofInt n).toFloat32.toFloat
  | .real x => ofFloat x.toFloat32.toFloat
  | .undefined _ => .undefined .fresh

/-! ## Occurrences of the undefined value -/

/-- An undefined value that nothing tells apart yet. -/
def isFresh (a : Number) : Bool :=
  a = .undefined .fresh

/-- Equal values, or the same occurrence of the undefined one. -/
def identical (a b : Number) : Bool :=
  (a = b && !a.isFresh) || a.same b

/-- The number as a new computation gives it. -/
def renewed : Number → Number
  | .undefined _ => .undefined .fresh
  | a => a

/-- The number with a fresh undefined value numbered. -/
def pin (n : Nat) : Number → Number
  | .undefined .fresh => .undefined (.numbered n)
  | a => a

/-- The least number beyond that of a numbered occurrence. -/
def pinBound : Number → Nat
  | .undefined (.numbered n) => n + 1
  | _ => 0

/-- The number with a numbered undefined value given to an owner. -/
def settle (owner : Nat) : Number → Number
  | .undefined (.numbered n) => .undefined (.owned owner n)
  | a => a

theorem identical_self {a : Number} (h : a.isFresh = false) : a.identical a = true := by
  simp [identical, h]

theorem pin_of_not_fresh {a : Number} (h : a.isFresh = false) (n : Nat) : a.pin n = a := by
  unfold pin
  split
  · simp [isFresh] at h
  · rfl

/-! ## Arithmetic on integers -/

@[simp] theorem lift_int [Arithmetic] {exact : Int → Int → Int}
    {rounded : Float → Float → Float} {a b : Int} (h : Arithmetic.holds (exact a b) = true) :
    lift exact rounded (.int a) (.int b) = .int (exact a b) := by
  simp [lift, h]

theorem add_int [Arithmetic] {a b : Int} (h : Arithmetic.holds (a + b) = true) :
    add (.int a) (.int b) = .int (a + b) :=
  lift_int h

theorem sub_int [Arithmetic] {a b : Int} (h : Arithmetic.holds (a - b) = true) :
    sub (.int a) (.int b) = .int (a - b) :=
  lift_int h

theorem mul_int [Arithmetic] {a b : Int} (h : Arithmetic.holds (a * b) = true) :
    mul (.int a) (.int b) = .int (a * b) :=
  lift_int h

theorem floorDiv_int [Arithmetic] {a b : Int} (h : Arithmetic.holds (a.fdiv b) = true) :
    floorDiv (.int a) (.int b) = .int (a.fdiv b) :=
  lift_int h

@[simp] theorem neg_int (a : Int) : neg (.int a) = .int (-a) := rfl

@[simp] theorem same_int (a b : Int) : same (.int a) (.int b) = decide (a = b) := by
  simp [same, BEq.beq]

@[simp] theorem lt_int (a b : Int) : lt (.int a) (.int b) = decide (a < b) := rfl

@[simp] theorem index?_ofNat (n : Nat) : (ofNat n).index? = some n := by
  simp [ofNat, index?, show ¬ ((n : Int) < 0) by omega]

theorem ofNat_inj {m n : Nat} (h : ofNat m = ofNat n) : m = n :=
  Int.ofNat.inj (int.inj h)

theorem min_int (a b : Int) : min (.int a) (.int b) = .int (Min.min a b) := by
  simp only [min, isUndefined, Bool.or_false, Bool.false_eq_true, ↓reduceIte, lt_int,
    decide_eq_true_eq]
  split <;> congr 1 <;> omega

theorem max_int (a b : Int) : max (.int a) (.int b) = .int (Max.max a b) := by
  simp only [max, isUndefined, Bool.or_false, Bool.false_eq_true, ↓reduceIte, lt_int,
    decide_eq_true_eq]
  split <;> congr 1 <;> omega

end Number

end ShapeGraph.Numeric
