import ShapeGraph.Numeric.Number

/-!
# Exact arithmetic

Sizes are integers, and double-precision arithmetic treats them as such as long
as no result leaves the safe range.  Two notions make this precise.

* `Unbounded` — nothing is rounded, so every operation on integers is the
  operation on integers (`add_int_int` and its companions).
* `Exact` — a computation that comes to the same in double precision and with
  integers of any size.  A computation all of whose results are safe is exact.
-/

namespace ShapeGraph.Numeric

/-- Nothing is rounded. -/
class Unbounded [Arithmetic] : Prop where
  holds_all : ∀ n, Arithmetic.holds n = true

instance : @Unbounded Arithmetic.unbounded :=
  @Unbounded.mk Arithmetic.unbounded fun _ => rfl

/-- A computation that double precision carries out as integers of any size
would: whatever it folds is a safe integer, or leaves no trace. -/
def Exact {α : Type} (compute : Arithmetic → α) : Prop :=
  compute Arithmetic.double = compute Arithmetic.unbounded

/-- A computation is exact if it comes to one known result in either way. -/
theorem Exact.of_eq {α : Type} {compute : Arithmetic → α} (result : α)
    (hdouble : compute Arithmetic.double = result)
    (hunbounded : compute Arithmetic.unbounded = result) : Exact compute :=
  hdouble.trans hunbounded.symm

namespace Number

/-- The integer that a number is; zero if it is none. -/
def toInt : Number → Int
  | .int n => n
  | _ => 0

/-- The integer in a number that is one. -/
@[simp] theorem toInt_int (n : Int) : (Number.int n).toInt = n := rfl

/-- Only zero is written as zero: there is no second number for it. -/
@[simp] theorem int_eq_zero {n : Int} : Number.int n = 0 ↔ n = 0 :=
  ⟨fun h => by injection h, fun h => by rw [h]; rfl⟩

@[simp] theorem int_eq_one {n : Int} : Number.int n = 1 ↔ n = 1 :=
  ⟨fun h => by injection h, fun h => by rw [h]; rfl⟩

/-- Integers are identical if they are the same integer. -/
@[simp] theorem identical_int {a b : Int} :
    (Number.int a).identical (Number.int b) = decide (a = b) := by
  simp [identical, isFresh]

/-- A safe number is an integer, so proofs about sizes can be done on integers. -/
theorem eq_int_of_isSafe {v : Number} (h : v.isSafe = true) : ∃ n, v = .int n := by
  cases v with
  | int n => exact ⟨n, rfl⟩
  | real x => cases h
  | undefined which => cases h

/-- Nothing but an integer equals an integer. -/
theorem same_int_iff {n : Int} {v : Number} : (int n).same v = true ↔ v = int n := by
  cases v with
  | int m => simp [eq_comm]
  | real x => simp [same]
  | undefined which => simp [same]

/-! ## Operations on integers -/

section

variable [Arithmetic] [Unbounded]

/-- Nothing is rounded when integers are added without bound. -/
@[simp] theorem add_int_int (a b : Int) : add (.int a) (.int b) = .int (a + b) :=
  add_int (Unbounded.holds_all _)

@[simp] theorem sub_int_int (a b : Int) : sub (.int a) (.int b) = .int (a - b) :=
  sub_int (Unbounded.holds_all _)

@[simp] theorem mul_int_int (a b : Int) : mul (.int a) (.int b) = .int (a * b) :=
  mul_int (Unbounded.holds_all _)

end

end Number

end ShapeGraph.Numeric
