import Mathlib.Algebra.Ring.Int.Defs
import ShapeGraph.Proofs.Arithmetic
import ShapeGraph.Size.Combine

/-!
# What a size means

A valuation gives an integer to every symbol, and with it every term has a
value.  Division is floor division; what it comes to for a zero divisor is
settled by a predicate of its own.

* `value` — the value of a term;
* `Means` — a term of integers with a given value under every valuation;
* `Defined` — every symbol of the term is known and no divisor is zero;
* `same_iff` — terms of integers are the same exactly when they are equal.
-/

namespace ShapeGraph

open ShapeGraph.Numeric (Number)

/-- An integer for every symbol. -/
abbrev Valuation := String → Int

/-- The operation on integers; division rounds down. -/
def Operator.onIntegers : Operator → Int → Int → Int
  | .add, a, b => a + b
  | .sub, a, b => a - b
  | .mul, a, b => a * b
  | .div, a, b => a.fdiv b
  | .min, a, b => Min.min a b
  | .max, a, b => Max.max a b

namespace Size

/-- Every literal is an integer. -/
def Integral : Size → Prop
  | literal v => ∃ n, v = .int n
  | symbol _ => True
  | binary _ l r => l.Integral ∧ r.Integral

/-- The value of a term. -/
def value (ρ : Valuation) : Size → Int
  | literal v => v.toInt
  | symbol name => ρ name
  | binary op l r => op.onIntegers (l.value ρ) (r.value ρ)

/-- A term of integers that has the given value under every valuation. -/
structure Means (s : Size) (f : Valuation → Int) : Prop where
  integral : s.Integral
  value_eq : ∀ ρ, s.value ρ = f ρ

/-- Every symbol is known and no divisor is zero. -/
def Defined (known : String → Prop) (ρ : Valuation) : Size → Prop
  | literal _ => True
  | symbol name => known name
  | binary op l r =>
    l.Defined known ρ ∧ r.Defined known ρ ∧ (op = .div → r.value ρ ≠ 0)

/-! ## Literals and symbols -/

/-- An integer means itself. -/
theorem means_int (n : Int) : (literal (.int n)).Means fun _ => n :=
  ⟨⟨n, rfl⟩, fun _ => rfl⟩

theorem means_zero : zero.Means fun _ => 0 := means_int 0

theorem means_one : one.Means fun _ => 1 := means_int 1

/-- A term of integers means its value. -/
theorem Integral.means {s : Size} (h : s.Integral) : s.Means fun ρ => s.value ρ :=
  ⟨h, fun _ => rfl⟩

/-- An operation in a term means the operation on what its sides mean. -/
theorem Means.binary {op : Operator} {l r : Size} {f g : Valuation → Int} (hl : l.Means f)
    (hr : r.Means g) : (Size.binary op l r).Means fun ρ => op.onIntegers (f ρ) (g ρ) :=
  ⟨⟨hl.integral, hr.integral⟩, fun ρ => by simp [value, hl.value_eq, hr.value_eq]⟩

/-- The same term with another reading of its value. -/
theorem Means.congr {s : Size} {f g : Valuation → Int} (h : s.Means f) (hfg : ∀ ρ, f ρ = g ρ) :
    s.Means g :=
  ⟨h.integral, fun ρ => (h.value_eq ρ).trans (hfg ρ)⟩

/-- The number of a term is that of the literal that it is. -/
theorem value?_eq_some {s : Size} {v : Number} : s.value? = some v ↔ s = literal v := by
  cases s <;> simp [value?]

/-- A literal term of integers is an integer, and that is its value. -/
theorem Integral.literal_eq {s : Size} (h : s.Integral) {v : Number} (hv : s.value? = some v)
    (ρ : Valuation) : v = .int (s.value ρ) := by
  obtain rfl := value?_eq_some.mp hv
  obtain ⟨n, rfl⟩ := h
  rfl

/-- Terms of integers are the same exactly when they are equal. -/
theorem same_iff {l r : Size} (hl : l.Integral) (hr : r.Integral) : l.same r = true ↔ l = r := by
  induction l generalizing r with
  | literal v =>
      obtain ⟨n, rfl⟩ := hl
      cases r with
      | literal w =>
          obtain ⟨m, rfl⟩ := hr
          simp [same]
      | symbol name => simp [same]
      | binary op a b => simp [same]
  | symbol name => cases r <;> simp [same]
  | binary op a b iha ihb =>
      cases r with
      | literal w => simp [same]
      | symbol name => simp [same]
      | binary op' a' b' =>
          simp [same, iha hl.1 hr.1, ihb hl.2 hr.2, and_assoc]

/-- A term that ends in an offset is its base plus that offset. -/
theorem Integral.offset {s base : Size} {c : Number} (hs : s.Integral)
    (ho : s.offset? = some (base, c)) :
    base.Integral ∧ ∃ m, c = .int m ∧ s = binary .add base (literal (.int m)) ∧
      ∀ ρ, s.value ρ = base.value ρ + m := by
  unfold offset? at ho
  split at ho
  · simp only [Option.some.injEq, Prod.mk.injEq] at ho
    obtain ⟨rfl, rfl⟩ := ho
    obtain ⟨hb, m, rfl⟩ := hs
    exact ⟨hb, m, rfl, rfl, fun ρ => rfl⟩
  · cases ho

end Size

end ShapeGraph
