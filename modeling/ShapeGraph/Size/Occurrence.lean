import ShapeGraph.Size.Basic

/-!
# Occurrences of the undefined value in sizes

A size that holds the undefined value is the same only as itself.  Where one
size stands in several places, its undefined values have to say so: they are
numbered before the size is used twice, from a number on that no other of their
company has, and they become the property of what they are part of once that
stands.

* `pin_eq_self` — a size without fresh undefined values stays as it is;
* `same_self` — such a size is the same as itself.
-/

namespace ShapeGraph.Size

/-- The number of undefined values in a term that nothing tells apart yet. -/
def freshCount : Size → Nat
  | literal v => if v.isFresh then 1 else 0
  | symbol _ => 0
  | binary _ l r => l.freshCount + r.freshCount

/-- The least number beyond those of a term. -/
def pinBound : Size → Nat
  | literal v => v.pinBound
  | symbol _ => 0
  | binary _ l r => Nat.max l.pinBound r.pinBound

/-- The least number beyond those of some terms. -/
def listBound : List Size → Nat
  | [] => 0
  | s :: rest => Nat.max s.pinBound (listBound rest)

/-- Numbers the fresh undefined values of a term from `n` on. -/
def pin (n : Nat) : Size → Size
  | literal v => literal (v.pin n)
  | symbol name => symbol name
  | binary op l r => binary op (l.pin n) (r.pin (n + l.freshCount))

/-- Numbers the fresh undefined values of some terms from `n` on. -/
def pinFrom : Nat → List Size → List Size
  | _, [] => []
  | n, s :: rest => s.pin n :: pinFrom (n + s.freshCount) rest

/-- Numbers the fresh undefined values of some terms beyond those that have
numbers. -/
def pinned (sizes : List Size) : List Size :=
  pinFrom (listBound sizes) sizes

/-- Gives the numbered undefined values of a term to an owner. -/
def settle (owner : Nat) : Size → Size
  | literal v => literal (v.settle owner)
  | symbol name => symbol name
  | binary op l r => binary op (l.settle owner) (r.settle owner)

/-! ## Sizes without fresh undefined values -/

theorem pin_eq_self {s : Size} (h : s.freshCount = 0) (n : Nat) : s.pin n = s := by
  induction s generalizing n with
  | literal v =>
    have hv : v.isFresh = false := by simpa [freshCount] using h
    simp [pin, Numeric.Number.pin_of_not_fresh hv]
  | symbol name => rfl
  | binary op l r ihl ihr =>
    simp only [freshCount, Nat.add_eq_zero_iff] at h
    simp [pin, ihl h.1, ihr h.2]

theorem pinFrom_eq_self {sizes : List Size} (h : ∀ s ∈ sizes, s.freshCount = 0) (n : Nat) :
    pinFrom n sizes = sizes := by
  induction sizes generalizing n with
  | nil => rfl
  | cons s rest ih =>
    simp only [List.mem_cons, forall_eq_or_imp] at h
    simp [pinFrom, pin_eq_self h.1, ih h.2]

theorem pinned_eq_self {sizes : List Size} (h : ∀ s ∈ sizes, s.freshCount = 0) :
    pinned sizes = sizes :=
  pinFrom_eq_self h _

theorem length_pinFrom (n : Nat) (sizes : List Size) :
    (pinFrom n sizes).length = sizes.length := by
  induction sizes generalizing n with
  | nil => rfl
  | cons s rest ih => simp [pinFrom, ih]

@[simp] theorem length_pinned (sizes : List Size) : (pinned sizes).length = sizes.length :=
  length_pinFrom _ sizes

theorem same_self {s : Size} (h : s.freshCount = 0) : s.same s = true := by
  induction s with
  | literal v =>
    have hv : v.isFresh = false := by simpa [freshCount] using h
    simp [same, Numeric.Number.identical_self hv]
  | symbol name => simp [same]
  | binary op l r ihl ihr =>
    simp only [freshCount, Nat.add_eq_zero_iff] at h
    simp [same, ihl h.1, ihr h.2]

end ShapeGraph.Size
