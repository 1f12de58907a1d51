import ShapeGraph.Proofs.Size.Substitution
import ShapeGraph.Size.Recipe

/-!
# Simplified sizes evaluate to what their recipes say

A recipe can be evaluated directly, operation by operation, without making the
size that it describes.  The size is simplified while it is made, and once more
when it is evaluated, and still gives the direct value.

* `direct` — the value of a recipe, none if it divides by zero;
* `InRange` — all numbers that are folded on the way are safe integers;
* `size_of_direct` — making the size succeeds, and keeps the direct value;
* `evaluate_size` — so evaluating it gives that value.
-/

namespace ShapeGraph.Recipe

open ShapeGraph.Numeric (Arithmetic Number)

/-- A recipe of operations on literals and symbols that can be made: literals
are safe integers and symbols have names. -/
def Elementary : Recipe → Prop
  | number v => v.isSafe = true
  | symbol name => name.isEmpty = false
  | binary _ l r => l.Elementary ∧ r.Elementary
  | substitute _ _ => False

/-- The value of a recipe under a binding of its symbols to integers, operation
by operation.  There is none if a divisor is zero. -/
def direct (bindings : Bindings) : Recipe → Option Int
  | number v => some v.toInt
  | symbol name =>
    match bindings.get? name with
    | some (.int n) => some n
    | _ => none
  | binary op l r => do
    let a ← l.direct bindings
    let b ← r.direct bindings
    if op = .div ∧ b = 0 then none else some (op.onIntegers a b)
  | substitute _ _ => none

/-- The values of the bound symbols; the others do not matter. -/
def valuation (bindings : Bindings) : Valuation :=
  bindings.completed fun _ => 0

section

variable [Arithmetic]

/-- Whatever is folded while the size is made is held. -/
def Fits : Recipe → Prop
  | number _ => True
  | symbol _ => True
  | binary op l r =>
    l.Fits ∧ r.Fits ∧ ∀ x y, l.size = .ok x → r.size = .ok y → Size.Fits op x y
  | substitute inner _ => inner.Fits

/-- Whatever is folded while the size is made and while it is evaluated is
held. -/
structure InRange (bindings : Bindings) (r : Recipe) : Prop where
  making : r.Fits
  evaluating : ∀ s, r.size = .ok s → s.Held (valuation bindings)

/-- A symbol is made if it has a name. -/
theorem size_symbol (name : String) : (symbol name).size = Size.ofSymbol name := by
  unfold size
  rw [build]
  cases Size.ofSymbol name <;> rfl

/-- The size of an operation is made of the sizes of its operands, the left one
first. -/
theorem size_binary (op : Operator) (l r : Recipe) : (binary op l r).size = (do
    let x ← l.size
    let y ← r.size
    Size.combine op x y) := by
  unfold size
  rw [build]
  rcases l.build with e | q
  · rfl
  rcases hq : q.toSize with e | x
  · simp only [bind, Except.bind, hq]
  rcases r.build with e | p
  · simp only [bind, Except.bind, hq]
  rcases hp : p.toSize with e | y
  · simp only [bind, Except.bind, hq, hp]
  simp only [bind, Except.bind, hq, hp]
  cases Size.combine op x y <;> rfl

/-- **Making a size keeps the direct value.**  A recipe that has a direct value
can be made, and what is made has that value and divides by zero nowhere. -/
theorem size_of_direct {bindings : Bindings} {r : Recipe} {n : Int} (hr : r.Elementary)
    (hfits : r.Fits) (hdirect : r.direct bindings = some n) :
    ∃ s, r.size = .ok s ∧ s.Integral ∧ s.Defined bindings.Bound (valuation bindings) ∧
      s.value (valuation bindings) = n := by
  induction r generalizing n with
  | number v =>
      obtain ⟨m, rfl⟩ := Number.eq_int_of_isSafe hr
      exact ⟨.literal (.int m), if_pos hr, ⟨m, rfl⟩, trivial, Option.some.inj hdirect⟩
  | symbol name =>
      simp only [direct] at hdirect
      split at hdirect
      · next m hm =>
        refine ⟨.symbol name, ?_, trivial, ⟨_, hm⟩, ?_⟩
        · rw [size_symbol]
          exact if_neg (by simp [show name.isEmpty = false from hr])
        · simpa [Size.value, valuation, Bindings.completed, hm] using hdirect
      · cases hdirect
  | binary op l r ihl ihr =>
      obtain ⟨a, ha, hdirect⟩ := Option.bind_eq_some_iff.mp hdirect
      obtain ⟨b, hb, hdirect⟩ := Option.bind_eq_some_iff.mp hdirect
      obtain ⟨x, hx, hxi, hxd, hxv⟩ := ihl hr.1 hfits.1 ha
      obtain ⟨y, hy, hyi, hyd, hyv⟩ := ihr hr.2 hfits.2.1 hb
      split at hdirect
      · cases hdirect
      · next hzero =>
        have hne : op = .div → y.value (valuation bindings) ≠ 0 :=
          fun hop h => hzero ⟨hop, hyv ▸ h⟩
        obtain ⟨t, ht⟩ : ∃ t, Size.combine op x y = .ok t :=
          Size.combine_ok fun hop h => hne hop (by rw [h]; rfl)
        have htm := Size.combine_means hxi hyi (hfits.2.2 x y hx hy) ht
        refine ⟨t, ?_, htm.integral, Size.combine_defined hxd hyd hne ht, ?_⟩
        · rw [size_binary, hx, hy]
          exact ht
        · rw [htm.value_eq, hxv, hyv]
          exact Option.some.inj hdirect
  | substitute inner b => exact hr.elim

end

/-- **Simplification preserves meaning.**  A recipe with a direct value can be
made, and evaluating the simplified size gives the direct value, as long as all
numbers that are folded are safe integers. -/
theorem evaluate_size {bindings : Bindings} {r : Recipe} {n : Int} (hr : r.Elementary)
    (hbindings : bindings.Integral) (hrange : r.InRange bindings)
    (hdirect : r.direct bindings = some n) :
    ∃ s, r.size = .ok s ∧ s.evaluate bindings = .ok (.int n) := by
  obtain ⟨s, hs, hsi, hsd, hsv⟩ := size_of_direct hr hrange.making hdirect
  refine ⟨s, hs, ?_⟩
  rw [Size.evaluate_of_held hsi (hbindings.agrees_completed _) hsd (hrange.evaluating s hs)]
  exact congrArg (fun m => Except.ok (Number.int m)) hsv

/-- The symbol cancels in `((x + 3) - x) / y`, and the quotient rounds down. -/
theorem evaluate_size_quotient :
    (binary .div (binary .sub (binary .add (symbol "x") (number 3)) (symbol "x"))
        (symbol "y")).direct [("x", 5), ("y", 2)] = some 1 ∧
      ∃ s, (binary .div (binary .sub (binary .add (symbol "x") (number 3)) (symbol "x"))
          (symbol "y")).size = .ok s ∧
        s.evaluate [("x", 5), ("y", 2)] = .ok (.int 1) := by
  refine ⟨by decide, evaluate_size ?_ ?_ ⟨?_, ?_⟩ (by decide)⟩
  · exact ⟨⟨⟨rfl, rfl⟩, rfl⟩, rfl⟩
  · intro name v h
    simp only [Entries.get?] at h
    split at h
    · exact ⟨5, (Option.some.inj h).symm⟩
    · split at h
      · exact ⟨2, (Option.some.inj h).symm⟩
      · cases h
  · refine ⟨⟨⟨trivial, trivial, ?_⟩, trivial, ?_⟩, trivial, ?_⟩ <;>
      (intro a b ha hb
       obtain rfl := Except.ok.inj ha
       obtain rfl := Except.ok.inj hb)
    · exact trivial
    · intro _ _ _ _ h
      cases h
    · exact trivial
  · intro s h
    obtain rfl := Except.ok.inj h
    exact ⟨trivial, trivial, by decide⟩

end ShapeGraph.Recipe
