import ShapeGraph.Proofs.Size.Irreducible

/-!
# Literals that meet a size

A literal that meets a size is taken in by it, whatever the size ends in.  It may find
another literal there and merge with it, and the two may cancel.  The laws by which integers
are put together hold all the same: literals taken in one after the other are what they come
to among themselves, taken in at once, and two offsets of one size differ by a literal.  All
of this is settled when the sizes are made, with no value for any symbol.

* `takeIn_takeIn` — literals one after the other, for every operation that they go to the
  right of;
* `Recipe.meet`, `Recipe.Agree` — a recipe with one more literal, and recipes that make the
  same size;
* `Recipe.literals_merge` — the laws, for every size that can be made.
-/

namespace ShapeGraph

open ShapeGraph.Numeric (Arithmetic Exact Number Unbounded)

/-! ## Literals taken in -/

namespace Size

variable [Arithmetic] {op : Operator} {s : Size}

section

variable [Unbounded]

/-- **Literals that are taken in one after the other** are what they come to among
themselves, taken in at once. -/
theorem takeIn_takeIn (hop : op.commutes = true) (hs : s.Integral) (hn : s.Normal) (m n : Int) :
    takeIn op (takeIn op s (.int m)) (.int n) = takeIn op s (.int (op.onIntegers m n)) := by
  cases op with
  | add => exact addLiteral_addLiteral hs hn m n
  | mul => exact mulLiteral_mulLiteral hs hn m n
  | min => exact boundLiteral_boundLiteral (.inl rfl) hs m n
  | max => exact boundLiteral_boundLiteral (.inr rfl) hs m n
  | sub | div => cases hop

/-- A literal on the left is taken in from there as well, also by another literal. -/
theorem literal_combine_int (hop : op.commutes = true) (hs : s.Integral) (n : Int) :
    combine op (literal (.int n)) s = .ok (takeIn op s (.int n)) := by
  cases op with
  | add => exact congrArg Except.ok (literal_add hs n)
  | mul => exact congrArg Except.ok (literal_mul hs n)
  | min => exact congrArg Except.ok (extremum_literal (.inl rfl) hs n)
  | max => exact congrArg Except.ok (extremum_literal (.inr rfl) hs n)
  | sub | div => cases hop

/-- A term of integers that takes an integer in stays one. -/
theorem takeIn_integral (hop : op.commutes = true) (hs : s.Integral) (n : Int) :
    (takeIn op s (.int n)).Integral :=
  (hs.means.combine (means_int n) (combine_literal hop s (.int n))).integral

end

end Size

/-! ## Recipes that agree -/

namespace Recipe

/-- The operation on what a recipe makes and a literal. -/
def meet (op : Operator) (r : Recipe) (n : Int) : Recipe :=
  binary op r (number (.int n))

/-- Two recipes make structurally equal sizes, as long as all numbers that are folded while
they are made are safe integers. -/
def Agree (p q : Recipe) : Prop :=
  (Exact fun _ => p.size) → (Exact fun _ => q.size) →
    ∃ s t, p.size = .ok s ∧ q.size = .ok t ∧ s.same t = true

/-- Recipes agree if they make one and the same size of integers when nothing is rounded. -/
theorem agree_of_unbounded {p q : Recipe} {s : Size} (hs : s.Integral)
    (hp : @size .unbounded p = .ok s) (hq : @size .unbounded q = .ok s) : Agree p q := by
  intro hpexact hqexact
  exact ⟨s, s, hpexact.trans hp, hqexact.trans hq, (Size.same_iff hs hs).mpr rfl⟩

section

variable [Arithmetic] {r : Recipe} {x : Size} {n : Int}

/-- A literal that callers give has to be safe. -/
theorem size_number (hn : (Number.int n).isSafe = true) :
    (number (.int n)).size = .ok (.literal (.int n)) :=
  if_pos hn

/-- The size of a recipe and a literal is put together from the size of the recipe and the
literal. -/
theorem size_meet (hx : r.size = .ok x) (hn : (Number.int n).isSafe = true) (op : Operator) :
    (meet op r n).size = Size.combine op x (.literal (.int n)) := by
  rw [meet, size_binary, hx, size_number hn]
  rfl

theorem size_meet_left (hx : r.size = .ok x) (hn : (Number.int n).isSafe = true) (op : Operator) :
    (binary op (number (.int n)) r).size = Size.combine op (.literal (.int n)) x := by
  rw [size_binary, hx, size_number hn]
  rfl

end

/-! ## The laws -/

section

variable [Arithmetic] {r : Recipe} {x : Size} {a b : Int}

/-- If the literal goes to the right then it is taken in. -/
theorem size_meet_takeIn {op : Operator} (hop : op.commutes = true) (hx : r.size = .ok x)
    (ha : (Number.int a).isSafe = true) : (meet op r a).size = .ok (Size.takeIn op x (.int a)) :=
  (size_meet hx ha op).trans (Size.combine_literal hop x (.int a))

variable [Unbounded]

/-- Taking a literal away adds its negation. -/
theorem size_meet_sub (hxi : x.Integral) (hx : r.size = .ok x)
    (ha : (Number.int a).isSafe = true) :
    (meet .sub r a).size = .ok (x.addLiteral (.int (-a))) :=
  (size_meet hx ha .sub).trans (congrArg Except.ok (Size.sub_literal hxi a))

/-- Two offsets of one size differ by a literal. -/
theorem size_meet_cancelled (hxi : x.Integral) (hxn : x.Normal) (hx : r.size = .ok x)
    (ha : (Number.int a).isSafe = true) (hb : (Number.int b).isSafe = true) :
    (binary .sub (meet .add r a) (meet .add r b)).size = .ok (.literal (.int (a - b))) := by
  have hfirst : (meet .add r a).size = .ok (x.addLiteral (.int a)) := size_meet_takeIn rfl hx ha
  have hsecond : (meet .add r b).size = .ok (x.addLiteral (.int b)) := size_meet_takeIn rfl hx hb
  rw [size_binary, hfirst, hsecond]
  exact congrArg Except.ok (Size.addLiteral_sub_addLiteral hxi hxn a b)

end

/-- **Literals merge on any size**, whatever the size ends in.  For every operation that
literals go to the right of — sums, products and both bounds — a literal on the left is the
same as on the right, and two literals one after the other are the one that they come to.
Taking a literal away is adding its negation, and two offsets of one size differ by the
literal between them. -/
theorem literals_merge {r : Recipe} {x : Size} (hr : r.Integral) (hmade : Exact fun _ => r.size)
    (hx : r.size = .ok x) {a b : Int} (ha : (Number.int a).isSafe = true)
    (hb : (Number.int b).isSafe = true) :
    (∀ op : Operator, op.commutes = true →
      Agree (binary op (number (.int a)) r) (meet op r a) ∧
      ((Number.int (op.onIntegers a b)).isSafe = true →
        Agree (meet op (meet op r a) b) (meet op r (op.onIntegers a b)))) ∧
    Agree (meet .sub r a) (meet .add r (-a)) ∧
    ((Number.int (a - b)).isSafe = true →
      Agree (binary .sub (meet .add r a) (meet .add r b)) (number (.int (a - b)))) := by
  have hx : @size .unbounded r = .ok x := hmade.symm.trans hx
  have hxi : x.Integral := @size_integral .unbounded _ r x hr hx
  have hxn : @Size.Normal .unbounded x := @size_normal .unbounded r x hx
  have hneg : (Number.int (-a)).isSafe = true := by
    simpa [Number.isSafe] using ha
  refine ⟨fun op hop => ⟨?_, fun hsafe => ?_⟩, ?_, fun hsafe => ?_⟩
  · have hright := @size_meet_takeIn .unbounded r x a op hop hx ha
    have hleft := @Size.literal_combine_int .unbounded op x _ hop hxi a
    exact agree_of_unbounded (@Size.takeIn_integral .unbounded op x _ hop hxi a)
      ((@size_meet_left .unbounded r x a hx ha op).trans hleft) hright
  · have hfirst := @size_meet_takeIn .unbounded r x a op hop hx ha
    have hsecond := @size_meet_takeIn .unbounded _ _ b op hop hfirst hb
    have honce := @size_meet_takeIn .unbounded r x _ op hop hx hsafe
    have hmerged := @Size.takeIn_takeIn .unbounded op x _ hop hxi hxn a b
    exact agree_of_unbounded (@Size.takeIn_integral .unbounded op x _ hop hxi _)
      (hmerged ▸ hsecond) honce
  · exact agree_of_unbounded (@Size.takeIn_integral .unbounded .add x _ rfl hxi (-a))
      (@size_meet_sub .unbounded r x a _ hxi hx ha)
      (@size_meet_takeIn .unbounded r x (-a) .add rfl hx hneg)
  · exact agree_of_unbounded (s := .literal (.int (a - b))) ⟨_, rfl⟩
      (@size_meet_cancelled .unbounded r x a b _ hxi hxn hx ha hb)
      (@size_number .unbounded (a - b) hsafe)

/-- On `n + 3` the offset is lost between the literals `-3` and `5`, and the factor of
`n * 4` becomes `-8` by way of `-4`. -/
theorem literals_merge_cancelled :
    let r := binary .add (symbol "n") (number 3)
    let q := binary .mul (symbol "n") (number 4)
    (∃ s t, (meet .add (meet .add r (-3)) 5).size = .ok s ∧ (meet .add r 2).size = .ok t ∧
      s.same t = true) ∧
    (∃ s t, (binary .sub (meet .add r (-3)) (meet .add r 5)).size = .ok s ∧
      (number (.int (-8))).size = .ok t ∧ s.same t = true) ∧
    ∃ s t, (meet .mul (meet .mul q (-1)) 2).size = .ok s ∧ (meet .mul q (-2)).size = .ok t ∧
      s.same t = true := by
  intro r q
  have hoffsets := literals_merge (r := r) (a := -3) (b := 5) ⟨trivial, trivial⟩
    (.of_eq _ rfl rfl) rfl (by decide) (by decide)
  have hfactors := literals_merge (r := q) (a := -1) (b := 2) ⟨trivial, trivial⟩
    (.of_eq _ rfl rfl) rfl (by decide) (by decide)
  exact ⟨(hoffsets.1 .add rfl).2 (by decide) (.of_eq _ rfl rfl) (.of_eq _ rfl rfl),
    hoffsets.2.2 (by decide) (.of_eq _ rfl rfl) (.of_eq _ rfl rfl),
    (hfactors.1 .mul rfl).2 (by decide) (.of_eq _ rfl rfl) (.of_eq _ rfl rfl)⟩

end Recipe

end ShapeGraph
