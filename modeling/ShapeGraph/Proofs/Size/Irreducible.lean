import ShapeGraph.Proofs.Size.Confluence

/-!
# Sizes to which no rule applies

The rules by which literals fold, move and merge are listed here one by one, as
shapes that the operands of an operation can have.  A term is irreducible if none
of its operations has such operands.  Putting two sizes together keeps the
operation exactly when no rule applies to it, so the normal forms are the
irreducible terms, and every size that can be made is one of them: rebuilding it
changes nothing.

* `Applies` — the rules;
* `combine_kept_iff` — an operation is kept exactly when no rule applies to it;
* `normal_iff_irreducible` — the normal forms are the irreducible terms;
* `Recipe.irreducible_of_size` — every size that can be made is irreducible.
-/

namespace ShapeGraph

open ShapeGraph.Numeric (Arithmetic Exact Number Unbounded)

/-- The operations whose literal goes to the right. -/
def Operator.commutes : Operator → Bool
  | sub | div => false
  | add | mul | min | max => true

namespace Size

/-- A rule applies to an operation on two sizes. -/
inductive Applies : Operator → Size → Size → Prop
  | fold (op : Operator) (a b : Number) : Applies op (literal a) (literal b)
  | move {op : Operator} (hop : op.commutes = true) (a : Number) (r : Size) :
      Applies op (literal a) r
  | merge {op : Operator} (hop : op.commutes = true) (base : Size) (c d : Number) :
      Applies op (binary op base (literal c)) (literal d)
  | addZero (l : Size) : Applies .add l (literal 0)
  | mulZero (l : Size) : Applies .mul l (literal 0)
  | mulOne (l : Size) : Applies .mul l (literal 1)
  | boundEqual {op : Operator} (hop : op = .min ∨ op = .max) (s : Size) : Applies op s s
  | subLiteral (l : Size) (b : Number) : Applies .sub l (literal b)
  | subShared {base l r : Size} {m n : Int} (hl : Offset base m l) (hr : Offset base n r) :
      Applies .sub l r
  | divZero (l : Size) : Applies .div l (literal 0)
  | divOne (l : Size) : Applies .div l (literal 1)
  | zeroDiv (r : Size) : Applies .div (literal 0) r

/-- No rule applies to any operation of the term. -/
def Irreducible : Size → Prop
  | literal _ => True
  | symbol _ => True
  | binary op l r => l.Irreducible ∧ r.Irreducible ∧ ¬Applies op l r

/-- The number of literals, symbols and operations of a term. -/
def nodes : Size → Nat
  | literal _ => 1
  | symbol _ => 1
  | binary _ l r => l.nodes + r.nodes + 1

/-- The base of a term of integers is one. -/
theorem Offset.integral {base s : Size} {m : Int} (h : Offset base m s) (hs : s.Integral) :
    base.Integral := by
  cases h with
  | none => exact hs
  | some m => exact hs.1

/-- What a term within an operation becomes is no larger than the operation, be it that the
term does not grow or that another literal is written to it. -/
theorem nodes_le_binary {op : Operator} {base u : Size} {c w : Number}
    (h : u.nodes ≤ base.nodes ∨ u = binary op base (literal w)) :
    u.nodes ≤ (binary op base (literal c)).nodes := by
  rcases h with h | rfl
  · simp only [nodes]
    omega
  · simp only [nodes, Nat.le_refl]

section

variable [Arithmetic]

/-! ## Literals that are taken in

If a rule applies to a term and a literal then the literal is taken in without the term
growing, and otherwise it is written to the right. -/

/-- Adding a literal applies a rule and makes the term no larger, or keeps both sides. -/
theorem addLiteral_cases (s : Size) (v : Number) :
    Applies .add s (literal v) ∧ (s.addLiteral v).nodes ≤ s.nodes ∨
      ¬Applies .add s (literal v) ∧ s.addLiteral v = binary .add s (literal v) := by
  fun_induction addLiteral s v with
  | case1 a v => exact .inl ⟨.fold .add a v, Nat.le_refl _⟩
  | case2 base c => exact .inl ⟨.addZero _, Nat.le_refl _⟩
  | case3 base c v _ ih =>
      exact .inl ⟨.merge rfl base c v, nodes_le_binary (ih.imp And.right And.right)⟩
  | case4 t => exact .inl ⟨.addZero t, Nat.le_refl _⟩
  | case5 t v hliteral hoffset hzero =>
      refine .inr ⟨fun h => ?_, rfl⟩
      cases h with
      | fold _ a => exact hliteral a rfl
      | move _ a => exact hliteral a rfl
      | merge _ base c => exact hoffset base c rfl
      | addZero => exact hzero rfl
      | boundEqual => exact hliteral v rfl

theorem mulLiteral_cases (s : Size) (v : Number) :
    Applies .mul s (literal v) ∧ (s.mulLiteral v).nodes ≤ s.nodes ∨
      ¬Applies .mul s (literal v) ∧ s.mulLiteral v = binary .mul s (literal v) := by
  have hzero : ∀ t : Size, zero.nodes ≤ t.nodes := fun t => by
    cases t <;> simp only [zero, nodes] <;> omega
  fun_induction mulLiteral s v with
  | case1 a v => exact .inl ⟨.fold .mul a v, Nat.le_refl _⟩
  | case2 base c => exact .inl ⟨.mulZero _, hzero _⟩
  | case3 base c => exact .inl ⟨.mulOne _, Nat.le_refl _⟩
  | case4 base c v _ _ ih =>
      exact .inl ⟨.merge rfl base c v, nodes_le_binary (ih.imp And.right And.right)⟩
  | case5 t => exact .inl ⟨.mulZero t, hzero t⟩
  | case6 t => exact .inl ⟨.mulOne t, Nat.le_refl _⟩
  | case7 t v hliteral hfactor hzero hone =>
      refine .inr ⟨fun h => ?_, rfl⟩
      cases h with
      | fold _ a => exact hliteral a rfl
      | move _ a => exact hliteral a rfl
      | merge _ base c => exact hfactor base c rfl
      | mulZero => exact hzero rfl
      | mulOne => exact hone rfl
      | boundEqual => exact hliteral v rfl

theorem boundLiteral_cases {op : Operator} (hop : op = .min ∨ op = .max) (s : Size) (v : Number) :
    Applies op s (literal v) ∧ (s.boundLiteral op v).nodes ≤ s.nodes ∨
      ¬Applies op s (literal v) ∧ s.boundLiteral op v = binary op s (literal v) := by
  have hcommutes : op.commutes = true := by rcases hop with rfl | rfl <;> rfl
  have hkept : ∀ {t : Size} {v : Number}, (∀ a, t ≠ literal a) →
      (∀ base c, t ≠ binary op base (literal c)) → ¬Applies op t (literal v) := by
    intro t v hliteral hbound h
    cases h with
    | fold _ a => exact hliteral a rfl
    | move _ a => exact hliteral a rfl
    | merge _ base c => exact hbound base c rfl
    | boundEqual => exact hliteral v rfl
    | addZero | mulZero | mulOne | subLiteral | subShared | divZero | divOne | zeroDiv =>
        simp at hop
  fun_induction boundLiteral op s v with
  | case1 a v => exact .inl ⟨.fold op a v, Nat.le_refl _⟩
  | case2 base c v ih =>
      exact .inl ⟨.merge hcommutes base c v, nodes_le_binary (ih.imp And.right And.right)⟩
  | case3 v inner base c hne =>
      refine .inr ⟨hkept (fun a h => by cases h) fun base' c' h => hne ?_, rfl⟩
      cases h
      rfl
  | case4 t v hliteral hbound =>
      exact .inr ⟨hkept hliteral fun base c => hbound op base c, rfl⟩

/-- What an operation whose literal goes to the right makes of a term and a literal. -/
def takeIn : Operator → Size → Number → Size
  | .add => addLiteral
  | .mul => mulLiteral
  | op => boundLiteral op

/-- A literal on the right is taken in. -/
theorem combine_literal {op : Operator} (hop : op.commutes = true) (l : Size) (b : Number) :
    combine op l (literal b) = .ok (takeIn op l b) := by
  cases op <;> first | rfl | cases hop

/-- A literal on the left is taken in by the other side. -/
theorem literal_combine {op : Operator} (hop : op.commutes = true) (a : Number) {r : Size}
    (hr : ∀ b, r ≠ literal b) : combine op (literal a) r = .ok (takeIn op r a) := by
  cases r with
  | literal b => exact absurd rfl (hr b)
  | symbol name => cases op <;> first | rfl | cases hop
  | binary op' x y => cases op <;> first | rfl | cases hop

/-- Taking a literal in applies a rule and makes the term no larger, or keeps both sides. -/
theorem takeIn_cases {op : Operator} (hop : op.commutes = true) (s : Size) (v : Number) :
    Applies op s (literal v) ∧ (takeIn op s v).nodes ≤ s.nodes ∨
      ¬Applies op s (literal v) ∧ takeIn op s v = binary op s (literal v) := by
  cases op with
  | add => exact addLiteral_cases s v
  | mul => exact mulLiteral_cases s v
  | min => exact boundLiteral_cases (.inl rfl) s v
  | max => exact boundLiteral_cases (.inr rfl) s v
  | sub | div => cases hop

/-! ## Operations that are kept -/

/-- An operation is kept with a literal on its right exactly when no rule applies. -/
theorem combine_literal_kept_iff {op : Operator} (hop : op.commutes = true) (l : Size)
    (b : Number) :
    combine op l (literal b) = .ok (binary op l (literal b)) ↔ ¬Applies op l (literal b) := by
  rw [combine_literal hop, Except.ok.injEq]
  rcases takeIn_cases hop l b with ⟨h, hnodes⟩ | ⟨h, hkept⟩
  · refine iff_of_false (fun hkept => ?_) (not_not_intro h)
    rw [hkept] at hnodes
    simp only [nodes] at hnodes
    omega
  · exact iff_of_true hkept h

/-- No operation that literals go to the right of is kept with one on its left. -/
theorem literal_combine_ne {op : Operator} (hop : op.commutes = true) (a : Number) (r : Size) :
    combine op (literal a) r ≠ .ok (binary op (literal a) r) := by
  intro hkept
  by_cases hr : ∃ b, r = literal b
  · obtain ⟨b, rfl⟩ := hr
    exact (combine_literal_kept_iff hop _ b).mp hkept (.fold op a b)
  · have hr : ∀ b, r ≠ literal b := fun b h => hr ⟨b, h⟩
    rw [literal_combine hop a hr] at hkept
    have hkept := Except.ok.inj hkept
    rcases takeIn_cases hop r a with ⟨_, hnodes⟩ | ⟨_, hright⟩
    · rw [hkept] at hnodes
      simp only [nodes] at hnodes
      omega
    · rw [hkept] at hright
      injection hright with _ _ h
      exact hr a h

/-- Two terms that are no literals stay apart, unless one is bounded by itself. -/
theorem symbolic_combine_kept_iff {op : Operator} (hop : op.commutes = true) {l r : Size}
    (hl : l.Integral) (hr : r.Integral) (hleft : ∀ a, l ≠ literal a)
    (hright : ∀ b, r ≠ literal b) :
    combine op l r = .ok (binary op l r) ↔ ¬Applies op l r := by
  have hrule : Applies op l r ↔ (op = .min ∨ op = .max) ∧ l = r := by
    constructor
    · intro h
      cases h with
      | boundEqual hbound => exact ⟨hbound, rfl⟩
      | fold | move | zeroDiv => exact absurd rfl (hleft _)
      | merge | addZero | mulZero | mulOne | subLiteral | divZero | divOne =>
          exact absurd rfl (hright _)
      | subShared => cases hop
    · rintro ⟨hbound, rfl⟩
      exact .boundEqual hbound l
  have hextremum : op = .min ∨ op = .max →
      (combine op l r = .ok (binary op l r) ↔ ¬Applies op l r) := by
    intro hbound
    have hsame : extremum op l r = if l.same r then l else binary op l r := by
      rw [extremum]
      · exact hleft
      · exact hright
    rw [combine_bound hbound, Except.ok.injEq, hsame, hrule]
    split
    · next h =>
      obtain rfl := (same_iff hl hr).mp h
      exact iff_of_false (ne_binary_left op l l) (not_not_intro ⟨hbound, rfl⟩)
    · next h => exact iff_of_true rfl fun heq => h ((same_iff hl hr).mpr heq.2)
  cases op with
  | add =>
      refine iff_of_true ?_ (by simp [hrule])
      rw [combine, add]
      · exact hleft
      · exact hright
  | mul =>
      refine iff_of_true ?_ (by simp [hrule])
      rw [combine, mul]
      · exact hleft
      · exact hright
  | min => exact hextremum (.inl rfl)
  | max => exact hextremum (.inr rfl)
  | sub | div => cases hop

/-- A difference is kept exactly when its sides are no offsets of one base. -/
theorem difference_kept_iff [Unbounded] {l r : Size} (hl : l.Integral) (hr : r.Integral) :
    difference l r = binary .sub l r ↔
      ∀ (base : Size) (m n : Int), Offset base m l → ¬Offset base n r := by
  constructor
  · intro hkept base m n hlm hrn
    have hb := hlm.integral hl
    have hliteral : ∃ k : Int, difference l r = literal (.int k) := by
      cases hlm with
      | none =>
          cases hrn with
          | none => exact ⟨0, difference_self hb⟩
          | some n => exact ⟨_, difference_base_offset hb n⟩
      | some m =>
          cases hrn with
          | none => exact ⟨_, difference_offset_base hb m⟩
          | some n => exact ⟨_, difference_offset_offset hb m n⟩
    obtain ⟨k, hk⟩ := hliteral
    rw [hk] at hkept
    cases hkept
  · intro hnone
    rcases difference_of_offsets hl hr with hkept | ⟨base, m, n, _, hlm, hrn, _⟩
    · exact hkept
    · exact absurd hrn (hnone base m n hlm)

/-- No difference takes a literal away: it is the sum with the negation, or less than that. -/
theorem sub_literal_ne (l : Size) (b : Number) : l.sub (literal b) ≠ binary .sub l (literal b) := by
  intro hkept
  unfold sub at hkept
  split at hkept
  · cases hkept
  · next b' _ _ =>
    rcases addLiteral_cases _ b'.neg with ⟨_, hnodes⟩ | ⟨_, hsum⟩
    · rw [hkept] at hnodes
      simp only [nodes] at hnodes
      omega
    · rw [hkept] at hsum
      cases hsum
  · next hleft _ => exact hleft b rfl

/-- A difference is kept exactly when no rule applies to it. -/
theorem sub_kept_iff [Unbounded] {l r : Size} (hl : l.Integral) (hr : r.Integral) :
    l.sub r = binary .sub l r ↔ ¬Applies .sub l r := by
  by_cases hright : ∃ b, r = literal b
  · obtain ⟨b, rfl⟩ := hright
    exact iff_of_false (sub_literal_ne l b) (not_not_intro (.subLiteral l b))
  · have hright : ∀ b, r ≠ literal b := fun b h => hright ⟨b, h⟩
    rw [sub_eq_difference hright, difference_kept_iff hl hr]
    constructor
    · intro hnone h
      cases h with
      | fold | subLiteral => exact hright _ rfl
      | subShared hlm hrn => exact hnone _ _ _ hlm hrn
      | move hop | merge hop => cases hop
      | boundEqual hop => simp at hop
    · exact fun hnone base m n hlm hrn => hnone (.subShared hlm hrn)

/-- A quotient is kept exactly when no rule applies to it. -/
theorem div_kept_iff (l r : Size) :
    l.div r = .ok (binary .div l r) ↔ ¬Applies .div l r := by
  have hrule : Applies .div l r ↔
      (∃ a b, l = literal a ∧ r = literal b) ∨ r = literal 0 ∨ r = literal 1 ∨ l = literal 0 := by
    constructor
    · intro h
      cases h with
      | fold _ a b => exact .inl ⟨a, b, rfl, rfl⟩
      | divZero => exact .inr (.inl rfl)
      | divOne => exact .inr (.inr (.inl rfl))
      | zeroDiv => exact .inr (.inr (.inr rfl))
      | move hop | merge hop => cases hop
      | boundEqual hop => simp at hop
    · rintro (⟨a, b, rfl, rfl⟩ | rfl | rfl | rfl)
      · exact .fold .div a b
      · exact .divZero l
      · exact .divOne l
      · exact .zeroDiv r
  rw [hrule]
  unfold div
  split
  · next a b =>
    refine iff_of_false (fun h => ?_) (not_not_intro (.inl ⟨a, b, rfl, rfl⟩))
    obtain ⟨_, h⟩ := ite_error_eq_ok.mp h
    cases h
  · next b hleft =>
    have hleft : ∀ a, ¬l = literal a := hleft
    by_cases hzero : b = 0
    · simp [hzero]
    by_cases hone : b = 1
    · simp [hone, ne_binary_left]
    · simp [hzero, hone, hleft]
  · next a hright =>
    have hright : ∀ b, ¬r = literal b := hright
    by_cases hzero : a = 0
    · simp [hzero]
    · simp [hzero, hright]
  · next hleft hright _ =>
    have hleft : ∀ a, ¬l = literal a := hleft
    have hright : ∀ b, ¬r = literal b := hright
    simp [hleft, hright]

/-- **An operation is kept exactly when no rule applies to it.** -/
theorem combine_kept_iff [Unbounded] {op : Operator} {l r : Size} (hl : l.Integral)
    (hr : r.Integral) : combine op l r = .ok (binary op l r) ↔ ¬Applies op l r := by
  have hcommuting : op.commutes = true →
      (combine op l r = .ok (binary op l r) ↔ ¬Applies op l r) := by
    intro hop
    by_cases hright : ∃ b, r = literal b
    · obtain ⟨b, rfl⟩ := hright
      exact combine_literal_kept_iff hop l b
    by_cases hleft : ∃ a, l = literal a
    · obtain ⟨a, rfl⟩ := hleft
      exact iff_of_false (literal_combine_ne hop a r) (not_not_intro (.move hop a r))
    · exact symbolic_combine_kept_iff hop hl hr (fun a h => hleft ⟨a, h⟩)
        fun b h => hright ⟨b, h⟩
  cases op with
  | sub => rw [combine, Except.ok.injEq, sub_kept_iff hl hr]
  | div => exact div_kept_iff l r
  | add | mul | min | max => exact hcommuting rfl

/-- **The normal forms are the irreducible terms.** -/
theorem normal_iff_irreducible [Unbounded] {s : Size} (hs : s.Integral) :
    s.Normal ↔ s.Irreducible := by
  induction s with
  | literal v => exact Iff.rfl
  | symbol name => exact Iff.rfl
  | binary op l r ihl ihr =>
      rw [Normal, Irreducible, ihl hs.1, ihr hs.2, combine_kept_iff hs.1 hs.2]

/-- Rebuilding a normal form changes nothing, as long as none of its symbols is bound. -/
theorem Normal.substitute_eq_self {bindings : Bindings} {s : Size} (hs : s.Normal)
    (hfree : ∀ name ∈ s.names, bindings.get? name = none) :
    s.substitute bindings = .ok s := by
  induction s with
  | literal v => rfl
  | symbol name => rw [substitute_symbol, hfree name (List.mem_singleton.mpr rfl)]
  | binary op l r ihl ihr =>
      obtain ⟨hleft, hright⟩ := List.forall_mem_append.mp hfree
      rw [substitute, ihl hs.1 hleft, ihr hs.2.1 hright]
      exact hs.2.2

end

end Size

/-! ## Sizes that can be made -/

namespace Recipe

/-- Every size that can be made is in normal form. -/
theorem size_normal [Arithmetic] {r : Recipe} {s : Size} (h : r.size = .ok s) : s.Normal := by
  induction r generalizing s with
  | number v =>
      have hnumber : Size.ofNumber v = .ok s := h
      rw [Size.ofNumber, ite_ok_eq_ok] at hnumber
      obtain ⟨_, rfl⟩ := hnumber
      trivial
  | symbol name =>
      rw [size_symbol, Size.ofSymbol, ite_error_eq_ok] at h
      obtain rfl := Except.ok.inj h.2
      trivial
  | binary op l r ihl ihr =>
      rw [size_binary] at h
      obtain ⟨x, hx, h⟩ := bind_eq_ok.mp h
      obtain ⟨y, hy, hc⟩ := bind_eq_ok.mp h
      exact Size.combine_normal (ihl hx) (ihr hy) hc
  | substitute inner bindings =>
      rw [size_substitute] at h
      obtain ⟨x, _, h⟩ := bind_eq_ok.mp h
      exact Size.substitute_normal h

/-- **Every size that can be made is irreducible.**  Rebuilding it succeeds and changes
nothing, and no rule applies to any operation in it, as long as all numbers that are folded
while it is made are safe integers. -/
theorem irreducible_of_size {r : Recipe} {s : Size} (hr : r.Integral)
    (hmade : Exact fun _ => r.size) (hs : r.size = .ok s) :
    (∃ t, s.substitute [] = .ok t ∧ t.same s = true) ∧ s.Irreducible := by
  have hunbounded : @size Arithmetic.unbounded r = .ok s := hmade.symm.trans hs
  have hintegral : s.Integral := @size_integral Arithmetic.unbounded _ r s hr hunbounded
  have hnormal : @Size.Normal Arithmetic.unbounded s :=
    @size_normal Arithmetic.unbounded r s hunbounded
  refine ⟨⟨s, (size_normal hs).substitute_eq_self fun _ _ => rfl, ?_⟩, ?_⟩
  · exact (Size.same_iff hintegral hintegral).mpr rfl
  · exact (@Size.normal_iff_irreducible Arithmetic.unbounded _ s hintegral).mp hnormal

/-- Binding `k` in `4 + k * x` moves both literals to the right; of `y - (x + 1)` no rule
makes anything else, and neither of the lesser of the two. -/
theorem irreducible_of_size_bound :
    let r := binary .min
      (substitute (binary .add (number 4) (binary .mul (symbol "k") (symbol "x"))) [("k", 6)])
      (binary .sub (symbol "y") (binary .add (symbol "x") (number 1)))
    let s := Size.binary .min
      (.binary .add (.binary .mul (.symbol "x") (.literal 6)) (.literal 4))
      (.binary .sub (.symbol "y") (.binary .add (.symbol "x") (.literal 1)))
    r.size = .ok s ∧ (∃ t, s.substitute [] = .ok t ∧ t.same s = true) ∧ s.Irreducible := by
  intro r s
  have hbinding : Bindings.Integral [("k", 6)] := Bindings.integral_of_entries fun entry hentry =>
    ⟨6, by rw [List.mem_singleton.mp hentry]; rfl⟩
  have hr : r.Integral :=
    ⟨⟨⟨trivial, trivial, trivial⟩, hbinding⟩, trivial, trivial, trivial⟩
  have hs : r.size = .ok s := rfl
  exact ⟨hs, irreducible_of_size hr (.of_eq _ rfl rfl) hs⟩

end Recipe

end ShapeGraph
