import ShapeGraph.Proofs.Size.NormalForm
import ShapeGraph.Proofs.Size.Recipe

/-!
# Binding in stages

Symbols become known bit by bit, and a size is rebuilt each time.  It makes no
difference: binding some of the symbols first and more of them later gives the
term that binding them all at once gives.  A rule that applies before, between
or after the stages always ends in the same normal form.

* `substitute_combine` — substitution commutes with putting two normal forms
  together;
* `substitute_substitute` — two substitutions in sequence are the one by both
  bindings;
* `Recipe.substitute_in_stages` — the same for every size that can be made.
-/

namespace ShapeGraph

open ShapeGraph.Numeric (Arithmetic Exact Number Unbounded)

/-! ## Bindings one after the other -/

/-- Two bindings one after the other; what the first one binds stays. -/
def Bindings.Joins (both first second : Bindings) : Prop :=
  ∀ name, both.get? name = (first.get? name).or (second.get? name)

namespace Bindings

/-- Entries listed one after the other bind one after the other. -/
theorem joins_append (first second : Bindings) : Joins (first ++ second) first second := by
  intro name
  induction first with
  | nil => rfl
  | cons entry rest ih =>
      rw [List.cons_append, Entries.get?, Entries.get?]
      by_cases hname : entry.1 = name
      · rw [if_pos hname, if_pos hname]
        rfl
      · rw [if_neg hname, if_neg hname]
        exact ih

/-- Bindings to integers one after the other are bindings to integers. -/
theorem Joins.integral {both first second : Bindings} (h : both.Joins first second)
    (hfirst : first.Integral) (hsecond : second.Integral) : both.Integral := by
  intro name v hv
  rw [h name] at hv
  rcases Option.or_eq_some_iff.mp hv with hv | ⟨_, hv⟩
  · exact hfirst name v hv
  · exact hsecond name v hv

end Bindings

namespace Size

variable [Arithmetic] [Unbounded] {bindings : Bindings}

/-- Bound to integers, a term of integers stays one. -/
theorem substitute_integral {s t : Size} (hs : s.Integral) (hb : bindings.Integral)
    (h : s.substitute bindings = .ok t) : t.Integral :=
  (substitute_value hs (hb.agrees_completed fun _ => 0) h).1

/-! ## Substitution and literals -/

omit [Unbounded] in
/-- A literal is left alone by substitution. -/
theorem substitute_literal {v : Number} {t : Size} :
    (literal v).substitute bindings = .ok t ↔ literal v = t := by
  rw [substitute, Except.ok.injEq]

/-- Adding a literal and substituting can change places, and so do their
faults. -/
theorem substitute_addLiteral {s : Size} (hs : s.Integral) (hb : bindings.Integral) (n : Int) :
    (s.addLiteral (.int n)).substitute bindings =
      (addLiteral · (.int n)) <$> s.substitute bindings := by
  have hzero : ∀ {t : Size}, t.Integral → t.substitute bindings =
      (addLiteral · (.int 0)) <$> t.substitute bindings := by
    intro t ht
    cases h : t.substitute bindings with
    | error fault => rfl
    | ok u => exact congrArg Except.ok (addLiteral_zero (substitute_integral ht hb h)).symm
  generalize hv : Number.int n = v
  fun_induction addLiteral s v generalizing n with
  | case1 a v => rfl
  | case2 base c =>
      obtain rfl := Number.int_eq_zero.mp hv
      exact hzero hs
  | case3 base c v hne ih =>
      obtain ⟨hbase, m, rfl⟩ := hs
      subst hv
      rw [Number.add_int_int] at ih ⊢
      rw [ih hbase (m + n) rfl, substitute]
      cases h : base.substitute bindings with
      | error fault => rfl
      | ok base' =>
          have hsum := addLiteral_addLiteral (substitute_integral hbase hb h)
            (substitute_normal h) m n
          exact congrArg Except.ok hsum.symm
  | case4 t =>
      obtain rfl := Number.int_eq_zero.mp hv
      exact hzero hs
  | case5 t v =>
      subst hv
      rw [substitute]
      cases t.substitute bindings <;> rfl

/-- Multiplying by a literal and substituting can change places. -/
theorem substitute_mulLiteral {s t : Size} (hs : s.Integral) (hb : bindings.Integral) (n : Int)
    (h : s.substitute bindings = .ok t) :
    (s.mulLiteral (.int n)).substitute bindings = .ok (t.mulLiteral (.int n)) := by
  have ht := substitute_integral hs hb h
  generalize hv : Number.int n = v
  fun_induction mulLiteral s v generalizing n t with
  | case1 a v =>
      obtain rfl := substitute_literal.mp h
      rfl
  | case2 base c =>
      rw [← hv, Number.int_eq_zero.mp hv, mulLiteral_zero ht]
      rfl
  | case3 base c =>
      rw [← hv, Number.int_eq_one.mp hv, mulLiteral_one ht]
      exact h
  | case4 base c v hzero hone ih =>
      obtain ⟨hbase, m, rfl⟩ := hs
      obtain ⟨base', factor, hsub, hliteral, hc⟩ := substitute_binary_ok h
      obtain rfl := substitute_literal.mp hliteral
      obtain rfl : base'.mulLiteral (.int m) = t := Except.ok.inj hc
      subst hv
      have hbase' := substitute_integral hbase hb hsub
      rw [Number.mul_int_int] at ih ⊢
      rw [ih hbase (m * n) hsub hbase' rfl, mulLiteral_mulLiteral hbase' (substitute_normal hsub)]
  | case5 t' =>
      rw [← hv, Number.int_eq_zero.mp hv, mulLiteral_zero ht]
      rfl
  | case6 t' =>
      rw [← hv, Number.int_eq_one.mp hv, mulLiteral_one ht]
      exact h
  | case7 t' v =>
      rw [substitute, h]
      rfl

/-- Bounding by a literal and substituting can change places. -/
theorem substitute_boundLiteral {op : Operator} (hop : op = .min ∨ op = .max) {s t : Size}
    (hs : s.Integral) (hb : bindings.Integral) (n : Int) (h : s.substitute bindings = .ok t) :
    (s.boundLiteral op (.int n)).substitute bindings = .ok (t.boundLiteral op (.int n)) := by
  generalize hv : Number.int n = v
  fun_induction boundLiteral op s v generalizing n t with
  | case1 a v =>
      obtain rfl := substitute_literal.mp h
      rfl
  | case2 base c v ih =>
      obtain ⟨hbase, m, rfl⟩ := hs
      obtain ⟨base', bound, hsub, hliteral, hc⟩ := substitute_binary_ok h
      obtain rfl := substitute_literal.mp hliteral
      rw [combine_bound hop] at hc
      obtain rfl : base'.boundLiteral op (.int m) = t := Except.ok.inj hc
      subst hv
      have hbase' := substitute_integral hbase hb hsub
      rw [apply_bound hop] at ih ⊢
      rw [ih hbase (op.onIntegers m n) hsub rfl, boundLiteral_boundLiteral hop hbase']
  | case3 inner base c v hne =>
      rw [substitute, h]
      exact combine_bound hop t (literal v)
  | case4 t' v =>
      rw [substitute, h]
      exact combine_bound hop t (literal v)

/-! ## Rules on what has become a literal -/

/-- A literal that is added from the left goes to the right. -/
theorem literal_add {r : Size} (hr : r.Integral) (n : Int) :
    (literal (.int n)).add r = r.addLiteral (.int n) := by
  cases r with
  | literal v =>
      obtain ⟨m, rfl⟩ := hr
      simp [add, addLiteral, Int.add_comm]
  | symbol name => rfl
  | binary op a b => rfl

/-- Taking a literal away is adding its negation. -/
theorem sub_literal {l : Size} (hl : l.Integral) (n : Int) :
    l.sub (literal (.int n)) = l.addLiteral (.int (-n)) := by
  cases l with
  | literal v =>
      obtain ⟨m, rfl⟩ := hl
      simp [sub, addLiteral, Int.sub_eq_add_neg]
  | symbol name => rfl
  | binary op a b => rfl

theorem literal_mul {r : Size} (hr : r.Integral) (n : Int) :
    (literal (.int n)).mul r = r.mulLiteral (.int n) := by
  cases r with
  | literal v =>
      obtain ⟨m, rfl⟩ := hr
      simp [mul, mulLiteral, Int.mul_comm]
  | symbol name => rfl
  | binary op a b => rfl

/-- Division by one leaves a term alone. -/
theorem div_one {l : Size} (hl : l.Integral) : l.div (literal (.int 1)) = .ok l := by
  have hone : Number.int 1 = 1 := rfl
  have hzero : Number.int 1 ≠ 0 := by simp
  cases l with
  | literal v =>
      obtain ⟨m, rfl⟩ := hl
      rw [div, if_neg hzero, Number.floorDiv_int (Unbounded.holds_all _), Int.fdiv_one]
  | symbol name => rw [div, if_neg hzero, if_pos hone]; simp
  | binary op a b => rw [div, if_neg hzero, if_pos hone]; simp

omit [Unbounded] in
/-- Division by the literal zero is refused. -/
theorem div_by_zero {l t : Size} (h : l.div (literal 0) = .ok t) : False := by
  cases l <;> simp [div] at h

/-- Zero divided by anything is zero, if it is accepted. -/
theorem zero_div {r t : Size} (hr : r.Integral) (h : zero.div r = .ok t) : t = zero := by
  cases r with
  | literal v =>
      obtain ⟨m, rfl⟩ := hr
      have hfold : zero.div (literal (.int m)) =
          if Number.int m = 0 then .error (.size (.literalByZero 0))
          else .ok (literal (Number.floorDiv (.int 0) (.int m))) := rfl
      rw [hfold, ite_error_eq_ok, Number.floorDiv_int (Unbounded.holds_all _), Int.zero_fdiv] at h
      exact (Except.ok.inj h.2).symm
  | symbol name => exact (Except.ok.inj h).symm
  | binary op a b => exact (Except.ok.inj h).symm

omit [Unbounded] in
/-- A literal bound from the left goes to the right. -/
theorem extremum_literal {op : Operator} (hop : op = .min ∨ op = .max) {r : Size}
    (hr : r.Integral) (n : Int) :
    extremum op (literal (.int n)) r = r.boundLiteral op (.int n) := by
  have hcomm : ∀ a b, op.onIntegers a b = op.onIntegers b a := by
    intro a b
    rcases hop with rfl | rfl <;> simp only [Operator.onIntegers] <;> omega
  cases r with
  | literal v =>
      obtain ⟨m, rfl⟩ := hr
      simp only [extremum, boundLiteral, apply_bound hop, hcomm n m]
  | symbol name => rfl
  | binary op a b => rfl

omit [Unbounded] in
/-- The lesser or the greater of a term and itself is the term. -/
theorem extremum_self {op : Operator} (hop : op = .min ∨ op = .max) {s : Size}
    (hs : s.Integral) : extremum op s s = s := by
  have hsame : s.same s = true := (same_iff hs hs).mpr rfl
  cases s with
  | literal v =>
      obtain ⟨m, rfl⟩ := hs
      have hself : op.onIntegers m m = m := by
        rcases hop with rfl | rfl <;> simp [Operator.onIntegers]
      rw [extremum, boundLiteral, apply_bound hop, hself]
  | symbol name => exact if_pos hsame
  | binary op a b => exact if_pos hsame

/-! ## Substitution and operations -/

/-- A sum and its substitution can change places. -/
theorem substitute_add {l r l' r' : Size} (hl : l.Integral) (hr : r.Integral)
    (hb : bindings.Integral) (hl' : l.substitute bindings = .ok l')
    (hr' : r.substitute bindings = .ok r') : (l.add r).substitute bindings = .ok (l'.add r') := by
  have hr'i := substitute_integral hr hb hr'
  generalize ht : l'.add r' = t
  unfold add
  split
  · obtain ⟨n, rfl⟩ := hr
    obtain rfl := substitute_literal.mp hr'
    rw [substitute_addLiteral hl hb, hl', ← ht]
    rfl
  · obtain ⟨n, rfl⟩ := hl
    obtain rfl := substitute_literal.mp hl'
    rw [substitute_addLiteral hr hb, hr', ← ht, literal_add hr'i]
    rfl
  · rw [substitute, hl', hr', ← ht]
    rfl

/-- A product and its substitution can change places. -/
theorem substitute_mul {l r l' r' : Size} (hl : l.Integral) (hr : r.Integral)
    (hb : bindings.Integral) (hl' : l.substitute bindings = .ok l')
    (hr' : r.substitute bindings = .ok r') : (l.mul r).substitute bindings = .ok (l'.mul r') := by
  have hr'i := substitute_integral hr hb hr'
  generalize ht : l'.mul r' = t
  unfold mul
  split
  · obtain ⟨n, rfl⟩ := hr
    obtain rfl := substitute_literal.mp hr'
    rw [← ht]
    exact substitute_mulLiteral hl hb n hl'
  · obtain ⟨n, rfl⟩ := hl
    obtain rfl := substitute_literal.mp hl'
    rw [← ht, literal_mul hr'i]
    exact substitute_mulLiteral hr hb n hr'
  · rw [substitute, hl', hr', ← ht]
    rfl

/-- **A difference of normal forms and its substitution can change places.**
What cancels are two offsets of one term, and substitution leaves them two
offsets of one term. -/
theorem substitute_difference {l r l' r' : Size} (hl : l.Integral) (hr : r.Integral)
    (hln : l.Normal) (hrn : r.Normal) (hb : bindings.Integral)
    (hl' : l.substitute bindings = .ok l') (hr' : r.substitute bindings = .ok r') :
    (difference l r).substitute bindings = .ok (l'.sub r') := by
  rcases difference_offsets hl hr hln hrn with hkept | ⟨base, m, n, hbase, rfl, rfl, hd⟩
  · rw [hkept, substitute, hl', hr']
    rfl
  · rw [substitute_addLiteral hbase hb, map_eq_ok] at hl' hr'
    obtain ⟨base', hsub, rfl⟩ := hl'
    obtain ⟨base'', hsub', rfl⟩ := hr'
    obtain rfl : base' = base'' := Except.ok.inj (hsub.symm.trans hsub')
    rw [hd, addLiteral_sub_addLiteral (substitute_integral hbase hb hsub) (substitute_normal hsub)]
    rfl

theorem substitute_sub {l r l' r' : Size} (hl : l.Integral) (hr : r.Integral)
    (hln : l.Normal) (hrn : r.Normal) (hb : bindings.Integral)
    (hl' : l.substitute bindings = .ok l') (hr' : r.substitute bindings = .ok r') :
    (l.sub r).substitute bindings = .ok (l'.sub r') := by
  have hl'i := substitute_integral hl hb hl'
  generalize ht : l'.sub r' = t
  unfold sub
  split
  · obtain rfl := substitute_literal.mp hl'
    obtain rfl := substitute_literal.mp hr'
    exact congrArg Except.ok ht
  · obtain ⟨n, rfl⟩ := hr
    obtain rfl := substitute_literal.mp hr'
    rw [Number.neg_int, substitute_addLiteral hl hb, hl', ← ht, sub_literal hl'i]
    rfl
  · rw [← ht]
    exact substitute_difference hl hr hln hrn hb hl' hr'

/-- A bound and its substitution can change places. -/
theorem substitute_extremum {op : Operator} (hop : op = .min ∨ op = .max) {l r l' r' : Size}
    (hl : l.Integral) (hr : r.Integral) (hb : bindings.Integral)
    (hl' : l.substitute bindings = .ok l') (hr' : r.substitute bindings = .ok r') :
    (extremum op l r).substitute bindings = .ok (extremum op l' r') := by
  have hl'i := substitute_integral hl hb hl'
  have hr'i := substitute_integral hr hb hr'
  generalize ht : extremum op l' r' = t
  unfold extremum
  split
  · obtain ⟨n, rfl⟩ := hr
    obtain rfl := substitute_literal.mp hr'
    rw [← ht]
    exact substitute_boundLiteral hop hl hb n hl'
  · obtain ⟨n, rfl⟩ := hl
    obtain rfl := substitute_literal.mp hl'
    rw [← ht, extremum_literal hop hr'i]
    exact substitute_boundLiteral hop hr hb n hr'
  · split
    · next h =>
      obtain rfl := (same_iff hl hr).mp h
      obtain rfl := Except.ok.inj (hl'.symm.trans hr')
      rw [hl', ← ht, extremum_self hop hl'i]
    · rw [substitute, hl', hr', ← ht]
      exact combine_bound hop l' r'

/-- A quotient and its substitution can change places. -/
theorem substitute_div {l r l' r' t : Size} (hl : l.Integral) (hr : r.Integral)
    (hb : bindings.Integral) (hl' : l.substitute bindings = .ok l')
    (hr' : r.substitute bindings = .ok r') (h : l'.div r' = .ok t) :
    ∃ s, l.div r = .ok s ∧ s.substitute bindings = .ok t := by
  have hkept : (binary .div l r).substitute bindings = .ok t := by
    rw [substitute, hl', hr']
    exact h
  have hl'i := substitute_integral hl hb hl'
  have hr'i := substitute_integral hr hb hr'
  unfold div
  split
  · obtain rfl := substitute_literal.mp hl'
    obtain rfl := substitute_literal.mp hr'
    rw [div, ite_error_eq_ok] at h
    exact ⟨_, if_neg h.1, h.2⟩
  · next b hliteral =>
    obtain rfl := substitute_literal.mp hr'
    obtain ⟨n, rfl⟩ := hr
    have hzero : Number.int n ≠ 0 := by
      intro hn
      rw [hn] at h
      exact div_by_zero h
    rw [if_neg hzero]
    by_cases hone : Number.int n = 1
    · rw [if_pos hone]
      rw [Number.int_eq_one.mp hone, div_one hl'i] at h
      exact ⟨l, rfl, hl'.trans h⟩
    · rw [if_neg hone]
      exact ⟨_, rfl, hkept⟩
  · next a _ =>
    obtain rfl := substitute_literal.mp hl'
    by_cases hzero : a = 0
    · subst hzero
      rw [if_pos rfl]
      rw [zero_div hr'i h]
      exact ⟨_, rfl, rfl⟩
    · rw [if_neg hzero]
      exact ⟨_, rfl, hkept⟩
  · exact ⟨_, rfl, hkept⟩

/-- **Substitution commutes with putting two normal forms together.**  If the
substituted operands can be put together then so can the operands, and
substituting what that gives ends in the same term. -/
theorem substitute_combine {op : Operator} {l r l' r' t : Size} (hl : l.Integral)
    (hr : r.Integral) (hln : l.Normal) (hrn : r.Normal) (hb : bindings.Integral)
    (hl' : l.substitute bindings = .ok l') (hr' : r.substitute bindings = .ok r')
    (h : combine op l' r' = .ok t) :
    ∃ s, combine op l r = .ok s ∧ s.substitute bindings = .ok t := by
  cases op with
  | add => exact ⟨l.add r, rfl, (substitute_add hl hr hb hl' hr').trans h⟩
  | sub => exact ⟨l.sub r, rfl, (substitute_sub hl hr hln hrn hb hl' hr').trans h⟩
  | mul => exact ⟨l.mul r, rfl, (substitute_mul hl hr hb hl' hr').trans h⟩
  | div => exact substitute_div hl hr hb hl' hr' h
  | min => exact ⟨l.min r, rfl, (substitute_extremum (.inl rfl) hl hr hb hl' hr').trans h⟩
  | max => exact ⟨l.max r, rfl, (substitute_extremum (.inr rfl) hl hr hb hl' hr').trans h⟩

/-- **Binding in stages.**  If the symbols can be bound all at once then they can
be bound in two stages, and that ends in the same term. -/
theorem substitute_substitute {both first second : Bindings} {s t : Size}
    (hjoins : both.Joins first second) (hfirst : first.Integral) (hsecond : second.Integral)
    (hs : s.Integral) (h : s.substitute both = .ok t) :
    ∃ u, s.substitute first = .ok u ∧ u.substitute second = .ok t := by
  induction s generalizing t with
  | literal v => exact ⟨literal v, rfl, h⟩
  | symbol name =>
      rw [substitute_symbol, hjoins name] at h
      rw [substitute_symbol]
      cases hv : first.get? name with
      | some v =>
          rw [hv] at h
          exact ⟨literal v, rfl, h⟩
      | none =>
          rw [hv, Option.none_or, ← substitute_symbol] at h
          exact ⟨symbol name, rfl, h⟩
  | binary op l r ihl ihr =>
      obtain ⟨l', r', hl, hr, hc⟩ := substitute_binary_ok h
      obtain ⟨lu, hlu, hlu'⟩ := ihl hs.1 hl
      obtain ⟨ru, hru, hru'⟩ := ihr hs.2 hr
      have hlui := substitute_integral hs.1 hfirst hlu
      have hrui := substitute_integral hs.2 hfirst hru
      obtain ⟨u, hu, hut⟩ := substitute_combine hlui hrui (substitute_normal hlu)
        (substitute_normal hru) hsecond hlu' hru' hc
      refine ⟨u, ?_, hut⟩
      rw [substitute, hlu, hru]
      exact hu

end Size

/-! ## Sizes that can be made -/

namespace Recipe

/-- Whatever is bound while the size is made is bound to an integer. -/
def Integral : Recipe → Prop
  | number _ => True
  | symbol _ => True
  | binary _ l r => l.Integral ∧ r.Integral
  | substitute inner bindings => inner.Integral ∧ bindings.Integral

/-- The size of a recipe that substitutes is that of the inner one after the substitution. -/
theorem size_substitute [Arithmetic] (inner : Recipe) (bindings : Bindings) :
    (substitute inner bindings).size = (do
      let x ← inner.size
      x.substitute bindings) := by
  unfold size
  rw [build]
  rcases inner.build with e | q
  · rfl
  rcases hq : q.toSize with e | x
  · simp only [bind, Except.bind, hq]
  simp only [bind, Except.bind, hq]
  cases x.substitute bindings <;> rfl

/-- A size that is made out of integers holds nothing else. -/
theorem size_integral [Arithmetic] [Unbounded] {r : Recipe} {s : Size} (hr : r.Integral)
    (h : r.size = .ok s) : s.Integral := by
  induction r generalizing s with
  | number v =>
      have hnumber : Size.ofNumber v = .ok s := h
      rw [Size.ofNumber, ite_ok_eq_ok] at hnumber
      obtain ⟨hv, rfl⟩ := hnumber
      exact Number.eq_int_of_isSafe hv
  | symbol name =>
      rw [size_symbol, Size.ofSymbol, ite_error_eq_ok] at h
      obtain rfl := Except.ok.inj h.2
      trivial
  | binary op l r ihl ihr =>
      rw [size_binary] at h
      obtain ⟨x, hx, h⟩ := bind_eq_ok.mp h
      obtain ⟨y, hy, hc⟩ := bind_eq_ok.mp h
      exact ((ihl hr.1 hx).means.combine (ihr hr.2 hy).means hc).integral
  | substitute inner bindings ih =>
      rw [size_substitute] at h
      obtain ⟨x, hx, h⟩ := bind_eq_ok.mp h
      exact Size.substitute_integral (ih hr.1 hx) hr.2 h

/-- Nothing that is rounded stands between the stages and binding at once. -/
theorem stages_of_unbounded [Arithmetic] [Unbounded] {r : Recipe}
    {both first second : Bindings} {s t : Size} (hr : r.Integral)
    (hjoins : both.Joins first second) (hfirst : first.Integral) (hsecond : second.Integral)
    (hs : r.size = .ok s) (ht : s.substitute both = .ok t) :
    t.Integral ∧ (do
      let u ← s.substitute first
      u.substitute second) = .ok t := by
  have hsi := size_integral hr hs
  obtain ⟨u, hu, hut⟩ := Size.substitute_substitute hjoins hfirst hsecond hsi ht
  have hui := Size.substitute_integral hsi hfirst hu
  exact ⟨Size.substitute_integral hui hsecond hut, bind_eq_ok.mpr ⟨u, hu, hut⟩⟩

/-- **Binding in stages comes to the same.**  Whatever size has been made, if its
symbols can be bound by two bindings at once then they can be bound by one after
the other, and that gives the same term, as long as all numbers that are folded
are safe integers. -/
theorem substitute_in_stages {r : Recipe} {both first second : Bindings} {s t : Size}
    (hr : r.Integral) (hjoins : both.Joins first second) (hfirst : first.Integral)
    (hsecond : second.Integral) (hmade : Exact fun _ => r.size)
    (hwhole : Exact fun _ => s.substitute both)
    (hstages : Exact fun _ => do
      let u ← s.substitute first
      u.substitute second)
    (hs : r.size = .ok s) (ht : s.substitute both = .ok t) :
    ∃ u v, s.substitute first = .ok u ∧ u.substitute second = .ok v ∧ v.same t = true := by
  obtain ⟨hti, hunbounded⟩ :=
    @stages_of_unbounded Arithmetic.unbounded _ r both first second s t hr hjoins hfirst hsecond
      (hmade.symm.trans hs) (hwhole.symm.trans ht)
  obtain ⟨u, hu, hut⟩ := bind_eq_ok.mp (hstages.trans hunbounded)
  exact ⟨u, t, hu, hut, (Size.same_iff hti hti).mpr rfl⟩

/-- The difference of `k + n` and `n + 2` cancels between the stages, where `k`
is known and `n` is not yet. -/
theorem substitute_in_stages_cancelled :
    let r := binary .sub (binary .add (symbol "k") (symbol "n"))
      (substitute (binary .add (symbol "n") (symbol "m")) [("m", 2)])
    ∃ s u v, r.size = .ok s ∧ s.substitute [("k", 5)] = .ok u ∧
      u.substitute [("n", 7), ("k", 9)] = .ok v ∧ v.same (.literal 3) = true := by
  intro r
  have hjoins : Bindings.Joins [("n", 7), ("k", 5)] [("k", 5)] [("n", 7), ("k", 9)] := by
    intro name
    by_cases hk : "k" = name
    · subst hk
      rfl
    · simp [Entries.get?, hk]
  have hone : ∀ {name : String} {n : Int}, Bindings.Integral [(name, .int n)] := fun {_ n} =>
    Bindings.integral_of_entries fun entry hentry =>
      ⟨n, by rw [List.mem_singleton.mp hentry]⟩
  have htwo : Bindings.Integral [("n", 7), ("k", 9)] := by
    refine Bindings.integral_of_entries fun entry hentry => ?_
    rcases List.mem_pair.mp hentry with rfl | rfl
    · exact ⟨7, rfl⟩
    · exact ⟨9, rfl⟩
  obtain ⟨u, v, hu, hv, hsame⟩ :=
    substitute_in_stages (r := r) ⟨⟨trivial, trivial⟩, ⟨trivial, trivial⟩, hone⟩ hjoins hone htwo
      (.of_eq _ rfl rfl) (.of_eq _ rfl rfl) (.of_eq _ rfl rfl) rfl rfl
  exact ⟨_, u, v, rfl, hu, hv, hsame⟩

end Recipe

end ShapeGraph
