import ShapeGraph.Proofs.Size.Confluence
import ShapeGraph.Proofs.Size.Stage

/-!
# What becomes of the parts of a size

A product may lose a factor, and a difference both of its sides, but a sum keeps all of its
parts, and so does a bound.  So a sum or a bound can be rebuilt just if its parts can, and
it evaluates just if they do.  A difference that cancels is a literal from the start, and it
stays the same literal whatever is bound later.

* `substitute_add_iff`, `substitute_min_iff` — what a sum and a bound become under a
  binding;
* `evaluate_add_iff`, `evaluate_min_iff` — they evaluate just if both parts do, to the sum
  and the lesser of what these evaluate to;
* `substitute_sub_literal` — a difference that is a literal stays that literal;
* `evaluate_sub`, `evaluate_mul` — a difference and a product evaluate if both parts do.
-/

namespace ShapeGraph.Size

open ShapeGraph.Numeric (Arithmetic Number Unbounded)

variable [Arithmetic] {bindings : Bindings} {l r s t : Size} {v : Number}

/-! ## Literals put together -/

/-- Only a literal becomes a literal when a literal is added to it. -/
theorem literal_of_addLiteral {w : Number} (hs : s.Normal) (h : s.addLiteral v = literal w) :
    ∃ a, s = literal a := by
  fun_induction addLiteral s v with
  | case1 a v => exact ⟨a, rfl⟩
  | case2 base c => cases h
  | case3 base c v hzero ih =>
      -- the base cannot be a literal, for then it would have taken in its offset
      obtain ⟨a, rfl⟩ := ih hs.1 h
      cases hs.addLiteral_eq
  | case4 t => exact ⟨w, h⟩
  | case5 t v => cases h

/-- A sum in normal form is a literal only if both of its parts are. -/
theorem literals_of_add {w : Number} (hl : l.Normal) (hr : r.Normal) (h : l.add r = literal w) :
    ∃ a b, l = literal a ∧ r = literal b := by
  unfold add at h
  split at h
  · obtain ⟨a, rfl⟩ := literal_of_addLiteral hl h
    exact ⟨a, _, rfl, rfl⟩
  · obtain ⟨b, rfl⟩ := literal_of_addLiteral hr h
    exact ⟨_, b, rfl, rfl⟩
  · cases h

/-- Only a literal becomes a literal when it is bounded by a literal. -/
theorem literal_of_boundLiteral {op : Operator} (hop : op = .min ∨ op = .max) {w : Number}
    (hs : s.Normal) (h : s.boundLiteral op v = literal w) : ∃ a, s = literal a := by
  fun_induction boundLiteral op s v with
  | case1 a v => exact ⟨a, rfl⟩
  | case2 base c v ih =>
      obtain ⟨a, rfl⟩ := ih hs.1 h
      have hkept := hs.2.2
      rw [combine_bound hop] at hkept
      cases Except.ok.inj hkept
  | case3 inner base c v hne => cases h
  | case4 t v => cases h

/-- The lesser of two normal forms is a literal only if both of them are. -/
theorem literals_of_min {w : Number} (hl : l.Normal) (hr : r.Normal) (h : l.min r = literal w) :
    ∃ a b, l = literal a ∧ r = literal b := by
  unfold min extremum at h
  split at h
  · obtain ⟨a, rfl⟩ := literal_of_boundLiteral (.inl rfl) hl h
    exact ⟨a, _, rfl, rfl⟩
  · obtain ⟨b, rfl⟩ := literal_of_boundLiteral (.inl rfl) hr h
    exact ⟨_, b, rfl, rfl⟩
  · next hleft _ =>
    split at h
    · exact absurd h (hleft w)
    · cases h

variable [Unbounded]

/-! ## Sums -/

/-- **A sum becomes the sum of what its parts become**, and nothing if one of them becomes
nothing. -/
theorem substitute_add_iff (hl : l.Integral) (hr : r.Integral) (hb : bindings.Integral) :
    (l.add r).substitute bindings = .ok t ↔
      ∃ l' r', l.substitute bindings = .ok l' ∧ r.substitute bindings = .ok r' ∧
        l'.add r' = t := by
  constructor
  · intro h
    have hparts : ∃ l' r', l.substitute bindings = .ok l' ∧ r.substitute bindings = .ok r' := by
      unfold add at h
      split at h
      · obtain ⟨n, rfl⟩ := hr
        rw [substitute_addLiteral hl hb, map_eq_ok] at h
        obtain ⟨l', hl', _⟩ := h
        exact ⟨l', _, hl', rfl⟩
      · obtain ⟨n, rfl⟩ := hl
        rw [substitute_addLiteral hr hb, map_eq_ok] at h
        obtain ⟨r', hr', _⟩ := h
        exact ⟨_, r', rfl, hr'⟩
      · obtain ⟨l', r', hl', hr', _⟩ := substitute_binary_ok h
        exact ⟨l', r', hl', hr'⟩
    obtain ⟨l', r', hl', hr'⟩ := hparts
    have hsum := substitute_add hl hr hb hl' hr'
    exact ⟨l', r', hl', hr', Except.ok.inj (hsum.symm.trans h)⟩
  · rintro ⟨l', r', hl', hr', rfl⟩
    exact substitute_add hl hr hb hl' hr'

/-- **A sum evaluates** just if both parts do, to the sum of what they evaluate to. -/
theorem evaluate_add_iff (hl : l.Integral) (hr : r.Integral) (hb : bindings.Integral) :
    (l.add r).evaluate bindings = .ok v ↔
      ∃ m n : Int, l.evaluate bindings = .ok (.int m) ∧ r.evaluate bindings = .ok (.int n) ∧
        v = .int (m + n) := by
  simp only [evaluate_eq_ok, substitute_add_iff hl hr hb]
  constructor
  · rintro ⟨l', r', hl', hr', hsum⟩
    obtain ⟨a, b, rfl, rfl⟩ :=
      literals_of_add (substitute_normal hl') (substitute_normal hr') hsum
    obtain ⟨m, rfl⟩ := substitute_integral hl hb hl'
    obtain ⟨n, rfl⟩ := substitute_integral hr hb hr'
    rw [add_int] at hsum
    exact ⟨m, n, hl', hr', (Size.literal.inj hsum).symm⟩
  · rintro ⟨m, n, hl', hr', rfl⟩
    exact ⟨_, _, hl', hr', add_int m n⟩

/-! ## Bounds -/

omit [Unbounded] in
/-- A bound by a literal becomes nothing if what is bounded does. -/
theorem substitute_of_boundLiteral {op : Operator} (hop : op = .min ∨ op = .max)
    (h : (s.boundLiteral op v).substitute bindings = .ok t) :
    ∃ s', s.substitute bindings = .ok s' := by
  fun_induction boundLiteral op s v generalizing t with
  | case1 a v => exact ⟨literal a, rfl⟩
  | case2 base c v ih =>
      obtain ⟨base', hbase⟩ := ih h
      refine ⟨extremum op base' (literal c), ?_⟩
      rw [substitute, hbase, ← combine_bound hop]
      rfl
  | case3 inner base c v hne =>
      obtain ⟨s', _, hs', _⟩ := substitute_binary_ok h
      exact ⟨s', hs'⟩
  | case4 u v =>
      obtain ⟨s', _, hs', _⟩ := substitute_binary_ok h
      exact ⟨s', hs'⟩

/-- **The lesser of two sizes becomes the lesser of what they become**, and nothing if one of
them becomes nothing. -/
theorem substitute_min_iff (hl : l.Integral) (hr : r.Integral) (hb : bindings.Integral) :
    (l.min r).substitute bindings = .ok t ↔
      ∃ l' r', l.substitute bindings = .ok l' ∧ r.substitute bindings = .ok r' ∧
        l'.min r' = t := by
  have hop : Operator.min = .min ∨ Operator.min = .max := .inl rfl
  constructor
  · intro h
    have hparts : ∃ l' r', l.substitute bindings = .ok l' ∧ r.substitute bindings = .ok r' := by
      unfold min extremum at h
      split at h
      · obtain ⟨l', hl'⟩ := substitute_of_boundLiteral hop h
        exact ⟨l', _, hl', rfl⟩
      · obtain ⟨r', hr'⟩ := substitute_of_boundLiteral hop h
        exact ⟨_, r', rfl, hr'⟩
      · split at h
        · next hsame =>
          obtain rfl := (same_iff hl hr).mp hsame
          exact ⟨t, t, h, h⟩
        · obtain ⟨l', r', hl', hr', _⟩ := substitute_binary_ok h
          exact ⟨l', r', hl', hr'⟩
    obtain ⟨l', r', hl', hr'⟩ := hparts
    have hlesser := substitute_extremum hop hl hr hb hl' hr'
    exact ⟨l', r', hl', hr', Except.ok.inj (hlesser.symm.trans h)⟩
  · rintro ⟨l', r', hl', hr', rfl⟩
    exact substitute_extremum hop hl hr hb hl' hr'

/-- **The lesser of two sizes evaluates** just if both do, to the lesser of what they evaluate
to. -/
theorem evaluate_min_iff (hl : l.Integral) (hr : r.Integral) (hb : bindings.Integral) :
    (l.min r).evaluate bindings = .ok v ↔
      ∃ m n : Int, l.evaluate bindings = .ok (.int m) ∧ r.evaluate bindings = .ok (.int n) ∧
        v = .int (Min.min m n) := by
  simp only [evaluate_eq_ok, substitute_min_iff hl hr hb]
  constructor
  · rintro ⟨l', r', hl', hr', hlesser⟩
    obtain ⟨a, b, rfl, rfl⟩ := literals_of_min (substitute_normal hl') (substitute_normal hr')
      hlesser
    obtain ⟨m, rfl⟩ := substitute_integral hl hb hl'
    obtain ⟨n, rfl⟩ := substitute_integral hr hb hr'
    rw [min_int] at hlesser
    exact ⟨m, n, hl', hr', (Size.literal.inj hlesser).symm⟩
  · rintro ⟨m, n, hl', hr', rfl⟩
    exact ⟨_, _, hl', hr', min_int m n⟩

/-! ## Differences -/

/-- An offset of a base becomes that offset of what the base becomes. -/
theorem Offset.substitute_eq {base : Size} {m : Int} (h : Offset base m s) (hbase : base.Integral)
    (hb : bindings.Integral) :
    s.substitute bindings = (base.addLiteral (.int m)).substitute bindings := by
  cases h with
  | none => rw [addLiteral_zero hbase]
  | some m =>
      rw [substitute_addLiteral hbase hb, substitute]
      cases base.substitute bindings <;> rfl

/-- **A difference that is a literal stays that literal.**  What has cancelled cancels again,
whatever it becomes. -/
theorem substitute_sub_literal {l' r' : Size} (hl : l.Integral) (hr : r.Integral)
    (hb : bindings.Integral) (hl' : l.substitute bindings = .ok l')
    (hr' : r.substitute bindings = .ok r') (h : l.sub r = literal v) :
    l'.sub r' = literal v := by
  have hl'i := substitute_integral hl hb hl'
  unfold sub at h
  split at h
  · obtain rfl := substitute_literal.mp hl'
    obtain rfl := substitute_literal.mp hr'
    exact h
  · obtain ⟨n, rfl⟩ := hr
    obtain rfl := substitute_literal.mp hr'
    rw [Number.neg_int] at h
    have hsum := substitute_addLiteral hl hb (-n)
    rw [h, hl'] at hsum
    rw [sub_literal hl'i]
    exact (Except.ok.inj hsum).symm
  · rcases difference_of_offsets hl hr with hkept | ⟨base, m, n, hbase, hlm, hrn, hd⟩
    · cases hkept.symm.trans h
    · rw [hlm.substitute_eq hbase hb, substitute_addLiteral hbase hb, map_eq_ok] at hl'
      rw [hrn.substitute_eq hbase hb, substitute_addLiteral hbase hb, map_eq_ok] at hr'
      obtain ⟨base', hbase', rfl⟩ := hl'
      obtain ⟨base'', hbase'', rfl⟩ := hr'
      obtain rfl : base' = base'' := Except.ok.inj (hbase'.symm.trans hbase'')
      rw [addLiteral_sub_addLiteral (substitute_integral hbase hb hbase')
        (substitute_normal hbase'), ← hd]
      exact h

/-- **A difference evaluates** if both of its sides do, to the difference of what they evaluate
to.  Not the other way round: sides that cancel need not evaluate. -/
theorem evaluate_sub (hl : l.Integral) (hr : r.Integral) (hb : bindings.Integral) {m n : Int}
    (hm : l.evaluate bindings = .ok (.int m)) (hn : r.evaluate bindings = .ok (.int n)) :
    (l.sub r).evaluate bindings = .ok (.int (m - n)) := by
  rw [evaluate_eq_ok] at hm hn ⊢
  rcases sub_cases l r with ⟨v, hv⟩ | ⟨v, rfl, hoffset⟩ | hkept
  · have hcancels := substitute_sub_literal hl hr hb hm hn hv
    rw [sub_int] at hcancels
    rw [hv, substitute, hcancels]
  · obtain rfl : v = .int n := Size.literal.inj (substitute_literal.mp hn)
    rw [hoffset, Number.neg_int, substitute_addLiteral hl hb, hm, Int.sub_eq_add_neg,
      ← Number.add_int_int]
    rfl
  · rw [hkept, substitute, hm, hn, ← sub_int]
    rfl

/-! ## Products -/

/-- **A product evaluates** if both of its factors do, to the product of what they evaluate to. -/
theorem evaluate_mul (hl : l.Integral) (hr : r.Integral) (hb : bindings.Integral) {m n : Int}
    (hm : l.evaluate bindings = .ok (.int m)) (hn : r.evaluate bindings = .ok (.int n)) :
    (l.mul r).evaluate bindings = .ok (.int (m * n)) := by
  rw [evaluate_eq_ok] at hm hn ⊢
  rw [substitute_mul hl hr hb hm hn, mul_int]

end ShapeGraph.Size
