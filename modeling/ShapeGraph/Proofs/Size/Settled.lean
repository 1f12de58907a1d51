import ShapeGraph.Proofs.Size.Stage

/-!
# Settled sizes

Some symbols of a size may be bound, and others not yet.  The size is settled once nothing
but a literal can come of it, be it because all of its symbols are bound, be it because
those that are not are multiplied by zero.  A settled size stays settled, and so is what
is computed from settled sizes.  Its evaluation can fail only where it divides by zero.

* `Size.Settled` — nothing but a literal comes of a size;
* `Settled.later`, `settled_of_evaluate` — whatever is bound later, it stays so;
* `Settled.sub`, `Settled.product` — lengths and numbers of elements are settled if
  bounds and lengths are;
* `Settled.evaluate_ne_unresolved` — no symbol is found to be missing.
-/

namespace ShapeGraph.Size

open ShapeGraph.Numeric (Arithmetic Number Unbounded)

variable [Arithmetic] {bindings lower upper : Bindings} {s t l r : Size} {name : String}

/-- If the size can be rebuilt at all then it comes to a literal. -/
def Settled (bindings : Bindings) (s : Size) : Prop :=
  ∀ t, s.substitute bindings = .ok t → ∃ v, t = literal v

theorem settled_literal (v : Number) : (literal v).Settled bindings :=
  fun _ h => ⟨v, (substitute_literal.mp h).symm⟩

/-- A symbol is settled if it is bound. -/
theorem settled_symbol : (symbol name).Settled bindings ↔ bindings.Bound name := by
  unfold Settled Bindings.Bound
  rw [substitute_symbol]
  cases bindings.get? name with
  | none => simp
  | some v => simp

/-- An operation on settled sizes is settled. -/
theorem Settled.binary (op : Operator) (hl : l.Settled bindings) (hr : r.Settled bindings) :
    (binary op l r).Settled bindings := by
  intro t h
  obtain ⟨l', r', hl', hr', hc⟩ := substitute_binary_ok h
  obtain ⟨a, rfl⟩ := hl l' hl'
  obtain ⟨b, rfl⟩ := hr r' hr'
  have hzero : op = .div → b ≠ 0 := by
    rintro rfl rfl
    have hdiv : (literal a).div (literal 0) = .ok t := hc
    exact div_by_zero hdiv
  rw [combine_literals hzero] at hc
  exact ⟨_, (Except.ok.inj hc).symm⟩

/-! ## Faults -/

/-- Two sizes cannot be put together only if one divides the other and is zero. -/
theorem combine_ne_unresolved {op : Operator} (u : Size) (names : List String) :
    combine op l r ≠ .error (.size (.unresolved u names)) := by
  intro h
  cases op with
  | div =>
      have hdiv : l.div r = .error (.size (.unresolved u names)) := h
      by_cases hzero : r = literal 0
      · subst hzero
        cases l <;> simp [div] at hdiv
      · obtain ⟨t, ht⟩ := div_ok hzero
        rw [ht] at hdiv
        cases hdiv
  | add | sub | mul | min | max => cases h

/-- Rebuilding a size finds no symbol missing. -/
theorem substitute_ne_unresolved (u : Size) (names : List String) :
    s.substitute bindings ≠ .error (.size (.unresolved u names)) := by
  induction s with
  | literal v => simp [substitute]
  | symbol name => simp [substitute_symbol]
  | binary op l r ihl ihr =>
      rw [substitute]
      cases hl : l.substitute bindings with
      | error fault => exact fun h => ihl (hl.trans h)
      | ok l' =>
          cases hr : r.substitute bindings with
          | error fault => exact fun h => ihr (hr.trans h)
          | ok r' => exact combine_ne_unresolved u names

/-- **A settled size has no symbol missing** when it is evaluated. -/
theorem Settled.evaluate_ne_unresolved (h : s.Settled bindings) (u : Size)
    (names : List String) : s.evaluate bindings ≠ .error (.size (.unresolved u names)) := by
  unfold evaluate
  cases ht : s.substitute bindings with
  | error fault =>
      rintro ⟨rfl⟩
      exact substitute_ne_unresolved u names ht
  | ok t =>
      obtain ⟨v, rfl⟩ := h t ht
      simp [bind, Except.bind, value?]

/-! ## Products by a literal -/

/-- A product by a literal can be rebuilt though its factor cannot only if the literal is
zero. -/
theorem mulLiteral_of_error {fault : Fault} {v : Number} (h : s.substitute bindings = .error fault)
    (ht : (s.mulLiteral v).substitute bindings = .ok t) : t = zero := by
  fun_induction mulLiteral s v generalizing fault with
  | case1 a v => cases h
  | case2 base c => exact (substitute_literal.mp ht).symm
  | case3 base c => cases h.symm.trans ht
  | case4 base c v hzero hone ih =>
      cases hbase : base.substitute bindings with
      | error fault' => exact ih hbase ht
      | ok base' =>
          rw [substitute, hbase] at h
          cases h
  | case5 u => exact (substitute_literal.mp ht).symm
  | case6 u => cases h.symm.trans ht
  | case7 u v =>
      obtain ⟨u', _, hu, _⟩ := substitute_binary_ok ht
      cases h.symm.trans hu

variable [Unbounded]

/-! ## Stages -/

/-- A size is settled once what has come of it so far is. -/
theorem Settled.of_substitute (hs : s.Integral) (hupper : upper.Integral)
    (hbelow : lower.Below upper) (h : s.substitute lower = .ok t) (ht : t.Settled upper) :
    s.Settled upper := by
  intro u hu
  exact ht u (substitute_later hs hupper hbelow h hu)

/-- A size stays settled while more is bound. -/
theorem Settled.later (hs : s.Integral) (hupper : upper.Integral) (hbelow : lower.Below upper)
    (h : s.Settled lower) : s.Settled upper := by
  intro u hu
  obtain ⟨t, ht, hstage⟩ :=
    substitute_substitute hbelow.joins (hbelow.integral hupper) hupper hs hu
  obtain ⟨v, rfl⟩ := h t ht
  exact ⟨v, (substitute_literal.mp hstage).symm⟩

/-- What has come to a number is settled from then on. -/
theorem settled_of_evaluate {v : Number} (hs : s.Integral) (hupper : upper.Integral)
    (hbelow : lower.Below upper) (h : s.evaluate lower = .ok v) : s.Settled upper :=
  .of_substitute hs hupper hbelow (evaluate_eq_ok.mp h) (settled_literal v)

/-! ## Sizes computed from others -/

/-- A settled size stays so when an integer is added. -/
theorem Settled.addLiteral (hs : s.Integral) (hb : bindings.Integral) (h : s.Settled bindings)
    (n : Int) : (s.addLiteral (.int n)).Settled bindings := by
  intro t ht
  rw [substitute_addLiteral hs hb, map_eq_ok] at ht
  obtain ⟨u, hu, rfl⟩ := ht
  obtain ⟨v, rfl⟩ := h u hu
  exact ⟨_, rfl⟩

/-- A difference of settled sizes is settled. -/
theorem Settled.sub (hl : l.Integral) (hr : r.Integral) (hb : bindings.Integral)
    (hl' : l.Settled bindings) (hr' : r.Settled bindings) : (l.sub r).Settled bindings := by
  rcases sub_cases l r with ⟨v, hv⟩ | ⟨v, rfl, hoffset⟩ | hkept
  · rw [hv]
    exact settled_literal v
  · obtain ⟨n, rfl⟩ := hr
    rw [hoffset, Number.neg_int]
    exact hl'.addLiteral hl hb (-n)
  · rw [hkept]
    exact hl'.binary .sub hr'

/-- A settled size stays so when it is multiplied by an integer. -/
theorem Settled.mulLiteral (hs : s.Integral) (hb : bindings.Integral) (h : s.Settled bindings)
    (n : Int) : (s.mulLiteral (.int n)).Settled bindings := by
  intro t ht
  cases hu : s.substitute bindings with
  | error fault => exact ⟨0, mulLiteral_of_error hu ht⟩
  | ok u =>
      obtain ⟨v, rfl⟩ := h u hu
      rw [substitute_mulLiteral hs hb n hu] at ht
      exact ⟨_, (Except.ok.inj ht).symm⟩

/-- Products of settled sizes are settled. -/
theorem Settled.mul (hl : l.Integral) (hr : r.Integral) (hb : bindings.Integral)
    (hl' : l.Settled bindings) (hr' : r.Settled bindings) : (l.mul r).Settled bindings := by
  unfold Size.mul
  split
  · obtain ⟨n, rfl⟩ := hr
    exact hl'.mulLiteral hl hb n
  · obtain ⟨n, rfl⟩ := hl
    exact hr'.mulLiteral hr hb n
  · exact hl'.binary .mul hr'

/-- A product of settled sizes is settled. -/
theorem Settled.product {sizes : List Size} (hsizes : ∀ s ∈ sizes, s.Integral)
    (hb : bindings.Integral) (h : ∀ s ∈ sizes, s.Settled bindings) :
    (Size.product sizes).Settled bindings := by
  have hfold : ∀ first : Size, first.Integral → first.Settled bindings →
      (sizes.foldl Size.mul first).Settled bindings := by
    induction sizes with
    | nil => exact fun _ _ hfirst => hfirst
    | cons size rest ih =>
        obtain ⟨hsize, hrest⟩ := List.forall_mem_cons.mp hsizes
        obtain ⟨hthis, hothers⟩ := List.forall_mem_cons.mp h
        intro first hfirst hsettled
        have hproduct := (mul_means hfirst.means hsize.means).integral
        exact ih hrest hothers _ hproduct (hsettled.mul hfirst hsize hb hthis)
  exact hfold one means_one.integral (settled_literal 1)

end ShapeGraph.Size
