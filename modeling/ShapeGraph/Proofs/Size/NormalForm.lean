import ShapeGraph.Proofs.Outcome
import ShapeGraph.Proofs.Size.Substitution

/-!
# Normal forms of sizes

A term is in normal form if putting the operands of each of its operations
together gives that operation back.  Whatever is put together from normal forms
is one again, so substitution always ends in one, and on normal forms the rules
for literals behave like the arithmetic they stand for: offsets, factors and
bounds taken in one after the other are those taken in at once.

* `combine_normal`, `substitute_normal` — what is put together is in normal
  form;
* `addLiteral_addLiteral`, `mulLiteral_mulLiteral`, `boundLiteral_boundLiteral`
  — literals taken in one after the other;
* `addLiteral_sub_addLiteral` — two offsets of one term differ by a literal.
-/

namespace ShapeGraph.Size

open ShapeGraph.Numeric (Arithmetic Number Unbounded)

section

variable [Arithmetic]

/-- Putting the operands of any operation in the term together gives that
operation back. -/
def Normal : Size → Prop
  | literal _ => True
  | symbol _ => True
  | binary op l r => l.Normal ∧ r.Normal ∧ combine op l r = .ok (binary op l r)

/-! ## Taking in a literal -/

/-- Adding a literal to an offset adds it to the offset. -/
theorem addLiteral_offset (base : Size) (c v : Number) :
    (binary .add base (literal c)).addLiteral v =
      if v = 0 then binary .add base (literal c) else base.addLiteral (c.add v) := by
  rw [addLiteral]

/-- A literal is added as it is to a term without an offset, unless it is zero. -/
theorem addLiteral_kept {s : Size} {v : Number} (hliteral : ∀ a, s ≠ literal a)
    (hoffset : ∀ base c, s ≠ binary .add base (literal c)) (hzero : v ≠ 0) :
    s.addLiteral v = binary .add s (literal v) := by
  rw [addLiteral, if_neg hzero]
  · exact hliteral
  · exact hoffset

/-- Multiplying a multiple by a literal multiplies the factor. -/
theorem mulLiteral_factor (base : Size) (c v : Number) :
    (binary .mul base (literal c)).mulLiteral v =
      if v = 0 then zero
      else if v = 1 then binary .mul base (literal c) else base.mulLiteral (c.mul v) := by
  rw [mulLiteral]

/-- A literal multiplies a term without a factor as it is, unless it is zero or one. -/
theorem mulLiteral_kept {s : Size} {v : Number} (hliteral : ∀ a, s ≠ literal a)
    (hfactor : ∀ base c, s ≠ binary .mul base (literal c)) (hzero : v ≠ 0) (hone : v ≠ 1) :
    s.mulLiteral v = binary .mul s (literal v) := by
  rw [mulLiteral, if_neg hzero, if_neg hone]
  · exact hliteral
  · exact hfactor

/-- Bounding a term twice by literals bounds it once. -/
theorem boundLiteral_bound (op : Operator) (base : Size) (c v : Number) :
    (binary op base (literal c)).boundLiteral op v = base.boundLiteral op (op.apply c v) := by
  rw [boundLiteral, if_pos rfl]

/-! ## What is put together -/

/-- A term in normal form to which a literal is added is in normal form. -/
theorem addLiteral_normal {s : Size} (hs : s.Normal) (v : Number) : (s.addLiteral v).Normal := by
  fun_induction addLiteral s v with
  | case1 v a => trivial
  | case2 base c => exact hs
  | case3 v base c hzero ih => exact ih hs.1
  | case4 t => exact hs
  | case5 t v hliteral hoffset hzero =>
      exact ⟨hs, trivial, by rw [combine, add, addLiteral_kept hliteral hoffset hzero]⟩

theorem mulLiteral_normal {s : Size} (hs : s.Normal) (v : Number) : (s.mulLiteral v).Normal := by
  fun_induction mulLiteral s v with
  | case1 v a => trivial
  | case2 base c => trivial
  | case3 base c => exact hs
  | case4 v base c hzero hone ih => exact ih hs.1
  | case5 t => trivial
  | case6 t => exact hs
  | case7 t v hliteral hfactor hzero hone =>
      exact ⟨hs, trivial, by rw [combine, mul, mulLiteral_kept hliteral hfactor hzero hone]⟩

/-- The lesser or the greater of two terms can always be made. -/
theorem combine_bound {op : Operator} (hop : op = .min ∨ op = .max) (l r : Size) :
    combine op l r = .ok (extremum op l r) := by
  rcases hop with rfl | rfl <;> rfl

theorem boundLiteral_normal {op : Operator} (hop : op = .min ∨ op = .max) {s : Size}
    (hs : s.Normal) (v : Number) : (s.boundLiteral op v).Normal := by
  fun_induction boundLiteral op s v with
  | case1 v a => trivial
  | case2 v base c ih => exact ih hs.1
  | case3 v inner base c hne =>
      refine ⟨hs, trivial, ?_⟩
      rw [combine_bound hop, extremum, boundLiteral, if_neg hne]
  | case4 t v hliteral hbound =>
      have hkept : t.boundLiteral op v = binary op t (literal v) := by
        rw [boundLiteral]
        · exact hliteral
        · exact hbound
      refine ⟨hs, trivial, ?_⟩
      rw [combine_bound hop, extremum, hkept]

/-- A difference is a literal or stays as it is. -/
theorem difference_cases (l r : Size) :
    (∃ v, difference l r = literal v) ∨ difference l r = binary .sub l r := by
  unfold difference
  split
  · exact .inl ⟨_, rfl⟩
  · split <;> repeat' split
    all_goals first | exact .inl ⟨_, rfl⟩ | exact .inr rfl

/-- A difference has cancelled, or it is an offset of its left side, or it stays as it is. -/
theorem sub_cases (l r : Size) :
    (∃ v, l.sub r = literal v) ∨ (∃ v, r = literal v ∧ l.sub r = l.addLiteral v.neg) ∨
      l.sub r = binary .sub l r := by
  unfold sub
  split
  · exact .inl ⟨_, rfl⟩
  · exact .inr (.inl ⟨_, rfl, rfl⟩)
  · rcases difference_cases l r with hcancelled | hkept
    · exact .inl hcancelled
    · exact .inr (.inr hkept)

/-- A division gives a literal, its dividend, or stays as it is. -/
theorem div_cases {l r t : Size} (h : l.div r = .ok t) :
    (∃ v, t = literal v) ∨ t = l ∨ t = binary .div l r := by
  unfold div at h
  split at h
  · obtain ⟨_, h⟩ := ite_error_eq_ok.mp h
    exact .inl ⟨_, (Except.ok.inj h).symm⟩
  · obtain ⟨_, h⟩ := ite_error_eq_ok.mp h
    split at h
    · exact .inr (.inl (Except.ok.inj h).symm)
    · exact .inr (.inr (Except.ok.inj h).symm)
  · split at h
    · exact .inr (.inl (Except.ok.inj h).symm)
    · exact .inr (.inr (Except.ok.inj h).symm)
  · exact .inr (.inr (Except.ok.inj h).symm)

/-- **What is put together from normal forms is one.**  Where no rule applies
the operation is kept, and that it is kept is what normal form asks for. -/
theorem combine_normal {op : Operator} {l r t : Size} (hl : l.Normal) (hr : r.Normal)
    (h : combine op l r = .ok t) : t.Normal := by
  have hkept : t = binary op l r → t.Normal := fun ht => by
    subst ht
    exact ⟨hl, hr, h⟩
  cases op with
  | add =>
      have ht : l.add r = t := Except.ok.inj h
      unfold add at ht
      split at ht
      · exact ht ▸ addLiteral_normal hl _
      · exact ht ▸ addLiteral_normal hr _
      · exact hkept ht.symm
  | sub =>
      have ht : l.sub r = t := Except.ok.inj h
      rcases sub_cases l r with ⟨v, hv⟩ | ⟨v, _, hoffset⟩ | hd
      · obtain rfl : t = literal v := ht.symm.trans hv
        trivial
      · obtain rfl : t = l.addLiteral v.neg := ht.symm.trans hoffset
        exact addLiteral_normal hl _
      · exact hkept (ht.symm.trans hd)
  | mul =>
      have ht : l.mul r = t := Except.ok.inj h
      unfold mul at ht
      split at ht
      · exact ht ▸ mulLiteral_normal hl _
      · exact ht ▸ mulLiteral_normal hr _
      · exact hkept ht.symm
  | div =>
      rcases div_cases h with ⟨v, rfl⟩ | rfl | ht
      · trivial
      · exact hl
      · exact hkept ht
  | min | max =>
      rw [combine_bound (by simp)] at h
      have ht := Except.ok.inj h
      unfold extremum at ht
      split at ht
      · exact ht ▸ boundLiteral_normal (by simp) hl _
      · exact ht ▸ boundLiteral_normal (by simp) hr _
      · split at ht
        · exact ht ▸ hl
        · exact hkept ht.symm

/-- **Substitution ends in a normal form**, whatever it starts from. -/
theorem substitute_normal {bindings : Bindings} {s t : Size}
    (h : s.substitute bindings = .ok t) : t.Normal := by
  induction s generalizing t with
  | literal v =>
      obtain rfl : literal v = t := Except.ok.inj h
      trivial
  | symbol name =>
      rw [substitute_symbol] at h
      cases hv : bindings.get? name with
      | none =>
          obtain rfl : symbol name = t := by simpa [hv] using h
          trivial
      | some v =>
          obtain rfl : literal v = t := by simpa [hv] using h
          trivial
  | binary op l r ihl ihr =>
      obtain ⟨l', r', hl, hr, hc⟩ := substitute_binary_ok h
      exact combine_normal (ihl hl) (ihr hr) hc

/-- A term in normal form that ends in an offset is its base with that offset
added. -/
theorem Normal.addLiteral_eq {base : Size} {c : Number}
    (h : (binary .add base (literal c)).Normal) :
    base.addLiteral c = binary .add base (literal c) := by
  have hkept := Except.ok.inj h.2.2
  rwa [add] at hkept

/-- A term in normal form that ends in a factor is its base with that factor
multiplied. -/
theorem Normal.mulLiteral_eq {base : Size} {c : Number}
    (h : (binary .mul base (literal c)).Normal) :
    base.mulLiteral c = binary .mul base (literal c) := by
  have hkept := Except.ok.inj h.2.2
  rwa [mul] at hkept

end

/-! ## Literals taken in one after the other -/

section

variable [Arithmetic] [Unbounded]

/-- Zero added to a term of integers leaves it alone. -/
theorem addLiteral_zero {s : Size} (hs : s.Integral) : s.addLiteral (.int 0) = s := by
  have hzero : Number.int 0 = 0 := rfl
  unfold addLiteral
  split
  · obtain ⟨n, rfl⟩ := hs
    simp
  · rw [if_pos hzero]
  · rw [if_pos hzero]

/-- A term times zero is zero. -/
theorem mulLiteral_zero {s : Size} (hs : s.Integral) : s.mulLiteral (.int 0) = zero := by
  have hzero : Number.int 0 = 0 := rfl
  unfold mulLiteral
  split
  · obtain ⟨n, rfl⟩ := hs
    rw [Number.mul_int_int, Int.mul_zero]
    rfl
  · rw [if_pos hzero]
  · rw [if_pos hzero]

theorem zero_mulLiteral (n : Int) : zero.mulLiteral (.int n) = zero :=
  show literal (Number.mul (.int 0) (.int n)) = zero by
    rw [Number.mul_int_int, Int.zero_mul]
    rfl

/-- A term of integers times one is the term. -/
theorem mulLiteral_one {s : Size} (hs : s.Integral) : s.mulLiteral (.int 1) = s := by
  have hone : Number.int 1 = 1 := rfl
  have hzero : Number.int 1 ≠ 0 := by simp
  unfold mulLiteral
  split
  · obtain ⟨n, rfl⟩ := hs
    simp
  · rw [if_neg hzero, if_pos hone]
  · rw [if_neg hzero, if_pos hone]

/-- Two offsets added one after the other are their sum added at once.  That the
sum may vanish is why the term has to be in normal form. -/
theorem addLiteral_addLiteral {s : Size} (hs : s.Integral) (hn : s.Normal) (m n : Int) :
    (s.addLiteral (.int m)).addLiteral (.int n) = s.addLiteral (.int (m + n)) := by
  generalize hv : Number.int m = v
  fun_induction addLiteral s v generalizing m with
  | case1 v a =>
      obtain ⟨k, rfl⟩ := hs
      subst hv
      simp [addLiteral, Int.add_assoc]
  | case2 base c => rw [Number.int_eq_zero.mp hv, Int.zero_add]
  | case3 v base c hzero ih =>
      obtain ⟨hb, k, rfl⟩ := hs
      subst hv
      rw [Number.add_int_int] at ih ⊢
      rw [ih hb hn.1 (k + m) rfl, Int.add_assoc, addLiteral_offset]
      by_cases hsum : m + n = 0
      · rw [if_pos (Number.int_eq_zero.mpr hsum), hsum, Int.add_zero, hn.addLiteral_eq]
      · rw [if_neg (mt Number.int_eq_zero.mp hsum), Number.add_int_int]
  | case4 t => rw [Number.int_eq_zero.mp hv, Int.zero_add]
  | case5 t v hliteral hoffset hzero =>
      subst hv
      rw [addLiteral_offset, Number.add_int_int]
      by_cases hsecond : n = 0
      · rw [if_pos (Number.int_eq_zero.mpr hsecond), hsecond, Int.add_zero,
          addLiteral_kept hliteral hoffset hzero]
      · rw [if_neg (mt Number.int_eq_zero.mp hsecond)]

/-- Two factors multiplied one after the other are their product multiplied at
once. -/
theorem mulLiteral_mulLiteral {s : Size} (hs : s.Integral) (hn : s.Normal) (m n : Int) :
    (s.mulLiteral (.int m)).mulLiteral (.int n) = s.mulLiteral (.int (m * n)) := by
  generalize hv : Number.int m = v
  fun_induction mulLiteral s v generalizing m with
  | case1 v a =>
      obtain ⟨k, rfl⟩ := hs
      subst hv
      simp [mulLiteral, Int.mul_assoc]
  | case2 base c =>
      rw [Number.int_eq_zero.mp hv, Int.zero_mul, mulLiteral_zero hs, zero_mulLiteral]
  | case3 base c => rw [Number.int_eq_one.mp hv, Int.one_mul]
  | case4 v base c hzero hone ih =>
      obtain ⟨hb, k, rfl⟩ := hs
      subst hv
      rw [Number.mul_int_int] at ih ⊢
      rw [ih hb hn.1 (k * m) rfl, Int.mul_assoc, mulLiteral_factor]
      by_cases hnone : m * n = 0
      · rw [if_pos (Number.int_eq_zero.mpr hnone), hnone, Int.mul_zero, mulLiteral_zero hb]
      · rw [if_neg (mt Number.int_eq_zero.mp hnone)]
        by_cases hunit : m * n = 1
        · rw [if_pos (Number.int_eq_one.mpr hunit), hunit, Int.mul_one, hn.mulLiteral_eq]
        · rw [if_neg (mt Number.int_eq_one.mp hunit), Number.mul_int_int]
  | case5 t =>
      rw [Number.int_eq_zero.mp hv, Int.zero_mul, mulLiteral_zero hs, zero_mulLiteral]
  | case6 t => rw [Number.int_eq_one.mp hv, Int.one_mul]
  | case7 t v hliteral hfactor hzero hone =>
      subst hv
      rw [mulLiteral_factor, Number.mul_int_int]
      by_cases hnone : n = 0
      · rw [if_pos (Number.int_eq_zero.mpr hnone), hnone, Int.mul_zero, mulLiteral_zero hs]
      · rw [if_neg (mt Number.int_eq_zero.mp hnone)]
        by_cases hunit : n = 1
        · rw [if_pos (Number.int_eq_one.mpr hunit), hunit, Int.mul_one,
            mulLiteral_kept hliteral hfactor hzero hone]
        · rw [if_neg (mt Number.int_eq_one.mp hunit)]

omit [Unbounded] in
/-- Two bounds of one kind taken in one after the other are the tighter one taken
in at once. -/
theorem boundLiteral_boundLiteral {op : Operator} (hop : op = .min ∨ op = .max) {s : Size}
    (hs : s.Integral) (m n : Int) :
    (s.boundLiteral op (.int m)).boundLiteral op (.int n) =
      s.boundLiteral op (.int (op.onIntegers m n)) := by
  have hassoc : ∀ a b c, op.onIntegers (op.onIntegers a b) c =
      op.onIntegers a (op.onIntegers b c) := by
    intro a b c
    rcases hop with rfl | rfl <;> simp only [Operator.onIntegers] <;> omega
  generalize hv : Number.int m = v
  fun_induction boundLiteral op s v generalizing m with
  | case1 v a =>
      obtain ⟨k, rfl⟩ := hs
      subst hv
      simp only [boundLiteral, apply_bound hop, hassoc]
  | case2 v base c ih =>
      obtain ⟨hb, k, rfl⟩ := hs
      subst hv
      rw [apply_bound hop] at ih ⊢
      rw [ih hb (op.onIntegers k m) rfl, hassoc, boundLiteral_bound, apply_bound hop]
  | case3 v inner base c hne =>
      subst hv
      rw [boundLiteral_bound, apply_bound hop]
  | case4 t v =>
      subst hv
      rw [boundLiteral_bound, apply_bound hop]

end

/-! ## Differences of offsets -/

/-- A term is not one of its own sides. -/
theorem ne_binary_left (op : Operator) (s r : Size) : s ≠ binary op s r := by
  intro h
  have hsize := congrArg sizeOf h
  simp only [binary.sizeOf_spec] at hsize
  omega

section

variable [Arithmetic]

/-- A difference whose right side is no literal is what `difference` leaves of
it. -/
theorem sub_eq_difference {l r : Size} (hr : ∀ b, r ≠ literal b) : l.sub r = difference l r := by
  rw [sub]
  · exact hr
  · exact fun _ b _ => hr b

/-- A term less itself is zero. -/
theorem difference_self {s : Size} (hs : s.Integral) : difference s s = zero := by
  rw [difference, if_pos ((same_iff hs hs).mpr rfl)]

/-- A term with an offset less the term is the offset. -/
theorem difference_offset_base {base : Size} (hb : base.Integral) (m : Int) :
    difference (binary .add base (literal (.int m))) base = literal (.int m) := by
  have hl : (binary .add base (literal (.int m))).Integral := ⟨hb, m, rfl⟩
  have hne : ¬ (binary .add base (literal (.int m))).same base = true := fun h =>
    ne_binary_left _ _ _ ((same_iff hl hb).mp h).symm
  have hsame : base.same base = true := (same_iff hb hb).mpr rfl
  rw [difference, if_neg hne]
  cases base.offset? <;> simp [offset?, hsame, Number.renewed]

/-- A term less the same one with an offset is the negated offset. -/
theorem difference_base_offset {base : Size} (hb : base.Integral) (n : Int) :
    difference base (binary .add base (literal (.int n))) = literal (.int (-n)) := by
  have hr : (binary .add base (literal (.int n))).Integral := ⟨hb, n, rfl⟩
  have hne : ¬ base.same (binary .add base (literal (.int n))) = true := fun h =>
    ne_binary_left _ _ _ ((same_iff hb hr).mp h)
  have hsame : base.same base = true := (same_iff hb hb).mpr rfl
  rw [difference, if_neg hne]
  cases ho : base.offset? with
  | none => simp [offset?, hsame]
  | some ends =>
      obtain ⟨inner, c⟩ := ends
      obtain ⟨hi, m, rfl, hbase, _⟩ := hb.offset ho
      have hsize : sizeOf inner < sizeOf base := by
        rw [hbase, binary.sizeOf_spec]
        omega
      have hinner : inner.same base = false := by
        rw [Bool.eq_false_iff]
        intro h
        have hequal := congrArg sizeOf ((same_iff hi hb).mp h)
        omega
      have hwhole : inner.same (binary .add base (literal (.int n))) = false := by
        rw [Bool.eq_false_iff]
        intro h
        have hequal := congrArg sizeOf ((same_iff hi hr).mp h)
        rw [binary.sizeOf_spec] at hequal
        omega
      simp [offset?, hsame, hinner, hwhole]

variable [Unbounded]

/-- A term with an offset less the same one with another offset is the difference of the
offsets. -/
theorem difference_offset_offset {base : Size} (hb : base.Integral) (m n : Int) :
    difference (binary .add base (literal (.int m))) (binary .add base (literal (.int n))) =
      literal (.int (m - n)) := by
  have hl : (binary .add base (literal (.int m))).Integral := ⟨hb, m, rfl⟩
  have hr : (binary .add base (literal (.int n))).Integral := ⟨hb, n, rfl⟩
  have hsame : base.same base = true := (same_iff hb hb).mpr rfl
  have hne : base.same (binary .add base (literal (.int n))) = false := by
    rw [Bool.eq_false_iff]
    exact fun h => ne_binary_left _ _ _ ((same_iff hb hr).mp h)
  by_cases hmn : m = n
  · subst hmn
    rw [difference_self hl, Int.sub_self]
    rfl
  · have hdistinct : ¬ (binary .add base (literal (.int m))).same
        (binary .add base (literal (.int n))) = true := by
      intro h
      simp_all [same_iff hl hr]
    rw [difference, if_neg hdistinct]
    simp [offset?, hsame, hne]

/-- Two offsets of a term that ends in none differ by a literal. -/
theorem sub_of_kept {s : Size} (hs : s.Integral) (hliteral : ∀ a, s ≠ literal a)
    (hoffset : ∀ base c, s ≠ binary .add base (literal c)) (m n : Int) :
    (s.addLiteral (.int m)).sub (s.addLiteral (.int n)) = literal (.int (m - n)) := by
  have hkept : ∀ k : Int, k ≠ 0 → s.addLiteral (.int k) = binary .add s (literal (.int k)) :=
    fun k hk => addLiteral_kept hliteral hoffset (mt Number.int_eq_zero.mp hk)
  have hsum : ∀ k : Int, ∀ b, binary .add s (literal (.int k)) ≠ literal b := fun _ _ h => by
    cases h
  by_cases hm : m = 0
  · subst hm
    rw [addLiteral_zero hs]
    by_cases hn : n = 0
    · subst hn
      rw [addLiteral_zero hs, sub_eq_difference hliteral, difference_self hs]
      rfl
    · rw [hkept n hn, sub_eq_difference (hsum n), difference_base_offset hs, Int.zero_sub]
  · rw [hkept m hm]
    by_cases hn : n = 0
    · subst hn
      rw [addLiteral_zero hs, sub_eq_difference hliteral, difference_offset_base hs, Int.sub_zero]
    · rw [hkept n hn, sub_eq_difference (hsum n), difference_offset_offset hs]

/-- **Two offsets of one term differ by a literal**, whatever that term ends
in. -/
theorem addLiteral_sub_addLiteral {s : Size} (hs : s.Integral) (hn : s.Normal) (m n : Int) :
    (s.addLiteral (.int m)).sub (s.addLiteral (.int n)) = literal (.int (m - n)) := by
  induction s generalizing m n with
  | literal v =>
      obtain ⟨k, rfl⟩ := hs
      simp only [addLiteral, sub, Number.add_int_int, Number.sub_int_int]
      congr 2
      omega
  | symbol name =>
      exact sub_of_kept hs (fun _ h => by cases h) (fun _ _ h => by cases h) m n
  | binary op l r ihl _ =>
      by_cases hoffset : op = .add ∧ ∃ c, r = literal c
      · obtain ⟨rfl, c, rfl⟩ := hoffset
        obtain ⟨hl, k, rfl⟩ := hs
        rw [← hn.addLiteral_eq, addLiteral_addLiteral hl hn.1, addLiteral_addLiteral hl hn.1,
          ihl hl hn.1]
        congr 2
        omega
      · refine sub_of_kept hs (fun _ h => by cases h) (fun base c h => hoffset ?_) m n
        cases h
        exact ⟨rfl, c, rfl⟩

/-- A term that is a base, or its base with an offset added. -/
inductive Offset (base : Size) : Int → Size → Prop
  | none : Offset base 0 base
  | some (m : Int) : Offset base m (binary .add base (literal (.int m)))

/-- An offset in normal form is what adding it to the base comes to. -/
theorem Offset.eq_addLiteral {base s : Size} {m : Int} (h : Offset base m s)
    (hb : base.Integral) (hs : s.Normal) : s = base.addLiteral (.int m) := by
  cases h with
  | none => exact (addLiteral_zero hb).symm
  | some m => exact hs.addLiteral_eq.symm

/-- **What a difference is.**  It stays as it is, or both sides are offsets of one base, and
it is the literal by which these differ. -/
theorem difference_of_offsets {l r : Size} (hl : l.Integral) (hr : r.Integral) :
    difference l r = binary .sub l r ∨
      ∃ (base : Size) (m n : Int), base.Integral ∧ Offset base m l ∧ Offset base n r ∧
        difference l r = literal (.int (m - n)) := by
  have hoffset : ∀ {s base : Size} {c : Number}, s.Integral → s.offset? = some (base, c) →
      ∃ m : Int, base.Integral ∧ c = .int m ∧ Offset base m s := by
    intro s base c hs ho
    obtain ⟨hb, m, rfl, rfl, _⟩ := hs.offset ho
    exact ⟨m, hb, rfl, .some m⟩
  unfold difference
  split
  · next h =>
    obtain rfl := (same_iff hl hr).mp h
    exact .inr ⟨l, 0, 0, hl, .none, .none, rfl⟩
  · split
    · next base c base' c' ho ho' =>
      obtain ⟨m, hb, rfl, hlm⟩ := hoffset hl ho
      obtain ⟨n, hb', rfl, hrn⟩ := hoffset hr ho'
      split
      · next h =>
        obtain rfl := (same_iff hb hr).mp h
        exact .inr ⟨base, m, 0, hb, hlm, .none, by simp [Number.renewed]⟩
      · split
        · next h =>
          obtain rfl := (same_iff hb hb').mp h
          exact .inr ⟨base, m, n, hb, hlm, hrn, by simp⟩
        · split
          · next h =>
            obtain rfl := (same_iff hl hb').mp h
            exact .inr ⟨l, 0, n, hl, .none, hrn, by simp⟩
          · exact .inl rfl
    · next base c ho _ =>
      obtain ⟨m, hb, rfl, hlm⟩ := hoffset hl ho
      split
      · next h =>
        obtain rfl := (same_iff hb hr).mp h
        exact .inr ⟨base, m, 0, hb, hlm, .none, by simp [Number.renewed]⟩
      · exact .inl rfl
    · next base' c' _ ho' =>
      obtain ⟨n, hb', rfl, hrn⟩ := hoffset hr ho'
      split
      · next h =>
        obtain rfl := (same_iff hl hb').mp h
        exact .inr ⟨l, 0, n, hl, .none, hrn, by simp⟩
      · exact .inl rfl
    · exact .inl rfl

/-- A difference of normal forms is that of two sums with one base, unless it stays as it
is. -/
theorem difference_offsets {l r : Size} (hl : l.Integral) (hr : r.Integral) (hln : l.Normal)
    (hrn : r.Normal) : difference l r = binary .sub l r ∨
      ∃ (base : Size) (m n : Int), base.Integral ∧ l = base.addLiteral (.int m) ∧
        r = base.addLiteral (.int n) ∧ difference l r = literal (.int (m - n)) := by
  rcases difference_of_offsets hl hr with hkept | ⟨base, m, n, hb, hlm, hrn', hd⟩
  · exact .inl hkept
  · exact .inr ⟨base, m, n, hb, hlm.eq_addLiteral hb hln, hrn'.eq_addLiteral hb hrn, hd⟩

end

end ShapeGraph.Size
