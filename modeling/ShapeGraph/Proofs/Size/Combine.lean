import ShapeGraph.Proofs.Size.Meaning

/-!
# Putting terms together keeps their meaning

Literals fold, move to the right, merge with the literals they meet there and
cancel with those of the other side.  Whichever of these rules apply, the
result has the value of the operation, as long as the integers that are folded
are held as they are.

* `Fits` — whatever an operation on two terms folds is held;
* `combine_means` — the result of an operation that fits has its value;
* `combine_defined` — it asks for no new symbol, and divides by nothing that it
  was not told to divide by;
* `add_means`, `sub_means`, `min_means`, `product_means` — integers of any size
  always fit.
-/

namespace ShapeGraph.Size

open ShapeGraph.Numeric (Arithmetic Number Unbounded)

/-! ## What is folded -/

section

variable [Arithmetic]

/-- The sums formed when a literal is added to a term are held. -/
def AddFits : Size → Int → Prop
  | literal a, n => Arithmetic.holds (a.toInt + n)
  | binary .add base (literal c), n =>
    n ≠ 0 → Arithmetic.holds (c.toInt + n) ∧ base.AddFits (c.toInt + n)
  | _, _ => True

/-- The products formed when a term is multiplied by a literal are held. -/
def MulFits : Size → Int → Prop
  | literal a, n => Arithmetic.holds (a.toInt * n)
  | binary .mul base (literal c), n =>
    n ≠ 0 → n ≠ 1 → Arithmetic.holds (c.toInt * n) ∧ base.MulFits (c.toInt * n)
  | _, _ => True

/-- The difference of the offsets of two terms with one base is held. -/
def OffsetsFit (l r : Size) : Prop :=
  ∀ base c c', l = binary .add base (literal c) → r = binary .add base (literal c') →
    Arithmetic.holds (c.toInt - c'.toInt)

/-- Whatever an operation on two terms folds is held. -/
def Fits : Operator → Size → Size → Prop
  | .add, l, literal b => l.AddFits b.toInt
  | .add, literal a, r => r.AddFits a.toInt
  | .sub, literal a, literal b => Arithmetic.holds (a.toInt - b.toInt)
  | .sub, l, literal b => l.AddFits (-b.toInt)
  | .sub, l, r => OffsetsFit l r
  | .mul, l, literal b => l.MulFits b.toInt
  | .mul, literal a, r => r.MulFits a.toInt
  | .div, literal a, literal b => b.toInt ≠ 0 → Arithmetic.holds (a.toInt.fdiv b.toInt)
  | _, _, _ => True

/-- Any sum with a literal is held where nothing is rounded. -/
theorem AddFits.of_unbounded [Unbounded] (s : Size) (n : Int) : s.AddFits n := by
  fun_induction AddFits s n with
  | case1 n a => exact Unbounded.holds_all _
  | case2 n base c ih => exact fun _ => ⟨Unbounded.holds_all _, ih⟩
  | case3 => trivial

theorem MulFits.of_unbounded [Unbounded] (s : Size) (n : Int) : s.MulFits n := by
  fun_induction MulFits s n with
  | case1 n a => exact Unbounded.holds_all _
  | case2 n base c ih => exact fun _ _ => ⟨Unbounded.holds_all _, ih⟩
  | case3 => trivial

/-- Integers of any size are held whatever is folded. -/
theorem Fits.of_unbounded [Unbounded] (op : Operator) (l r : Size) : Fits op l r := by
  unfold Fits
  split
  · exact .of_unbounded _ _
  · exact .of_unbounded _ _
  · exact Unbounded.holds_all _
  · exact .of_unbounded _ _
  · exact fun _ _ _ _ _ => Unbounded.holds_all _
  · exact .of_unbounded _ _
  · exact .of_unbounded _ _
  · exact fun _ => Unbounded.holds_all _
  · trivial

/-! ## Sums -/

/-- A literal is added through all the offsets already there. -/
theorem addLiteral_means {s : Size} (hs : s.Integral) {n : Int} (hfit : s.AddFits n) :
    (s.addLiteral (.int n)).Means fun ρ => s.value ρ + n := by
  generalize hv : Number.int n = v
  fun_induction addLiteral s v generalizing n with
  | case1 v a =>
      obtain ⟨m, rfl⟩ := hs
      subst hv
      have hheld : Arithmetic.holds (m + n) = true := hfit
      rw [Number.add_int hheld]
      exact means_int (m + n)
  | case2 base c =>
      exact hs.means.congr fun ρ => by simp [Number.int_eq_zero.mp hv]
  | case3 v base c hzero ih =>
      obtain ⟨hb, m, rfl⟩ := hs
      subst hv
      obtain ⟨hheld, hrest⟩ := hfit (mt Number.int_eq_zero.mpr hzero)
      rw [Number.toInt_int] at hheld hrest
      rw [Number.add_int hheld] at ih ⊢
      refine (ih hb hrest rfl).congr fun ρ => ?_
      simp [value, Operator.onIntegers, Int.add_assoc]
  | case4 t =>
      exact hs.means.congr fun ρ => by simp [Number.int_eq_zero.mp hv]
  | case5 t v =>
      subst hv
      exact hs.means.binary (means_int n)

/-- The sum of two terms of integers is one, whose value is the sum, if what is folded is held.
-/
theorem add_value {l r : Size} (hl : l.Integral) (hr : r.Integral) (hfit : Fits .add l r) :
    (l.add r).Means fun ρ => l.value ρ + r.value ρ := by
  unfold add
  split
  · obtain ⟨n, rfl⟩ := hr
    exact addLiteral_means hl hfit
  · obtain ⟨n, rfl⟩ := hl
    refine (addLiteral_means hr ?_).congr fun ρ => Int.add_comm _ _
    simpa [Fits] using hfit
  · exact hl.means.binary hr.means

/-! ## Differences -/

/-- What is left of a difference has the value of the difference: wherever a
base is cancelled, both sides are that base with offsets. -/
theorem difference_means {l r : Size} (hl : l.Integral) (hr : r.Integral)
    (hfit : OffsetsFit l r) : (difference l r).Means fun ρ => l.value ρ - r.value ρ := by
  have hsub : (Size.binary .sub l r).Means fun ρ => l.value ρ - r.value ρ :=
    hl.means.binary hr.means
  unfold difference
  split
  · next h =>
    obtain rfl := (same_iff hl hr).mp h
    exact means_zero.congr fun ρ => by omega
  · split
    · next base c base' c' ho ho' =>
      obtain ⟨hb, m, rfl, hlt, hlv⟩ := hl.offset ho
      obtain ⟨hb', m', rfl, hrt, hrv⟩ := hr.offset ho'
      split
      · next h =>
        obtain rfl := (same_iff hb hr).mp h
        exact (means_int m).congr fun ρ => by rw [hlv]; omega
      · split
        · next h =>
          obtain rfl := (same_iff hb hb').mp h
          have hheld : Arithmetic.holds (m - m') = true := hfit base _ _ hlt hrt
          rw [Number.sub_int hheld]
          exact (means_int (m - m')).congr fun ρ => by rw [hlv, hrv]; omega
        · split
          · next h =>
            obtain rfl := (same_iff hl hb').mp h
            exact (means_int (-m')).congr fun ρ => by rw [hrv]; omega
          · exact hsub
    · next base c ho _ =>
      obtain ⟨hb, m, rfl, _, hlv⟩ := hl.offset ho
      split
      · next h =>
        obtain rfl := (same_iff hb hr).mp h
        exact (means_int m).congr fun ρ => by rw [hlv]; omega
      · exact hsub
    · next base' c' _ ho' =>
      obtain ⟨hb', m', rfl, _, hrv⟩ := hr.offset ho'
      split
      · next h =>
        obtain rfl := (same_iff hl hb').mp h
        exact (means_int (-m')).congr fun ρ => by rw [hrv]; omega
      · exact hsub
    · exact hsub

theorem sub_value {l r : Size} (hl : l.Integral) (hr : r.Integral) (hfit : Fits .sub l r) :
    (l.sub r).Means fun ρ => l.value ρ - r.value ρ := by
  unfold sub
  split
  · obtain ⟨m, rfl⟩ := hl
    obtain ⟨n, rfl⟩ := hr
    have hheld : Arithmetic.holds (m - n) = true := hfit
    rw [Number.sub_int hheld]
    exact means_int (m - n)
  · obtain ⟨n, rfl⟩ := hr
    refine (addLiteral_means hl ?_).congr fun ρ => (Int.sub_eq_add_neg).symm
    simpa [Fits] using hfit
  · refine difference_means hl hr ?_
    simpa [Fits] using hfit

/-! ## Products and quotients -/

/-- A term is multiplied by a literal through all the factors already there. -/
theorem mulLiteral_means {s : Size} (hs : s.Integral) {n : Int} (hfit : s.MulFits n) :
    (s.mulLiteral (.int n)).Means fun ρ => s.value ρ * n := by
  generalize hv : Number.int n = v
  fun_induction mulLiteral s v generalizing n with
  | case1 v a =>
      obtain ⟨m, rfl⟩ := hs
      subst hv
      have hheld : Arithmetic.holds (m * n) = true := hfit
      rw [Number.mul_int hheld]
      exact means_int (m * n)
  | case2 base c =>
      exact means_zero.congr fun ρ => by simp [Number.int_eq_zero.mp hv]
  | case3 base c =>
      exact hs.means.congr fun ρ => by simp [Number.int_eq_one.mp hv]
  | case4 v base c hzero hone ih =>
      obtain ⟨hb, m, rfl⟩ := hs
      subst hv
      obtain ⟨hheld, hrest⟩ :=
        hfit (mt Number.int_eq_zero.mpr hzero) (mt Number.int_eq_one.mpr hone)
      rw [Number.toInt_int] at hheld hrest
      rw [Number.mul_int hheld] at ih ⊢
      refine (ih hb hrest rfl).congr fun ρ => ?_
      simp [value, Operator.onIntegers, Int.mul_assoc]
  | case5 t =>
      exact means_zero.congr fun ρ => by simp [Number.int_eq_zero.mp hv]
  | case6 t =>
      exact hs.means.congr fun ρ => by simp [Number.int_eq_one.mp hv]
  | case7 t v =>
      subst hv
      exact hs.means.binary (means_int n)

theorem mul_value {l r : Size} (hl : l.Integral) (hr : r.Integral) (hfit : Fits .mul l r) :
    (l.mul r).Means fun ρ => l.value ρ * r.value ρ := by
  unfold mul
  split
  · obtain ⟨n, rfl⟩ := hr
    exact mulLiteral_means hl hfit
  · obtain ⟨n, rfl⟩ := hl
    refine (mulLiteral_means hr ?_).congr fun ρ => Int.mul_comm _ _
    simpa [Fits] using hfit
  · exact hl.means.binary hr.means

/-- A quotient that is formed has the value of the quotient; it is refused only
for the literal divisor zero. -/
theorem div_value {l r t : Size} (hl : l.Integral) (hr : r.Integral) (hfit : Fits .div l r)
    (h : l.div r = .ok t) : t.Means fun ρ => (l.value ρ).fdiv (r.value ρ) := by
  unfold div at h
  split at h
  · obtain ⟨m, rfl⟩ := hl
    obtain ⟨n, rfl⟩ := hr
    split at h
    · cases h
    · next hzero =>
      have hheld : Arithmetic.holds (m.fdiv n) = true := hfit (mt Number.int_eq_zero.mpr hzero)
      rw [Number.floorDiv_int hheld] at h
      obtain rfl := Except.ok.inj h
      exact means_int (m.fdiv n)
  · obtain ⟨n, rfl⟩ := hr
    split at h
    · cases h
    · split at h
      · next hone =>
        obtain rfl := Except.ok.inj h
        exact hl.means.congr fun ρ => by simp [value, Number.int_eq_one.mp hone]
      · obtain rfl := Except.ok.inj h
        exact hl.means.binary (means_int n)
  · obtain ⟨m, rfl⟩ := hl
    split at h
    · next hzero =>
      obtain rfl := Except.ok.inj h
      exact (means_int m).congr fun ρ => by simp [value, Number.int_eq_zero.mp hzero]
    · obtain rfl := Except.ok.inj h
      exact (means_int m).binary hr.means
  · obtain rfl := Except.ok.inj h
    exact hl.means.binary hr.means

/-- A quotient is formed unless the divisor is the literal zero. -/
theorem div_ok {l r : Size} (h : r ≠ literal 0) : ∃ t, l.div r = .ok t := by
  unfold div
  split
  · next b => exact ⟨_, if_neg fun hb : b = 0 => h (by rw [hb])⟩
  · next b _ =>
    rw [if_neg fun hb : b = 0 => h (by rw [hb])]
    split <;> exact ⟨_, rfl⟩
  · split <;> exact ⟨_, rfl⟩
  · exact ⟨_, rfl⟩

/-! ## Bounds -/

/-- The lesser and the greater of two integers are never rounded. -/
theorem apply_bound {op : Operator} (hop : op = .min ∨ op = .max) (a b : Int) :
    op.apply (.int a) (.int b) = .int (op.onIntegers a b) := by
  rcases hop with rfl | rfl
  · exact Number.min_int a b
  · exact Number.max_int a b

/-- A term is bounded by a literal through all the bounds of its kind already
there. -/
theorem boundLiteral_means {op : Operator} (hop : op = .min ∨ op = .max) {s : Size}
    (hs : s.Integral) (n : Int) :
    (s.boundLiteral op (.int n)).Means fun ρ => op.onIntegers (s.value ρ) n := by
  have hassoc : ∀ a b c, op.onIntegers a (op.onIntegers b c) =
      op.onIntegers (op.onIntegers a b) c := by
    intro a b c
    rcases hop with rfl | rfl <;> simp only [Operator.onIntegers] <;> omega
  generalize hv : Number.int n = v
  fun_induction boundLiteral op s v generalizing n with
  | case1 v a =>
      obtain ⟨m, rfl⟩ := hs
      subst hv
      exact apply_bound hop m n ▸ means_int (op.onIntegers m n)
  | case2 v base c ih =>
      obtain ⟨hb, m, rfl⟩ := hs
      subst hv
      exact (ih hb (op.onIntegers m n) (apply_bound hop m n).symm).congr fun ρ => hassoc _ _ _
  | case3 v inner base c hne =>
      subst hv
      exact hs.means.binary (means_int n)
  | case4 t v =>
      subst hv
      exact hs.means.binary (means_int n)

/-- The lesser or the greater of two terms of integers is one, with that value. -/
theorem extremum_value {op : Operator} (hop : op = .min ∨ op = .max) {l r : Size}
    (hl : l.Integral) (hr : r.Integral) :
    (extremum op l r).Means fun ρ => op.onIntegers (l.value ρ) (r.value ρ) := by
  have hcomm : ∀ a b, op.onIntegers a b = op.onIntegers b a := by
    intro a b
    rcases hop with rfl | rfl <;> simp only [Operator.onIntegers] <;> omega
  unfold extremum
  split
  · obtain ⟨n, rfl⟩ := hr
    exact boundLiteral_means hop hl n
  · obtain ⟨n, rfl⟩ := hl
    exact (boundLiteral_means hop hr n).congr fun ρ => hcomm _ _
  · split
    · next h =>
      obtain rfl := (same_iff hl hr).mp h
      refine hl.means.congr fun ρ => ?_
      rcases hop with rfl | rfl <;> simp [Operator.onIntegers]
    · exact hl.means.binary hr.means

/-! ## Any operation -/

/-- **Putting terms together keeps their meaning.**  Whichever rules apply, the
result has the value of the operation under every valuation. -/
theorem combine_means {op : Operator} {l r t : Size} (hl : l.Integral) (hr : r.Integral)
    (hfit : Fits op l r) (h : combine op l r = .ok t) :
    t.Means fun ρ => op.onIntegers (l.value ρ) (r.value ρ) := by
  cases op with
  | add =>
      obtain rfl := Except.ok.inj h
      exact add_value hl hr hfit
  | sub =>
      obtain rfl := Except.ok.inj h
      exact sub_value hl hr hfit
  | mul =>
      obtain rfl := Except.ok.inj h
      exact mul_value hl hr hfit
  | div => exact div_value hl hr hfit h
  | min =>
      obtain rfl := Except.ok.inj h
      exact extremum_value (.inl rfl) hl hr
  | max =>
      obtain rfl := Except.ok.inj h
      exact extremum_value (.inr rfl) hl hr

/-- Terms can be put together unless that divides by the literal zero. -/
theorem combine_ok {op : Operator} {l r : Size} (h : op = .div → r ≠ literal 0) :
    ∃ t, combine op l r = .ok t := by
  cases op with
  | div => exact div_ok (h rfl)
  | add | sub | mul | min | max => exact ⟨_, rfl⟩

end

/-! ## Integers of any size -/

section

variable [Arithmetic] [Unbounded]

/-- Integers are folded when they are added. -/
theorem add_int (a b : Int) :
    (literal (.int a)).add (literal (.int b)) = literal (.int (a + b)) := by
  rw [add, addLiteral, Number.add_int_int]

theorem sub_int (a b : Int) :
    (literal (.int a)).sub (literal (.int b)) = literal (.int (a - b)) := by
  rw [sub, Number.sub_int_int]

theorem mul_int (a b : Int) :
    (literal (.int a)).mul (literal (.int b)) = literal (.int (a * b)) := by
  rw [mul, mulLiteral, Number.mul_int_int]

omit [Unbounded] in
theorem min_int (a b : Int) :
    (literal (.int a)).min (literal (.int b)) = literal (.int (Min.min a b)) := by
  rw [min, extremum, boundLiteral, Operator.apply, Number.min_int]

/-- Putting two terms together means the operation on what they mean, if it is accepted. -/
theorem Means.combine {op : Operator} {l r t : Size} {f g : Valuation → Int} (hl : l.Means f)
    (hr : r.Means g) (h : Size.combine op l r = .ok t) :
    t.Means fun ρ => op.onIntegers (f ρ) (g ρ) :=
  (combine_means hl.integral hr.integral (.of_unbounded op l r) h).congr fun ρ => by
    rw [hl.value_eq, hr.value_eq]

/-- A sum means the sum of what its terms mean. -/
theorem add_means {l r : Size} {f g : Valuation → Int} (hl : l.Means f) (hr : r.Means g) :
    (l.add r).Means fun ρ => f ρ + g ρ :=
  hl.combine hr (show Size.combine .add l r = .ok _ from rfl)

theorem sub_means {l r : Size} {f g : Valuation → Int} (hl : l.Means f) (hr : r.Means g) :
    (l.sub r).Means fun ρ => f ρ - g ρ :=
  hl.combine hr (show Size.combine .sub l r = .ok _ from rfl)

theorem mul_means {l r : Size} {f g : Valuation → Int} (hl : l.Means f) (hr : r.Means g) :
    (l.mul r).Means fun ρ => f ρ * g ρ :=
  hl.combine hr (show Size.combine .mul l r = .ok _ from rfl)

theorem min_means {l r : Size} {f g : Valuation → Int} (hl : l.Means f) (hr : r.Means g) :
    (l.min r).Means fun ρ => Min.min (f ρ) (g ρ) :=
  hl.combine hr (show Size.combine .min l r = .ok _ from rfl)

/-- The product of sizes has the product of their values. -/
theorem product_means {sizes : List Size} (h : ∀ s ∈ sizes, s.Integral) :
    (product sizes).Means fun ρ => (sizes.map (value ρ)).prod := by
  have hfold : ∀ (sizes : List Size) (acc : Size) (f : Valuation → Int),
      (∀ s ∈ sizes, s.Integral) → acc.Means f →
      (sizes.foldl mul acc).Means fun ρ => f ρ * (sizes.map (value ρ)).prod := by
    intro sizes
    induction sizes with
    | nil => exact fun _ _ _ hacc => hacc.congr fun ρ => by simp
    | cons s rest ih =>
        intro acc f hall hacc
        have hs := hall s List.mem_cons_self
        refine (ih (acc.mul s) _ (fun t ht => hall t (List.mem_cons_of_mem _ ht))
          (mul_means hacc hs.means)).congr fun ρ => ?_
        simp [Int.mul_assoc]
  exact (hfold sizes one _ h means_one).congr fun ρ => by simp

end

/-! ## Symbols and divisors -/

section

variable [Arithmetic] {known : String → Prop} {ρ : Valuation}

/-- Adding a literal brings in no symbol and no divisor. -/
theorem addLiteral_defined {s : Size} (hs : s.Defined known ρ) (v : Number) :
    (s.addLiteral v).Defined known ρ := by
  fun_induction addLiteral s v with
  | case1 v a => trivial
  | case2 base c => exact hs
  | case3 v base c hzero ih => exact ih hs.1
  | case4 t => exact hs
  | case5 t v => exact ⟨hs, trivial, by simp⟩

theorem mulLiteral_defined {s : Size} (hs : s.Defined known ρ) (v : Number) :
    (s.mulLiteral v).Defined known ρ := by
  fun_induction mulLiteral s v with
  | case1 v a => trivial
  | case2 base c => trivial
  | case3 base c => exact hs
  | case4 v base c hzero hone ih => exact ih hs.1
  | case5 t => trivial
  | case6 t => exact hs
  | case7 t v => exact ⟨hs, trivial, by simp⟩

theorem boundLiteral_defined {op : Operator} (hop : op ≠ .div) {s : Size}
    (hs : s.Defined known ρ) (v : Number) : (s.boundLiteral op v).Defined known ρ := by
  fun_induction boundLiteral op s v with
  | case1 v a => trivial
  | case2 v base c ih => exact ih hs.1
  | case3 v inner base c hne => exact ⟨hs, trivial, fun h => absurd h hop⟩
  | case4 t v => exact ⟨hs, trivial, fun h => absurd h hop⟩

/-- A difference is defined if both of its terms are. -/
theorem difference_defined {l r : Size} (hl : l.Defined known ρ) (hr : r.Defined known ρ) :
    (difference l r).Defined known ρ := by
  have hsub : (Size.binary .sub l r).Defined known ρ := ⟨hl, hr, by simp⟩
  unfold difference
  split
  · trivial
  · split <;> repeat' split
    all_goals first | exact hsub | trivial

/-- A sum is defined if both of its terms are. -/
theorem add_defined {l r : Size} (hl : l.Defined known ρ) (hr : r.Defined known ρ) :
    (l.add r).Defined known ρ := by
  unfold add
  split
  · exact addLiteral_defined hl _
  · exact addLiteral_defined hr _
  · exact ⟨hl, hr, by simp⟩

theorem sub_defined {l r : Size} (hl : l.Defined known ρ) (hr : r.Defined known ρ) :
    (l.sub r).Defined known ρ := by
  unfold sub
  split
  · trivial
  · exact addLiteral_defined hl _
  · exact difference_defined hl hr

theorem mul_defined {l r : Size} (hl : l.Defined known ρ) (hr : r.Defined known ρ) :
    (l.mul r).Defined known ρ := by
  unfold mul
  split
  · exact mulLiteral_defined hl _
  · exact mulLiteral_defined hr _
  · exact ⟨hl, hr, by simp⟩

/-- The lesser or the greater of two terms is defined if both are. -/
theorem extremum_defined {op : Operator} (hop : op ≠ .div) {l r : Size}
    (hl : l.Defined known ρ) (hr : r.Defined known ρ) : (extremum op l r).Defined known ρ := by
  unfold extremum
  split
  · exact boundLiteral_defined hop hl _
  · exact boundLiteral_defined hop hr _
  · split
    · exact hl
    · exact ⟨hl, hr, fun h => absurd h hop⟩

/-- A quotient is defined if both of its terms are and the divisor does not come to zero. -/
theorem div_defined {l r t : Size} (hl : l.Defined known ρ) (hr : r.Defined known ρ)
    (hzero : r.value ρ ≠ 0) (h : l.div r = .ok t) : t.Defined known ρ := by
  have hdiv : (Size.binary .div l r).Defined known ρ := ⟨hl, hr, fun _ => hzero⟩
  unfold div at h
  split at h
  · split at h
    · cases h
    · obtain rfl := Except.ok.inj h
      trivial
  · split at h
    · cases h
    · split at h
      · obtain rfl := Except.ok.inj h
        exact hl
      · obtain rfl := Except.ok.inj h
        exact hdiv
  · split at h
    · obtain rfl := Except.ok.inj h
      exact hl
    · obtain rfl := Except.ok.inj h
      exact hdiv
  · obtain rfl := Except.ok.inj h
    exact hdiv

/-- Putting terms together asks for no new symbol and divides by nothing new but
the divisor at hand. -/
theorem combine_defined {op : Operator} {l r t : Size} (hl : l.Defined known ρ)
    (hr : r.Defined known ρ) (hzero : op = .div → r.value ρ ≠ 0) (h : combine op l r = .ok t) :
    t.Defined known ρ := by
  cases op with
  | add => obtain rfl : _ = t := by simpa [combine] using h
           exact add_defined hl hr
  | sub => obtain rfl : _ = t := by simpa [combine] using h
           exact sub_defined hl hr
  | mul => obtain rfl : _ = t := by simpa [combine] using h
           exact mul_defined hl hr
  | div => exact div_defined hl hr (hzero rfl) h
  | min => obtain rfl : _ = t := by simpa [combine] using h
           exact extremum_defined (by simp) hl hr
  | max => obtain rfl : _ = t := by simpa [combine] using h
           exact extremum_defined (by simp) hl hr

end

end ShapeGraph.Size
