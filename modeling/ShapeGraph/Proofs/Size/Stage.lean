import ShapeGraph.Proofs.Size.Confluence

/-!
# Sizes at a stage

While symbols become known, a size is rebuilt at one stage and again at a later
one.  Only a divisor that comes to zero can stop that.  So a size that can be
rebuilt in the end can be rebuilt at every stage before, and what has become of
it at one stage becomes at the next what the size itself becomes there.

* `divisors` — what a size divides by, which taking the difference of two sizes
  does not add to;
* `Regular` — a size of integers none of whose divisors comes to zero in the end;
* `Bindings.Below` — one binding has all that another one has;
* `Regular.at_stage` — such a size at two stages.
-/

namespace ShapeGraph

open ShapeGraph.Numeric (Arithmetic Number Unbounded)

/-! ## Divisors -/

namespace Size

/-- What a term divides by. -/
def divisors : Size → List Size
  | literal _ => []
  | symbol _ => []
  | binary op l r => l.divisors ++ r.divisors ++ (if op = .div then [r] else [])

variable [Arithmetic]

/-- Adding a literal brings in no divisor. -/
theorem mem_divisors_of_addLiteral {s d : Size} {v : Number} (h : d ∈ (s.addLiteral v).divisors) :
    d ∈ s.divisors := by
  fun_induction addLiteral s v with
  | case1 a v => cases h
  | case2 base c => exact h
  | case3 base c v hzero ih => simpa [divisors] using ih h
  | case4 t => exact h
  | case5 t v => simpa [divisors] using h

/-- A difference divides by what its sides divide by. -/
theorem mem_divisors_of_sub {l r d : Size} (h : d ∈ (l.sub r).divisors) :
    d ∈ l.divisors ∨ d ∈ r.divisors := by
  rcases sub_cases l r with ⟨v, hv⟩ | ⟨v, _, hoffset⟩ | hkept
  · rw [hv] at h
    cases h
  · rw [hoffset] at h
    exact .inl (mem_divisors_of_addLiteral h)
  · rw [hkept] at h
    simpa [divisors] using h

/-- A term of integers none of whose divisors comes to zero. -/
structure Regular (bindings : Bindings) (s : Size) : Prop where
  integral : s.Integral
  divisors : ∀ d ∈ s.divisors, d.evaluate bindings ≠ .ok 0

variable {bindings : Bindings}

/-- A term evaluates to a number if it comes to the literal of that number. -/
theorem evaluate_eq_ok {s : Size} {v : Number} :
    s.evaluate bindings = .ok v ↔ s.substitute bindings = .ok (literal v) := by
  unfold evaluate
  cases s.substitute bindings with
  | error fault => simp [bind, Except.bind]
  | ok t => cases t <;> simp [bind, Except.bind, value?]

/-- A regular term can be rebuilt. -/
theorem Regular.substitute_ok {s : Size} (h : s.Regular bindings) :
    ∃ t, s.substitute bindings = .ok t := by
  obtain ⟨-, hdivisors⟩ := h
  induction s with
  | literal v => exact ⟨_, rfl⟩
  | symbol name => exact ⟨_, substitute_symbol name⟩
  | binary op l r ihl ihr =>
      simp only [Size.divisors, List.mem_append] at hdivisors
      obtain ⟨l', hl⟩ := ihl fun d hd => hdivisors d (.inl (.inl hd))
      obtain ⟨r', hr⟩ := ihr fun d hd => hdivisors d (.inl (.inr hd))
      have hzero : op = .div → r' ≠ literal 0 := by
        rintro rfl rfl
        exact hdivisors r (.inr (by simp)) (evaluate_eq_ok.mpr hr)
      obtain ⟨t, ht⟩ := combine_ok hzero
      exact ⟨t, by rw [substitute, hl, hr]; exact ht⟩

/-- No divisor in a term that has been rebuilt is zero. -/
theorem divisor_ne_zero {s t d : Size} (h : s.substitute bindings = .ok t) (hd : d ∈ s.divisors) :
    d.evaluate bindings ≠ .ok 0 := by
  induction s generalizing t with
  | literal v => cases hd
  | symbol name => cases hd
  | binary op l r ihl ihr =>
      obtain ⟨l', r', hl, hr, hc⟩ := substitute_binary_ok h
      simp only [Size.divisors, List.mem_append] at hd
      rcases hd with (hd | hd) | hd
      · exact ihl hl hd
      · exact ihr hr hd
      · intro hzero
        split at hd
        · next hop =>
          obtain rfl := List.mem_singleton.mp hd
          obtain rfl : r' = literal 0 :=
            Except.ok.inj (hr.symm.trans (evaluate_eq_ok.mp hzero))
          exact div_by_zero (hop ▸ hc)
        · cases hd

end Size

/-! ## Stages -/

/-- One binding has all that the other one has. -/
def Bindings.Below (lower upper : Bindings) : Prop :=
  ∀ name v, lower.get? name = some v → upper.get? name = some v

namespace Bindings

variable {first second third : Bindings}

theorem Below.refl (bindings : Bindings) : bindings.Below bindings := fun _ _ h => h

/-- Having all that another binding has is transitive. -/
theorem Below.trans (h : first.Below second) (h' : second.Below third) : first.Below third :=
  fun name v hv => h' name v (h name v hv)

/-- Two bindings each of which has all that the other one has are the same but for the
order. -/
theorem Below.antisymm (h : first.Below second) (h' : second.Below first) (name : String) :
    first.get? name = second.get? name := by
  cases hfirst : first.get? name with
  | some v => exact (h name v hfirst).symm
  | none =>
      cases hsecond : second.get? name with
      | none => rfl
      | some v => exact absurd (hfirst.symm.trans (h' name v hsecond)) (by simp)

/-- What is part of bindings to integers is bindings to integers. -/
theorem Below.integral (h : first.Below second) (hi : second.Integral) : first.Integral :=
  fun name v hv => hi name v (h name v hv)

/-- What has more comes to the same with and after what has less. -/
theorem Below.joins (h : first.Below second) : second.Joins first second := by
  intro name
  cases hv : first.get? name with
  | none => rw [Option.none_or]
  | some v => rw [Option.some_or, h name v hv]

end Bindings

namespace Size

variable [Arithmetic] [Unbounded] {lower upper final : Bindings}

/-- What a size has become at one stage becomes at a later one what the size itself
becomes there, if that is anything. -/
theorem substitute_later {s t u : Size} (hs : s.Integral) (hupper : upper.Integral)
    (hbelow : lower.Below upper) (h : s.substitute lower = .ok t)
    (hu : s.substitute upper = .ok u) : t.substitute upper = .ok u := by
  obtain ⟨t', ht', hstage⟩ :=
    substitute_substitute hbelow.joins (hbelow.integral hupper) hupper hs hu
  obtain rfl : t = t' := Except.ok.inj (h.symm.trans ht')
  exact hstage

/-- **A size at two stages.**  What a regular size has become at one stage becomes at
a later one what the size itself becomes there. -/
theorem Regular.at_stage {s t : Size} (hs : s.Regular final) (hfinal : final.Integral)
    (hbelow : lower.Below upper) (habove : upper.Below final)
    (h : s.substitute lower = .ok t) :
    ∃ u, s.substitute upper = .ok u ∧ t.substitute upper = .ok u := by
  have hupper := habove.integral hfinal
  obtain ⟨w, hw⟩ := hs.substitute_ok
  obtain ⟨u, hu, _⟩ := substitute_substitute habove.joins hupper hfinal hs.integral hw
  exact ⟨u, hu, substitute_later hs.integral hupper hbelow h hu⟩

/-- A regular size that has come to a number stays that number. -/
theorem Regular.evaluate_later {s : Size} {v : Number} (hs : s.Regular final)
    (hfinal : final.Integral) (hbelow : lower.Below upper) (habove : upper.Below final)
    (h : s.evaluate lower = .ok v) : s.evaluate upper = .ok v := by
  obtain ⟨u, hu, hstill⟩ := hs.at_stage hfinal hbelow habove (evaluate_eq_ok.mp h)
  obtain rfl := substitute_literal.mp hstill
  exact evaluate_eq_ok.mpr hu

/-- Differences of regular terms are regular. -/
theorem Regular.sub {l r : Size} (hl : l.Regular final) (hr : r.Regular final) :
    (l.sub r).Regular final where
  integral := (sub_means hl.integral.means hr.integral.means).integral
  divisors d hd := by
    rcases mem_divisors_of_sub hd with hd | hd
    · exact hl.divisors d hd
    · exact hr.divisors d hd

end Size

end ShapeGraph
