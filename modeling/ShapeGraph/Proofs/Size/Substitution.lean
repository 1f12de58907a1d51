import ShapeGraph.Proofs.Size.Combine
import ShapeGraph.Size.Substitute

/-!
# Binding symbols keeps the meaning

Substitution rebuilds a term through all the rules that put terms together.
Under a valuation that agrees with the binding, what it builds has the value of
the term it started from.  So a term that evaluates to a number evaluates to
its value, whatever the symbols that are not bound stand for.

* `substitute_value`, `evaluate_value` — values are kept;
* `substitute_of_held`, `evaluate_of_held` — a term whose symbols are all bound,
  and none of whose divisors is zero, does evaluate, as long as the values on
  the way are held;
* `defined_of_substitute` — only such a term can be rebuilt into a literal.
-/

namespace ShapeGraph

open ShapeGraph.Numeric (Arithmetic Number Unbounded)

/-! ## Bindings and valuations -/

namespace Bindings

/-- The bound symbols have the values that the valuation gives them. -/
def Agrees (bindings : Bindings) (ρ : Valuation) : Prop :=
  ∀ name v, bindings.get? name = some v → v = .int (ρ name)

/-- Every symbol is bound to an integer or to nothing. -/
def Integral (bindings : Bindings) : Prop :=
  ∀ name v, bindings.get? name = some v → ∃ n, v = .int n

/-- The symbol has a value. -/
def Bound (bindings : Bindings) (name : String) : Prop :=
  ∃ v, bindings.get? name = some v

/-- The values of the bound symbols, and of the others those of a valuation. -/
def completed (bindings : Bindings) (ρ : Valuation) : Valuation := fun name =>
  match bindings.get? name with
  | some v => v.toInt
  | none => ρ name

variable {bindings : Bindings}

/-- Bindings all of whose entries are integers bind integers. -/
theorem integral_of_entries (h : ∀ entry ∈ bindings, ∃ n, entry.2 = .int n) :
    bindings.Integral :=
  fun name v hv => h (name, v) (Entries.mem_of_get? hv)

theorem integral_nil : Bindings.Integral [] :=
  fun _ _ hv => nomatch hv

/-- An integer may be bound on top of bindings to integers. -/
theorem Integral.cons (h : bindings.Integral) (name : String) (n : Int) :
    Bindings.Integral ((name, .int n) :: bindings) := by
  intro key v hv
  rw [Entries.get?] at hv
  by_cases hname : name = key
  · rw [if_pos hname] at hv
    exact ⟨n, (Option.some.inj hv).symm⟩
  · rw [if_neg hname] at hv
    exact h key v hv

/-- Bindings to integers agree with the valuation that they complete. -/
theorem Integral.agrees_completed (h : bindings.Integral) (ρ : Valuation) :
    bindings.Agrees (bindings.completed ρ) := by
  intro name v hv
  obtain ⟨n, rfl⟩ := h name v hv
  simp [completed, hv]

/-- A symbol that is not bound keeps its value. -/
theorem completed_of_not_bound {name : String} (h : bindings.get? name = none) (ρ : Valuation) :
    bindings.completed ρ name = ρ name := by
  simp [completed, h]

end Bindings

namespace Size

variable [Arithmetic] {bindings : Bindings} {ρ : Valuation}

/-- A substituted operation is made of its substituted operands. -/
theorem substitute_binary_ok {op : Operator} {l r t : Size}
    (h : (binary op l r).substitute bindings = .ok t) :
    ∃ l' r', l.substitute bindings = .ok l' ∧ r.substitute bindings = .ok r' ∧
      combine op l' r' = .ok t := by
  rw [substitute] at h
  cases hl : l.substitute bindings with
  | error e => rw [hl] at h; cases h
  | ok l' =>
      cases hr : r.substitute bindings with
      | error e => rw [hl, hr] at h; cases h
      | ok r' => rw [hl, hr] at h; exact ⟨l', r', rfl, rfl, h⟩

/-- A symbol is replaced by its value if it is bound, and kept if not. -/
theorem substitute_symbol (name : String) : (symbol name).substitute bindings =
    .ok (match bindings.get? name with
      | some v => literal v
      | none => symbol name) := by
  rw [substitute]
  cases bindings.get? name <;> rfl

section

variable [Unbounded]

/-- **Substitution keeps the value** under every valuation that agrees with the
binding. -/
theorem substitute_value {s t : Size} (hs : s.Integral) (hb : bindings.Agrees ρ)
    (h : s.substitute bindings = .ok t) : t.Integral ∧ t.value ρ = s.value ρ := by
  induction s generalizing t with
  | literal v =>
      obtain rfl : literal v = t := by simpa [substitute] using h
      exact ⟨hs, rfl⟩
  | symbol name =>
      rw [substitute_symbol] at h
      cases hv : bindings.get? name with
      | none =>
          obtain rfl : symbol name = t := by simpa [hv] using h
          exact ⟨trivial, rfl⟩
      | some v =>
          obtain rfl : literal v = t := by simpa [hv] using h
          obtain rfl := hb name v hv
          exact ⟨⟨ρ name, rfl⟩, rfl⟩
  | binary op l r ihl ihr =>
      obtain ⟨l', r', hl, hr, hc⟩ := substitute_binary_ok h
      obtain ⟨hl', hlv⟩ := ihl hs.1 hl
      obtain ⟨hr', hrv⟩ := ihr hs.2 hr
      have ht := hl'.means.combine hr'.means hc
      exact ⟨ht.integral, by rw [ht.value_eq, hlv, hrv]; rfl⟩

/-- **Evaluation gives the value** under every valuation that agrees with the
binding. -/
theorem evaluate_value {s : Size} {v : Number} (hs : s.Integral) (hb : bindings.Agrees ρ)
    (h : s.evaluate bindings = .ok v) : v = .int (s.value ρ) := by
  unfold evaluate at h
  cases ht : s.substitute bindings with
  | error e => rw [ht] at h; cases h
  | ok t =>
      obtain ⟨hti, htv⟩ := substitute_value hs hb ht
      rw [ht] at h
      cases hv : t.value? with
      | none => simp [bind, Except.bind, hv] at h
      | some w =>
          obtain rfl : w = v := by simpa [bind, Except.bind, hv] using h
          rw [hti.literal_eq hv ρ, htv]

end

/-! ## Terms that evaluate -/

/-- The value of every operation in the term is held. -/
def Held (ρ : Valuation) : Size → Prop
  | literal _ => True
  | symbol _ => True
  | binary op l r =>
    l.Held ρ ∧ r.Held ρ ∧ Arithmetic.holds (op.onIntegers (l.value ρ) (r.value ρ))

/-- Everything is held where nothing is rounded. -/
theorem Held.of_unbounded [Unbounded] (ρ : Valuation) (s : Size) : s.Held ρ := by
  induction s with
  | literal v => trivial
  | symbol name => trivial
  | binary op l r ihl ihr => exact ⟨ihl, ihr, Unbounded.holds_all _⟩

/-- An operation on integers is the operation on integers if its result is
held. -/
theorem apply_held {op : Operator} {a b : Int}
    (hheld : Arithmetic.holds (op.onIntegers a b) = true) :
    op.apply (.int a) (.int b) = .int (op.onIntegers a b) := by
  cases op with
  | add => exact Number.add_int hheld
  | sub => exact Number.sub_int hheld
  | mul => exact Number.mul_int hheld
  | div => exact Number.floorDiv_int hheld
  | min => exact Number.min_int a b
  | max => exact Number.max_int a b

/-- Two literals fold, unless that divides by zero. -/
theorem combine_literals {op : Operator} {a b : Number} (h : op = .div → b ≠ 0) :
    combine op (literal a) (literal b) = .ok (literal (op.apply a b)) := by
  cases op with
  | div => simp [combine, div, h rfl, Operator.apply]
  | add | sub | mul | min | max => rfl

/-- A term folds to its value if all its symbols are bound, no divisor is zero,
and the values of its operations are held. -/
theorem substitute_of_held {s : Size} (hs : s.Integral) (hb : bindings.Agrees ρ)
    (hd : s.Defined bindings.Bound ρ) (hheld : s.Held ρ) :
    s.substitute bindings = .ok (literal (.int (s.value ρ))) := by
  induction s with
  | literal v =>
      obtain ⟨n, rfl⟩ := hs
      rfl
  | symbol name =>
      obtain ⟨v, hv⟩ := hd
      rw [substitute_symbol, hv, hb name v hv]
      rfl
  | binary op l r ihl ihr =>
      have hl := ihl hs.1 hd.1 hheld.1
      have hr := ihr hs.2 hd.2.1 hheld.2.1
      rw [substitute, hl, hr]
      refine (combine_literals fun h => mt Number.int_eq_zero.mp (hd.2.2 h)).trans ?_
      rw [apply_held hheld.2.2]
      rfl

/-- A defined term is evaluated to its value if its operations are held. -/
theorem evaluate_of_held {s : Size} (hs : s.Integral) (hb : bindings.Agrees ρ)
    (hd : s.Defined bindings.Bound ρ) (hheld : s.Held ρ) :
    s.evaluate bindings = .ok (.int (s.value ρ)) := by
  unfold evaluate
  rw [substitute_of_held hs hb hd hheld]
  rfl

section

variable [Unbounded]

/-- A defined term is replaced by the literal of its value. -/
theorem substitute_of_defined {s : Size} (hs : s.Integral) (hb : bindings.Agrees ρ)
    (hd : s.Defined bindings.Bound ρ) :
    s.substitute bindings = .ok (literal (.int (s.value ρ))) :=
  substitute_of_held hs hb hd (.of_unbounded ρ s)

/-- A defined term is evaluated to its value. -/
theorem evaluate_of_defined {s : Size} (hs : s.Integral) (hb : bindings.Agrees ρ)
    (hd : s.Defined bindings.Bound ρ) : s.evaluate bindings = .ok (.int (s.value ρ)) :=
  evaluate_of_held hs hb hd (.of_unbounded ρ s)

/-- A term all of whose symbols are bound can be rebuilt only if no divisor is
zero. -/
theorem defined_of_substitute {s t : Size} (hs : s.Integral) (hb : bindings.Agrees ρ)
    (hnames : ∀ name ∈ s.names, bindings.Bound name) (h : s.substitute bindings = .ok t) :
    s.Defined bindings.Bound ρ := by
  induction s generalizing t with
  | literal v => trivial
  | symbol name => exact hnames name (List.mem_singleton.mpr rfl)
  | binary op l r ihl ihr =>
      obtain ⟨l', r', hl, hr, hc⟩ := substitute_binary_ok h
      have hld := ihl hs.1 (fun name hn => hnames name (List.mem_append_left _ hn)) hl
      have hrd := ihr hs.2 (fun name hn => hnames name (List.mem_append_right _ hn)) hr
      refine ⟨hld, hrd, ?_⟩
      rintro rfl hzero
      rw [substitute_of_defined hs.1 hb hld] at hl
      rw [substitute_of_defined hs.2 hb hrd, hzero] at hr
      obtain rfl := Except.ok.inj hl
      obtain rfl := Except.ok.inj hr
      simp [combine, div] at hc

end

end Size

end ShapeGraph
