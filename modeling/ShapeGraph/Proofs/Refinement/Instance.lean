import ShapeGraph.Proofs.Graph.Session
import ShapeGraph.Proofs.Refinement.Operations
import ShapeGraph.Proofs.Resolution.Environment

/-!
# Instances of programs

Under a binding of its symbols a program has an instance without any: each named
dimension becomes the constant that its symbol is bound to, and each bound of a
slice the literal that it comes down to.

* `Command.instantiate` — the instance of a command;
* `Command.Deferrable`, `Command.names` — the commands whose sizes may be left to
  the run, and the symbols in them;
* `Dimension.instantiate_matches`, `RangeSpec.instantiate_matches` — the parts of
  a command match those of its instance.
-/

namespace ShapeGraph

open ShapeGraph.Numeric (Arithmetic Number Unbounded)

/-! ## Symbols -/

/-- The symbol of a dimension. -/
def Dimension.names : Dimension → List String
  | constant _ => []
  | dynamic symbol => [symbol]

/-- The symbols of a quantity. -/
def Quantity.names : Quantity → List String
  | number _ => []
  | size s => s.names

/-- The symbols of a bound. -/
def Bound.names : Bound → List String
  | included value => value.names
  | excluded value => value.names
  | unbounded => []

/-- The symbols of a range. -/
def RangeSpec.names (spec : RangeSpec) : List String :=
  spec.bounds.1.names ++ spec.bounds.2.names

/-- The symbols of a command. -/
def Command.names : Command → List String
  | newTensor _ shape => shape.flatMap Dimension.names
  | slice _ specs => specs.flatMap RangeSpec.names
  | expand _ _ dim => dim.names
  | _ => []

/-! ## Commands that may be deferred -/

/-- A constant or a named dimension, as the checked constructors make them. -/
def Dimension.Named : Dimension → Prop
  | constant size => ofNumber size = .ok (constant size)
  | dynamic symbol => symbol ≠ anonymousSymbol ∧ ofSymbol symbol = .ok (dynamic symbol)

/-- Leaves, views and computations of sizes that are constant or named. -/
def Command.Deferrable : Command → Prop
  | newTensor _ shape => ∀ dim ∈ shape, dim.Named
  | slice _ specs => ∀ spec ∈ specs, spec.Integral
  | expand _ _ dim => dim.Named
  | permute .. | reshape .. | concat .. | contiguous _ | unary .. | binary .. | scalar ..
  | reduce .. | softmax .. | matmul .. => True
  | _ => False

/-! ## Instances -/

/-- The constant that a symbol is bound to. -/
def Dimension.instantiate (bindings : Bindings) : Dimension → Dimension
  | constant size => constant size
  | dynamic symbol =>
    match bindings.get? symbol with
    | some size => constant size
    | none => dynamic symbol

section

variable [Arithmetic]

/-- A quantity with its symbols replaced. -/
def Quantity.instantiate (bindings : Bindings) : Quantity → Except Fault Quantity
  | number v => .ok (number v)
  | size s => return size (← s.substitute bindings)

/-- A bound with its symbols replaced. -/
def Bound.instantiate (bindings : Bindings) : Bound → Except Fault Bound
  | included value => return included (← value.instantiate bindings)
  | excluded value => return excluded (← value.instantiate bindings)
  | unbounded => .ok unbounded

/-- A range with its symbols replaced. -/
def RangeSpec.instantiate (bindings : Bindings) : RangeSpec → Except Fault RangeSpec
  | full => .ok full
  | bounded lower upper =>
    return bounded (← lower.instantiate bindings) (← upper.instantiate bindings)
  | starting start => return starting (← start.instantiate bindings)
  | ending stop inclusive => return ending (← stop.instantiate bindings) inclusive
  | within start stop inclusive =>
    return within (← start.instantiate bindings) (← stop.instantiate bindings) inclusive

/-- A command with its symbols replaced. -/
def Command.instantiate (bindings : Bindings) : Command → Except Fault Command
  | newTensor name shape => .ok (newTensor name (shape.map (Dimension.instantiate bindings)))
  | slice t specs => return slice t (← specs.mapM (RangeSpec.instantiate bindings))
  | expand t axis dim => .ok (expand t axis (dim.instantiate bindings))
  | command => .ok command

end

/-! ## Parts that match -/

/-- An upper bound that includes its value or not, on both sides alike. -/
theorem Bound.upper_matches {known : String → Prop} {ρ : Valuation} {q q' : Quantity}
    (h : q.Matches known ρ q') (inclusive : Bool) :
    (upper inclusive q).Matches known ρ (upper inclusive q') := by
  cases inclusive <;> exact h

/-- An upper bound names what its quantity names. -/
theorem Bound.names_upper (inclusive : Bool) (q : Quantity) :
    (upper inclusive q).names = q.names := by
  cases inclusive <;> rfl

/-- An upper bound is one of integers if its quantity is. -/
theorem Bound.integral_upper {inclusive : Bool} {q : Quantity}
    (h : (upper inclusive q).Integral) : q.Integral := by
  cases inclusive <;> exact h

section

variable {bindings : Bindings} {ρ : Valuation}

/-- A checked constant is a size of its own. -/
theorem Dimension.constant_matches {known : String → Prop} {n : Int}
    (hsafe : (Number.int n).isSafe = true) (hnonneg : 0 ≤ n) :
    DimensionsMatch known ρ (constant (.int n)) (constant (.int n)) where
  matches_dim := rfl
  sizes := by
    refine ⟨.literal (.int n), ?_, ?_, ⟨⟨n, rfl⟩, trivial⟩, hnonneg⟩ <;>
      simp [size?, Size.ofNumber, hsafe, Size.ground, Size.value]

/-- A named dimension matches the constant that its symbol is bound to. -/
theorem Dimension.instantiate_matches (hadmissible : Environment.Admissible bindings)
    (hb : bindings.Agrees ρ) {dim : Dimension} (hdim : dim.Named)
    (hnames : ∀ name ∈ dim.names, bindings.Bound name) :
    DimensionsMatch bindings.Bound ρ dim (dim.instantiate bindings) := by
  cases dim with
  | constant size =>
      simp only [Named, ofNumber, ite_ok_eq_ok, Bool.and_eq_true, Bool.not_eq_true'] at hdim
      obtain ⟨⟨hsafe, hnonneg⟩, _⟩ := hdim
      obtain ⟨n, rfl⟩ := Number.eq_int_of_isSafe hsafe
      exact constant_matches hsafe (by simpa [show (0 : Number) = .int 0 from rfl] using hnonneg)
  | dynamic symbol =>
      obtain ⟨hnamed, hsymbol⟩ := hdim
      obtain ⟨v, hv⟩ := hnames symbol (List.mem_singleton.mpr rfl)
      obtain ⟨hsafe, hnonneg⟩ := hadmissible.sizes _ (Entries.mem_of_get? hv)
      obtain rfl := hb symbol v hv
      simp only [ofSymbol, ite_error_eq_ok] at hsymbol
      refine ⟨trivial, .symbol symbol, ?_, ?_, ⟨trivial, _, hv⟩, ?_⟩
      · simp [size?, hnamed, Size.ofSymbol, hsymbol.1]
      · simp [instantiate, hv, size?, Size.ofNumber, hsafe, Size.ground, Size.value]
      · show 0 ≤ ρ symbol
        simpa [show (0 : Number) = .int 0 from rfl] using hnonneg

variable [Arithmetic] [Unbounded]

/-- A quantity matches its instance. -/
theorem Quantity.instantiate_matches (hb : bindings.Agrees ρ) {q q' : Quantity}
    (hq : q.Integral) (hnames : ∀ name ∈ q.names, bindings.Bound name)
    (h : q.instantiate bindings = .ok q') : q.Matches bindings.Bound ρ q' := by
  cases q with
  | number v =>
      obtain rfl := Except.ok.inj h
      refine (Follows.self _).mono fun size _ ⟨heq, hsize⟩ => ?_
      obtain rfl := heq
      simp only [toSize, Size.ofNumber, ite_ok_eq_ok] at hsize
      obtain ⟨hsafe, rfl⟩ := hsize
      obtain ⟨n, rfl⟩ := Number.eq_int_of_isSafe hsafe
      exact ⟨⟨⟨n, rfl⟩, trivial⟩, rfl⟩
  | size s =>
      simp only [instantiate, bind_eq_ok, pure_eq_ok] at h
      obtain ⟨t, ht, rfl⟩ := h
      have hdefined := Size.defined_of_substitute hq hb hnames ht
      rw [Size.substitute_of_defined hq hb hdefined] at ht
      obtain rfl := Except.ok.inj ht
      exact .ok ⟨⟨hq, hdefined⟩, rfl⟩

/-- A bound matches its instance. -/
theorem Bound.instantiate_matches (hb : bindings.Agrees ρ) {bound bound' : Bound}
    (hbound : bound.Integral) (hnames : ∀ name ∈ bound.names, bindings.Bound name)
    (h : bound.instantiate bindings = .ok bound') : bound.Matches bindings.Bound ρ bound' := by
  cases bound with
  | included value =>
      simp only [instantiate, bind_eq_ok, pure_eq_ok] at h
      obtain ⟨value', hvalue, rfl⟩ := h
      exact Quantity.instantiate_matches hb hbound hnames hvalue
  | excluded value =>
      simp only [instantiate, bind_eq_ok, pure_eq_ok] at h
      obtain ⟨value', hvalue, rfl⟩ := h
      exact Quantity.instantiate_matches hb hbound hnames hvalue
  | unbounded =>
      obtain rfl := Except.ok.inj h
      trivial

/-- A range matches its instance. -/
theorem RangeSpec.instantiate_matches (hb : bindings.Agrees ρ) {spec spec' : RangeSpec}
    (hspec : spec.Integral) (hnames : ∀ name ∈ spec.names, bindings.Bound name)
    (h : spec.instantiate bindings = .ok spec') : spec.Matches bindings.Bound ρ spec' := by
  obtain ⟨hlower, hupper⟩ := hspec
  obtain ⟨hlowerNames, hupperNames⟩ := List.forall_mem_append.mp hnames
  cases spec with
  | full =>
      obtain rfl := Except.ok.inj h
      exact ⟨rfl, trivial, trivial⟩
  | bounded lower upper =>
      simp only [instantiate, bind_eq_ok, pure_eq_ok] at h
      obtain ⟨lower', hlower', upper', hupper', rfl⟩ := h
      exact ⟨rfl, Bound.instantiate_matches hb hlower hlowerNames hlower',
        Bound.instantiate_matches hb hupper hupperNames hupper'⟩
  | starting start =>
      simp only [instantiate, bind_eq_ok, pure_eq_ok] at h
      obtain ⟨start', hstart, rfl⟩ := h
      exact ⟨rfl, Quantity.instantiate_matches hb hlower hlowerNames hstart, trivial⟩
  | ending stop inclusive =>
      simp only [instantiate, bind_eq_ok, pure_eq_ok] at h
      obtain ⟨stop', hstop, rfl⟩ := h
      refine ⟨rfl, trivial, Bound.upper_matches ?_ inclusive⟩
      exact Quantity.instantiate_matches hb (Bound.integral_upper hupper)
        (Bound.names_upper inclusive stop ▸ hupperNames) hstop
  | within start stop inclusive =>
      simp only [instantiate, bind_eq_ok, pure_eq_ok] at h
      obtain ⟨start', hstart, stop', hstop, rfl⟩ := h
      refine ⟨rfl, Quantity.instantiate_matches hb hlower hlowerNames hstart,
        Bound.upper_matches ?_ inclusive⟩
      exact Quantity.instantiate_matches hb (Bound.integral_upper hupper)
        (Bound.names_upper inclusive stop ▸ hupperNames) hstop

end

end ShapeGraph
