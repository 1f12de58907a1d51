import ShapeGraph.Proofs.Resolution.Between
import ShapeGraph.Proofs.Resolution.Walk
import ShapeGraph.Proofs.Size.Symbols
import ShapeGraph.Proofs.View.FullRange
import ShapeGraph.Proofs.View.Measure

/-!
# What only arithmetic can stop

A size that has come to a number under some bindings comes to the same number under more of them,
unless a part of it that has been cancelled before now divides by zero.  So a step that asks for
a size which is known already either finds what is known, or it stops there and then for a reason
of arithmetic.  It never finds another number, and never an open symbol.

* `Fault.Arithmetical` — a division by zero, or a number that cannot be bound;
* `Yields` — a step that has a result of some kind, or ends in such a fault;
* `Size.substitute_known`, `Environment.unify_known` — sizes that are known already;
* `bindObligations_yields` — recorded equalities bind symbols, and nothing else stops them;
* `View.resolve_uniform` — storage that has one length on all axes.
-/

namespace ShapeGraph

open ShapeGraph.Numeric (Arithmetic Number Unbounded)

/-- A division by zero, or a number that cannot be bound. -/
def Fault.Arithmetical (fault : Fault) : Prop :=
  fault.report.code? = some "DIVISION_BY_ZERO" ∨ fault.report.code? = some "INVALID_BINDING"

/-- The step has a result for which `P` holds, or a fault of arithmetic. -/
def Yields {α : Type} (P : α → Prop) : Except Fault α → Prop
  | .ok a => P a
  | .error fault => fault.Arithmetical

namespace Yields

variable {α β : Type} {P : α → Prop} {Q : β → Prop} {x : Except Fault α}
  {next : α → Except Fault β}

theorem of_ok {a : α} (h : x = .ok a) (ha : P a) : Yields P x := by
  rw [h]
  exact ha

/-- What a step yields has the property. -/
theorem result (h : Yields P x) {a : α} (hx : x = .ok a) : P a := by
  rwa [hx] at h

/-- Where a step yields nothing, the fault is one of arithmetic. -/
theorem arithmetical (h : Yields P x) {fault : Fault} (hx : x = .error fault) :
    fault.Arithmetical := by
  rwa [hx] at h

/-- What is known of all results of a step may be added. -/
theorem mono {R : α → Prop} (h : Yields P x) (himp : ∀ a, x = .ok a → P a → R a) :
    Yields R x := by
  cases hx : x with
  | ok a => exact himp a hx (h.result hx)
  | error fault => exact h.arithmetical hx

/-- Two steps yield together if the second one yields from what the first one does. -/
theorem bind (hx : Yields P x) (hnext : ∀ a, x = .ok a → P a → Yields Q (next a)) :
    Yields Q (x >>= next) := by
  cases hstep : x with
  | ok a => exact hnext a hstep (hx.result hstep)
  | error fault => exact hx.arithmetical hstep

end Yields

section

variable [Arithmetic]

/-! ## Sizes -/

namespace Size

variable {bindings lower upper : Bindings}

/-- Symbols that are bound can make a size divide by zero, and nothing worse. -/
theorem substitute_yields (bindings : Bindings) (s : Size) :
    Yields (fun _ => True) (s.substitute bindings) := by
  cases h : s.substitute bindings with
  | ok t => exact trivial
  | error fault => exact .inl (substitute_fault h)

variable [Unbounded]

/-- **A size that is known** stays what it is. -/
theorem substitute_known {s : Size} {v : Number} (hs : s.Integral) (hupper : upper.Integral)
    (hbelow : lower.Below upper) (h : s.evaluate lower = .ok v) :
    Yields (· = .literal v) (s.substitute upper) := by
  refine (s.substitute_yields upper).mono fun t ht _ => ?_
  have hstill := substitute_later hs hupper hbelow (evaluate_eq_ok.mp h) ht
  exact (substitute_literal.mp hstill).symm

/-- A size that has come to a number yields that number later. -/
theorem evaluate_known {s : Size} {v : Number} (hs : s.Integral) (hupper : upper.Integral)
    (hbelow : lower.Below upper) (h : s.evaluate lower = .ok v) :
    Yields (· = v) (s.evaluate upper) := by
  refine (substitute_known hs hupper hbelow h).bind fun t _ ht => ?_
  subst ht
  exact rfl

end Size

/-! ## Environments -/

section

variable {env : Environment} {lower : Bindings} {size : Size} {n : Nat}

/-- **A size that is known unifies with its number**, and nothing is bound. -/
theorem Environment.unify_known [Unbounded] (hsize : size.Integral) (henv : env.bindings.Integral)
    (hbelow : lower.Below env.bindings) (h : size.CountsTo lower n) (relation : String)
    (source : Source) : Yields (· = env) (env.unify size (.ofNat n) relation source) := by
  refine (Size.substitute_known hsize henv hbelow h).bind fun t _ ht => ?_
  subst ht
  exact .of_ok (if_pos (Number.same_int_iff.mpr rfl)) rfl

/-- The sizes of all axes may be the same, and known. -/
theorem bindResults_known [Unbounded] (hsize : size.Integral) (henv : env.bindings.Integral)
    (hbelow : lower.Below env.bindings) (h : size.CountsTo lower n) (name : String)
    (axis count : Nat) : Yields (· = env) (bindResults name axis
      (List.replicate count (.ofNat n)) (List.replicate count size) env) := by
  induction count generalizing axis with
  | zero => exact rfl
  | succ count ih =>
      have hfirst := Environment.unify_known hsize henv hbelow h
        (toString name ++ " output axis " ++ toString axis) .function
      refine hfirst.bind fun middle _ hmiddle => ?_
      subst hmiddle
      exact ih (axis + 1)

omit [Arithmetic] in
/-- A symbol that is free is bound, unless the number is none that can be. -/
theorem Environment.bind_yields {symbol : String} (hfree : env.bindings.get? symbol = none)
    (value : Number) (source : Source) :
    Yields (fun _ => True) (env.bind symbol value source) := by
  have hfind : env.find? symbol = none := by
    rw [get?_bindings, get?, Option.map_eq_none_iff] at hfree
    exact hfree
  unfold bind
  rw [hfind]
  split
  · exact trivial
  · exact .inr rfl

/-- Equalities bind symbols that are free. -/
theorem bindEquality_yields (env : Environment) (equality : Equality) :
    Yields (fun _ => True) (bindEquality env equality) := by
  have hleft := equality.left.substitute_yields env.bindings
  have hright := equality.right.substitute_yields env.bindings
  refine hleft.bind fun left hl _ => hright.bind fun right hr _ => ?_
  split
  · have hfree := Size.mem_names_of_substitute hr (List.mem_singleton.mpr rfl)
    exact Environment.bind_yields hfree.2 _ .obligation
  · have hfree := Size.mem_names_of_substitute hl (List.mem_singleton.mpr rfl)
    exact Environment.bind_yields hfree.2 _ .obligation
  · exact trivial

/-- **Recorded equalities** are read one after the other, and only arithmetic can stop that. -/
theorem bindObligations_yields (env : Environment) (obligations : List Obligation) :
    Yields env.Grows (bindObligations env obligations) := by
  induction obligations generalizing env with
  | nil => exact .refl env
  | cons first rest ih =>
      refine (bindEquality_yields env first.equality).bind fun middle hmiddle _ => ?_
      exact (ih middle).mono fun final _ hfinal => (bindEquality_grows hmiddle).trans hfinal

end

/-! ## Views -/

namespace View

/-- Storage of one length on all axes, resolved. -/
def uniform (count n : Nat) : ResolvedView :=
  ⟨List.replicate count (.ofNat n), List.replicate count ⟨0, .ofNat n, false⟩, List.range count⟩

variable [Unbounded] {bindings lower upper : Bindings} {size : Size} {n : Nat}

omit [Arithmetic] [Unbounded] in
/-- Storage of one length shows the whole of it on all axes. -/
theorem shown_replicate (hsize : size.Integral) (count : Nat) :
    (contiguous (List.replicate count size)).shown =
      List.replicate count (.whole size false) := by
  have hsizes : ∀ s ∈ List.replicate count size, s.Integral := by
    intro s hs
    rwa [List.eq_of_mem_replicate hs]
  rw [shown_contiguous hsizes, List.map_replicate]

/-- Storage of one length has it on all axes. -/
theorem lengths_replicate (hsize : size.Integral) (count : Nat) :
    (contiguous (List.replicate count size)).lengths = .ok (List.replicate count size) := by
  rw [lengths_eq (contiguous_wellFormed _), shown_replicate hsize, List.map_replicate,
    AxisRange.length_whole hsize]

/-- **Storage of one length** is resolved once that length evaluates. -/
theorem resolve_uniform (hsize : size.Integral) (hb : bindings.Integral)
    (h : size.CountsTo bindings n) (count : Nat) :
    (contiguous (List.replicate count size)).resolve bindings = .ok (uniform count n) := by
  have hwhole : ResolvesTo bindings (.whole size false) ⟨0, .ofNat n, false⟩ :=
    ⟨0, n, ⟨rfl, h⟩, Int.le_refl 0, Int.natCast_nonneg n, rfl⟩
  have hranges : List.Forall₂ (ResolvesTo bindings)
      (List.replicate count (.whole size false)) (List.replicate count ⟨0, .ofNat n, false⟩) := by
    induction count with
    | zero => exact .nil
    | succ count ih => exact .cons hwhole ih
  have hintegral : ∀ range ∈ List.replicate count (AxisRange.whole size false),
      range.Integral := by
    intro range hr
    rw [List.eq_of_mem_replicate hr]
    exact .whole hsize false
  have hresolved : resolveFrom bindings 0 (List.replicate count (.whole size false)) =
      .ok (List.replicate count ⟨0, .ofNat n, false⟩) :=
    (resolveFrom_iff hintegral hb).mpr hranges
  have hlength : (Number.ofNat n).sub 0 = .ofNat n := by
    rw [Number.ofNat, show (0 : Number) = .int 0 from rfl, Number.sub_int_int, sub_zero]
  rw [resolve, ranges_eq (contiguous_wellFormed _), shown_replicate hsize]
  simp only [bind_eq_ok, pure_eq_ok, Except.ok.injEq, exists_eq_left', hresolved]
  rw [List.map_replicate, hlength]
  simp [uniform, contiguous]

/-- Storage of one length that is known is resolved to it. -/
theorem resolve_known (hsize : size.Integral) (hupper : upper.Integral)
    (hbelow : lower.Below upper) (h : size.CountsTo lower n) (count : Nat) :
    Yields (· = uniform count n) ((contiguous (List.replicate count size)).resolve upper) := by
  have hknown := Size.evaluate_known hsize hupper hbelow h
  cases hv : size.evaluate upper with
  | ok v =>
      obtain rfl := hknown.result hv
      exact .of_ok (resolve_uniform hsize hupper hv count) rfl
  | error fault =>
      rw [resolve, ranges_eq (contiguous_wellFormed _), shown_replicate hsize]
      cases count with
      | zero => exact rfl
      | succ count =>
          -- the first axis has asked for the length
          show Yields _ ((size.evaluate upper >>= _) >>= _)
          rw [hv]
          exact hknown.arithmetical hv

/-- The length of an axis of a view that is resolved is a number from then on. -/
theorem counts_of_resolve {v : View} (hv : v.WellFormed) (hi : v.Integral)
    (hb : bindings.Integral) {resolved : ResolvedView} (h : v.resolve bindings = .ok resolved)
    {axis : Nat} {range : AxisRange} (hrange : v.shown[axis]? = some range) :
    ∃ n, resolved.shape[axis]? = some (.ofNat n) ∧ range.length.CountsTo bindings n := by
  obtain ⟨ns, hns, hmeasured, _⟩ := measures_of_resolve hv hi hb h
  simp only [lengthsAt, lengths_eq hv, bind_eq_ok, Except.ok.injEq, exists_eq_left', mapM_eq_ok,
    hns, List.forall₂_map_right_iff] at hmeasured
  obtain ⟨hlength, hall⟩ := forall₂_iff_getElem?.mp hmeasured
  have hrange' : (v.shown.map AxisRange.length)[axis]? = some range.length := by
    rw [List.getElem?_map, hrange]
    rfl
  have hlt : axis < ns.length := hlength ▸ (List.getElem?_eq_some_iff.mp hrange').1
  refine ⟨ns[axis], ?_, hall axis _ _ hrange' (List.getElem?_eq_getElem hlt)⟩
  rw [hns, List.getElem?_map, List.getElem?_eq_getElem hlt]
  rfl

end View

end

end ShapeGraph
