import Mathlib.Algebra.Group.Nat.Defs
import ShapeGraph.Proofs.Size.Parts
import ShapeGraph.Proofs.View.Commutation
import ShapeGraph.Proofs.View.Evaluation
import ShapeGraph.Proofs.View.Reachable

/-!
# Lengths and their values

The length of an axis is made twice.  While symbols are open it is the difference of the
bounds of its range, put together by the rules for sizes; once they are bound both bounds are
evaluated first, and what is taken apart are numbers.  The two agree wherever the view
resolves, for a difference evaluates if both of its sides do, whatever its rules have cancelled
by then.  The number of elements is the product of the lengths and agrees with that of the
resolved shape.

* `ResolvesTo.length` — the length of one range that resolves;
* `resolves_lengths` — the lengths of all axes, with integers of any size;
* `lengths_evaluate` — lengths and the number of elements, in the exact range.
-/

namespace ShapeGraph

open ShapeGraph.Numeric (Arithmetic Exact Number Unbounded)

/-- A size evaluates to a number of items. -/
def Size.CountsTo [Arithmetic] (bindings : Bindings) (s : Size) (n : Nat) : Prop :=
  s.evaluate bindings = .ok (.ofNat n)

/-- A product of sizes comes to the product of what they come to. -/
theorem Size.CountsTo.product [Arithmetic] [Unbounded] {bindings : Bindings} {sizes : List Size}
    {ns : List Nat} (hi : ∀ s ∈ sizes, s.Integral) (hb : bindings.Integral)
    (h : List.Forall₂ (CountsTo bindings) sizes ns) : (product sizes).CountsTo bindings ns.prod := by
  have hfold : ∀ (first : Size) (n : Nat), first.Integral → first.CountsTo bindings n →
      (sizes.foldl mul first).CountsTo bindings (n * ns.prod) := by
    induction h with
    | nil =>
        intro first n _ hn
        rwa [List.prod_nil, Nat.mul_one]
    | @cons size value rest others hsize hothers ih =>
        obtain ⟨hsi, hrest⟩ := List.forall_mem_cons.mp hi
        intro first n hfirst hn
        have hproduct := (mul_means hfirst.means hsi.means).integral
        have hnext := evaluate_mul hfirst hsi hb hn hsize
        rw [List.prod_cons, ← Nat.mul_assoc]
        exact ih hrest (first.mul size) (n * value) hproduct hnext
  have hall := hfold one 1 ⟨1, rfl⟩ rfl
  rwa [Nat.one_mul] at hall

namespace View

variable {v : View} {bindings : Bindings}

section

variable [Arithmetic]

/-- The length of each logical axis, computed as a size and evaluated. -/
def lengthsAt (bindings : Bindings) (v : View) : Except Fault (List Number) := do
  (← v.lengths).mapM (Size.evaluate bindings)

/-- The number of elements, computed as a size and evaluated. -/
def countAt (bindings : Bindings) (v : View) : Except Fault Number := do
  (← v.elementCount).evaluate bindings

variable [Unbounded]

/-- **The length of a range that resolves** evaluates to that of the resolved one, which is not
negative. -/
theorem ResolvesTo.length {range : AxisRange} {concrete : ConcreteRange} (hi : range.Integral)
    (hb : bindings.Integral) (h : ResolvesTo bindings range concrete) :
    ∃ n : Nat, concrete.stop.sub concrete.start = .ofNat n ∧
      range.length.CountsTo bindings n := by
  obtain ⟨first, last, ⟨hstart, hstop⟩, -, hproper, rfl⟩ := h
  have hlength : ((last - first).toNat : Int) = last - first := Int.toNat_of_nonneg (by omega)
  refine ⟨(last - first).toNat, ?_, ?_⟩
  · rw [Number.sub_int_int, Number.ofNat, hlength]
  · rw [Size.CountsTo, Number.ofNat, hlength]
    exact Size.evaluate_sub hi.stop hi.start hb hstop hstart

/-- The lengths of all ranges are those of the resolved ones. -/
theorem resolves_lengths {ranges : List AxisRange} {resolved : List ConcreteRange}
    (hi : ∀ range ∈ ranges, range.Integral) (hb : bindings.Integral)
    (h : List.Forall₂ (ResolvesTo bindings) ranges resolved) :
    ∃ ns : List Nat, (resolved.map fun range => range.stop.sub range.start) = ns.map .ofNat ∧
      List.Forall₂ (Size.CountsTo bindings) (ranges.map AxisRange.length) ns := by
  induction h with
  | nil => exact ⟨[], rfl, .nil⟩
  | cons hrange _ ih =>
      obtain ⟨hthis, hrest⟩ := List.forall_mem_cons.mp hi
      obtain ⟨n, hn, hlength⟩ := hrange.length hthis hb
      obtain ⟨ns, hns, hlengths⟩ := ih hrest
      exact ⟨n :: ns, congrArg₂ List.cons hn hns, .cons hlength hlengths⟩

/-- **Where a view resolves**, its lengths come to the resolved shape, and the number of its
elements to the product of that. -/
theorem measures_of_resolve (hv : v.WellFormed) (hi : v.Integral) (hb : bindings.Integral)
    {resolved : ResolvedView} (h : v.resolve bindings = .ok resolved) :
    ∃ ns : List Nat, resolved.shape = ns.map .ofNat ∧
      v.lengthsAt bindings = .ok resolved.shape ∧ v.countAt bindings = .ok (.ofNat ns.prod) := by
  have hshown := fun range (hr : range ∈ v.shown) => hi.of_mem_shown hr
  simp only [resolve, ranges_eq hv, bind_eq_ok, pure_eq_ok, Except.ok.injEq, exists_eq_left',
    resolveFrom_iff hshown hb] at h
  obtain ⟨ranges, hranges, rfl⟩ := h
  obtain ⟨ns, hns, hlengths⟩ := resolves_lengths hshown hb hranges
  refine ⟨ns, hns, ?_, ?_⟩
  · simp only [lengthsAt, lengths_eq hv, bind_eq_ok, Except.ok.injEq, exists_eq_left', mapM_eq_ok,
      hns, List.forall₂_map_right_iff]
    exact hlengths
  · have hsizes : ∀ s ∈ v.shown.map AxisRange.length, s.Integral := by
      simp only [List.mem_map, forall_exists_index, and_imp, forall_apply_eq_imp_iff₂]
      exact fun range hr => (AxisRange.length_means (hshown range hr)).integral
    simp only [countAt, elementCount, lengths_eq hv, bind_eq_ok, pure_eq_ok, Except.ok.injEq,
      exists_eq_left']
    exact Size.CountsTo.product hsizes hb hlengths

end

/-- **Symbolic lengths agree with concrete ranges.**  Where a view that can be reached resolves,
every length evaluates to the resolved one on its axis, which is not negative, and the number of
elements evaluates to the product of all of them. -/
theorem lengths_evaluate (hv : v.Reachable) (hb : bindings.Integral) {resolved : ResolvedView}
    (hresolve : Exact fun _ => v.resolve bindings)
    (hlengths : Exact fun _ => v.lengthsAt bindings)
    (hcount : Exact fun _ => v.countAt bindings)
    (h : v.resolve bindings = .ok resolved) :
    ∃ (lengths : List Size) (count : Size) (ns : List Nat),
      v.lengths = .ok lengths ∧ v.elementCount = .ok count ∧
        resolved.shape = ns.map .ofNat ∧
        List.Forall₂ (Size.CountsTo bindings) lengths ns ∧ count.CountsTo bindings ns.prod := by
  obtain ⟨ns, hns, hmeasured, hcounted⟩ :=
    @measures_of_resolve _ _ .unbounded _ hv.wellFormed hv.integral hb _ (hresolve.symm.trans h)
  obtain ⟨lengths, hmade, hall⟩ := bind_eq_ok.mp (hlengths.trans hmeasured)
  obtain ⟨count, hproduct, hvalue⟩ := bind_eq_ok.mp (hcount.trans hcounted)
  refine ⟨lengths, count, ns, hmade, hproduct, hns, ?_, hvalue⟩
  rw [hns, mapM_eq_ok, List.forall₂_map_right_iff] at hall
  exact hall

/-- The window, repeated `k` times. -/
def repeatedWindow : View :=
  ⟨window.axes ++ [.whole (.symbol "k") true], [1, 0]⟩

/-- The repeated window is a view that calls end in. -/
theorem reachable_repeatedWindow : repeatedWindow.Reachable :=
  @Reachable.expand window repeatedWindow 0 (.size (.symbol "k")) reachable_window trivial rfl

/-- Two rows three times are six elements: with the symbols bound, the length `k` comes to three
and the one that the window was clamped to comes to two. -/
theorem lengths_evaluate_repeatedWindow :
    ∃ lengths count, repeatedWindow.lengths = .ok lengths ∧
      repeatedWindow.elementCount = .ok count ∧
      List.Forall₂ (Size.CountsTo [("n", 4), ("m", 3), ("k", 3)]) lengths [3, 2] ∧
      count.CountsTo [("n", 4), ("m", 3), ("k", 3)] 6 := by
  have hb : Bindings.Integral [("n", 4), ("m", 3), ("k", 3)] :=
    ((Bindings.integral_nil.cons "k" 3).cons "m" 3).cons "n" 4
  have hresolved : repeatedWindow.resolve [("n", 4), ("m", 3), ("k", 3)] =
      .ok ⟨[3, 2], [⟨0, 3, true⟩, ⟨4, 6, false⟩], [1, 0]⟩ := rfl
  obtain ⟨lengths, count, ns, hlengths, hcount, hns, hall, hproduct⟩ :=
    lengths_evaluate reachable_repeatedWindow hb (.of_eq _ hresolved rfl)
      (.of_eq (.ok [3, 2]) rfl rfl) (.of_eq (.ok 6) rfl rfl) hresolved
  have hinjective : ∀ m n, Number.ofNat m = Number.ofNat n → m = n :=
    fun m n h => Int.ofNat.inj (Number.int.inj h)
  obtain rfl : [3, 2] = ns := (List.map_inj_right hinjective).mp hns
  exact ⟨lengths, count, hlengths, hcount, hall, hproduct⟩

end View

end ShapeGraph
