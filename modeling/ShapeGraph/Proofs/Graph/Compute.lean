import ShapeGraph.Proofs.Graph.Found

/-!
# Computations keep their contracts

Elementwise operations, reductions and products lay their results out in storage
of their own.  What two operands have to agree on is known from the literals, or
the same term on both sides, or recorded; where the recorded equalities hold, it
holds in every case.

* `pairEqualities_ok`, `batchEqualities_ok` — what the recorded equalities of two
  operands come to;
* `pointwise_effect`, `binary_effect`, `reduce_effect`, `softmax_effect`,
  `matmul_effect` — the effect of each computation.
-/

namespace ShapeGraph

open ShapeGraph.Numeric (Arithmetic Number Unbounded)

/-- A list of two items or more ends in two items. -/
theorem exists_append_pair {α : Type} {l : List α} (h : 2 ≤ l.length) :
    ∃ batch p q, l = batch ++ [p, q] := by
  obtain ⟨p, q, hlast⟩ : ∃ p q, l.drop (l.length - 2) = [p, q] :=
    List.length_eq_two.mp (by simp; omega)
  exact ⟨l.take (l.length - 2), p, q, by rw [← hlast, List.take_append_drop]⟩

/-! ## Agreement of two operands -/

/-- Where the recorded equalities hold, two operands agree on every axis. -/
theorem pairEqualities_ok {operation : String} {left right : List Size} {axis : Nat}
    {equalities : List Equality} (hleft : ∀ s ∈ left, s.Integral)
    (hright : ∀ s ∈ right, s.Integral)
    (h : pairEqualities operation right axis left = .ok equalities) :
    (∀ e ∈ equalities, e.Integral) ∧ ∀ ρ, (∀ e ∈ equalities, e.Holds ρ) →
      left.map (Size.value ρ) = ((right.drop axis).take left.length).map (Size.value ρ) := by
  induction left generalizing axis equalities with
  | nil =>
      obtain rfl := Except.ok.inj h
      simp
  | cons length rest ih =>
      simp only [pairEqualities, bind_eq_ok, pure_eq_ok, lengthAt_eq_ok] at h
      obtain ⟨other, hother, first, hfirst, others, hothers, rfl⟩ := h
      obtain ⟨hlt, hget⟩ := List.getElem?_eq_some_iff.mp hother
      have hi := requireEqual_ok (hleft length List.mem_cons_self)
        (hright other (List.mem_of_getElem? hother)) hfirst
      have hrest := ih (fun s hs => hleft s (List.mem_cons_of_mem _ hs)) hothers
      refine ⟨List.forall_mem_append.mpr ⟨hi.1, hrest.1⟩, fun ρ hall => ?_⟩
      obtain ⟨hthis, hthose⟩ := List.forall_mem_append.mp hall
      rw [List.drop_eq_getElem_cons hlt, hget]
      simp [hi.2 ρ hthis, hrest.2 ρ hthose]

/-- Where the recorded equalities hold, two factors agree on the axes that they
share. -/
theorem batchEqualities_ok {left right : List Size} {axis count : Nat}
    {equalities : List Equality} (hleft : ∀ s ∈ left, s.Integral)
    (hright : ∀ s ∈ right, s.Integral)
    (h : batchEqualities left right axis count = .ok equalities) :
    (∀ e ∈ equalities, e.Integral) ∧ ∀ ρ, (∀ e ∈ equalities, e.Holds ρ) →
      ((left.drop axis).take count).map (Size.value ρ) =
        ((right.drop axis).take count).map (Size.value ρ) := by
  induction count generalizing axis equalities with
  | zero =>
      obtain rfl := Except.ok.inj h
      simp
  | succ count ih =>
      simp only [batchEqualities, bind_eq_ok, pure_eq_ok, lengthAt_eq_ok] at h
      obtain ⟨l, hl, r, hr, first, hfirst, others, hothers, rfl⟩ := h
      obtain ⟨hlt, hgetl⟩ := List.getElem?_eq_some_iff.mp hl
      obtain ⟨hrt, hgetr⟩ := List.getElem?_eq_some_iff.mp hr
      have hi := requireEqual_ok (hleft l (List.mem_of_getElem? hl))
        (hright r (List.mem_of_getElem? hr)) hfirst
      have hrest := ih hothers
      refine ⟨List.forall_mem_append.mpr ⟨hi.1, hrest.1⟩, fun ρ hall => ?_⟩
      obtain ⟨hthis, hthose⟩ := List.forall_mem_append.mp hall
      rw [List.drop_eq_getElem_cons hlt, List.drop_eq_getElem_cons hrt, hgetl, hgetr]
      simp only [List.take_succ_cons, List.map_cons, hi.2 ρ hthis]
      rw [hrest.2 ρ hthose]

/-- Where the recorded equalities hold, the inner sizes of two factors agree, and
so do their batch sizes if there are two batches. -/
theorem factors_ok {left right : List Size} {m n : Nat} {li ri width : Size}
    {inner batch : List Equality} (hl : ∀ s ∈ left, s.Integral) (hr : ∀ s ∈ right, s.Integral)
    (hm : left.length = m) (hn : right.length = n) (hleft : 2 ≤ m) (hright : n = 2 ∨ n = m)
    (hli : left[m - 1]? = some li) (hri : right[n - 2]? = some ri)
    (hinner : requireEqual "matmul" "inner dimension" li ri = .ok inner)
    (hbatch : (if n = m then batchEqualities left right 0 (m - 2) else pure []) = .ok batch)
    (hwidth : right[n - 1]? = some width) :
    (∀ e ∈ inner ++ batch, e.Integral) ∧ ∃ lb rows rb, left = lb ++ [rows, li] ∧
      right = rb ++ [ri, width] ∧ ∀ ρ, (∀ e ∈ inner ++ batch, e.Holds ρ) →
        li.value ρ = ri.value ρ ∧
          (rb = [] ∨ rb.map (Size.value ρ) = lb.map (Size.value ρ)) := by
  subst hm hn
  obtain ⟨lb, rows, last, rfl⟩ := exists_append_pair hleft
  obtain ⟨rb, first, column, rfl⟩ := exists_append_pair (l := right) (by omega)
  obtain rfl : last = li := by simpa using hli
  obtain rfl : first = ri := by simpa using hri
  obtain rfl : column = width := by simpa using hwidth
  have hagree := requireEqual_ok (hl last (by simp)) (hr first (by simp)) hinner
  have hshared : (∀ e ∈ batch, e.Integral) ∧ ∀ ρ, (∀ e ∈ batch, e.Holds ρ) →
      rb = [] ∨ rb.map (Size.value ρ) = lb.map (Size.value ρ) := by
    split at hbatch
    · next hranks =>
      have hlength : rb.length = lb.length := by simpa using hranks
      have hpairs := batchEqualities_ok hl hr hbatch
      refine ⟨hpairs.1, fun ρ hall => .inr ?_⟩
      have htake : (rb ++ [first, column]).take lb.length = rb := hlength ▸ List.take_left
      simpa [htake] using (hpairs.2 ρ hall).symm
    · next hranks =>
      obtain rfl := Except.ok.inj hbatch
      refine ⟨by simp, fun ρ _ => .inl (List.length_eq_zero_iff.mp ?_)⟩
      simp only [List.length_append, List.length_cons, List.length_nil] at hranks hright
      omega
  refine ⟨List.forall_mem_append.mpr ⟨hagree.1, hshared.1⟩, lb, rows, rb, rfl, rfl,
    fun ρ hall => ?_⟩
  obtain ⟨hin, hout⟩ := List.forall_mem_append.mp hall
  exact ⟨hagree.2 ρ hin, hshared.2 ρ hout⟩

section

variable [Arithmetic] [Unbounded] {g : Graph} {a b t : Tensor}

/-! ## Elementwise operations -/

/-- What has the shape and the lengths of its operand is sound if its contract is to have its
sizes. -/
theorem pointwise_sound (hg : g.WellFormed) (ht : g.Issued t) {kind : OpKind}
    (hview : kind.isView = false) (found : Found.Pointwise g kind t) {attributes : Entries Value}
    {inputs : List Nat} (hinputs : (found.draft attributes).inputs.mapM (g.inputId kind) =
      .ok inputs) (hkind : ∀ x, kind.Contract attributes [x] x) :
    (found.draft attributes).Sound g inputs := by
  have hop := ht.operand hg found.node_eq
  exact .pointwise hview hop (hop.lengths_ok found.lengths_eq) rfl rfl
    (inputs_eq (.cons hop.behind .nil) hinputs) rfl hkind

/-- An operation on every element inserts a node that meets its contract, or is refused. -/
theorem pointwise_effect (hg : g.WellFormed) (ht : g.Issued t) {kind : OpKind}
    (hview : kind.isView = false) (hkind : ∀ x, kind.Contract [] [x] x) :
    Effect g ((Build.pointwise kind t).perform g).1 ((Build.pointwise kind t).perform g).2 :=
  (Build.pointwise_derives kind t).effect fun found _ hinputs =>
    pointwise_sound hg ht hview found hinputs hkind

theorem scalar_effect (hg : g.WellFormed) (ht : g.Issued t) (op : ScalarOp) (value : Number) :
    Effect g ((Build.scalar op t value).perform g).1 ((Build.scalar op t value).perform g).2 :=
  (Build.scalar_derives op t value).effect fun found _ hinputs =>
    pointwise_sound hg ht rfl found hinputs fun _ => rfl

theorem softmax_effect (hg : g.WellFormed) (ht : g.Issued t) (axis : Number) :
    Effect g ((Build.softmax t axis).perform g).1 ((Build.softmax t axis).perform g).2 :=
  (Build.softmax_derives t axis).effect fun found _ hinputs =>
    pointwise_sound hg ht rfl found.toPointwise hinputs fun _ => rfl

/-- An operation on two tensors inserts a node that meets its contract if the equalities hold
that it relies on, or is refused. -/
theorem binary_effect (hg : g.WellFormed) (ha : g.Issued a) (hb : g.Issued b) (op : BinaryOp) :
    Effect g ((Build.binary op a b).perform g).1 ((Build.binary op a b).perform g).2 := by
  refine (Build.binary_derives op a b).effect fun found inputs hinputs => ?_
  have hopa := ha.operand hg found.first_eq
  have hopb := hb.operand hg found.second_eq
  have hl := hopa.graph_lengths_ok found.left_eq
  have hr := hopb.graph_lengths_ok found.right_eq
  obtain rfl := inputs_eq (.cons hopa.behind (.cons hopb.behind .nil)) hinputs
  have hagree := pairEqualities_ok hl.integral hr.integral found.equalities_eq
  refine .laid rfl rfl found.rank_eq hl.integral ?_ (Equality.forall_mem_pending.mpr hagree.1)
    fun ρ hρ hall => ?_
  · simp [hopa.id_lt, hopb.id_lt]
  · have hlength : found.right.length = found.left.length := by
      rw [hopa.length_lengths hl, hopb.length_lengths hr, Tensor.rank, Tensor.rank,
        found.ranks_eq]
    have hsame := hagree.2 ρ (Equality.forall_mem_pending.mp hall)
    rw [List.drop_zero, List.take_of_length_le (Nat.le_of_eq hlength), hl.values,
      hr.values] at hsame
    rw [hl.values]
    refine ⟨hopa.fits ρ hρ, ?_⟩
    show [g.extentAt ρ found.first.id, g.extentAt ρ found.second.id] = _
    rw [hopa.extentAt_eq, hopb.extentAt_eq, ← hsame]

/-! ## Reductions -/

/-- A reduction inserts a node that meets its contract, or is refused. -/
theorem reduce_effect (hg : g.WellFormed) (ht : g.Issued t) (op : ReduceOp) (axis : Number) :
    Effect g ((Build.reduce op t axis).perform g).1 ((Build.reduce op t axis).perform g).2 := by
  refine (Build.reduce_derives op t axis).effect fun found inputs hinputs => ?_
  have hop := ht.operand hg found.node_eq
  have hl := hop.lengths_ok found.lengths_eq
  obtain rfl := inputs_eq (.cons hop.behind .nil) hinputs
  refine .laid rfl rfl found.rank_eq ?_ ?_ ?_ fun ρ hρ _ => ?_
  · exact fun s hs => hl.integral s (Axis.mem_of_mem_removeAt hs)
  · simpa using hop.id_lt
  · exact List.forall_mem_nil _
  · rw [Axis.map_removeAt, hl.values]
    refine ⟨(hop.fits ρ hρ).removeAt found.position, _, found.position, ?_, rfl, ?_, rfl⟩
    · show [g.extentAt ρ found.node.id] = _
      rw [hop.extentAt_eq]
    · rw [hop.length_extent]
      exact Axis.position_lt found.position_eq

/-! ## Products -/

/-- The effect of a product.  Its factors are taken apart into batch sizes and the
last two sizes each. -/
theorem matmul_effect (hg : g.WellFormed) (ha : g.Issued a) (hb : g.Issued b) :
    Effect g ((Build.matmul a b).perform g).1 ((Build.matmul a b).perform g).2 := by
  refine (Build.matmul_derives a b).effect fun found inputs hinputs => ?_
  obtain ⟨⟨x, y, left, right, hx, hy, hleft, hright⟩, li, ri, inner, batch, column, width, hranks,
    hli, hri, hinner, hbatch, hcolumn, hwidth, hrank⟩ := found
  have hopa := ha.operand hg hx
  have hopb := hb.operand hg hy
  have hl := hopa.graph_lengths_ok hleft
  have hr := hopb.graph_lengths_ok hright
  obtain rfl := inputs_eq (.cons hopa.behind (.cons hopb.behind .nil)) hinputs
  obtain ⟨hintegral, lb, rows, rb, rfl, rfl, hagree⟩ :=
    factors_ok hl.integral hr.integral (hopa.length_lengths hl) (hopb.length_lengths hr)
      (by omega) (by omega) hli hri hinner hbatch hwidth
  have hrankb : b.rank = rb.length + 2 := by
    rw [← hopb.length_lengths hr]
    simp
  have hsizes : (lb ++ [rows, li]).dropLast = lb ++ [rows] := by simp
  have hview : View.contiguous ((lb ++ [rows, li]).dropLast ++ [width]) =
      .contiguous (lb ++ [rows] ++ [width]) := by rw [hsizes]
  refine .laid rfl hview hrank ?_ ?_ (Equality.forall_mem_pending.mpr hintegral) fun ρ hρ hall => ?_
  · have hli := hl.integral
    have hri := hr.integral
    simp only [List.mem_append, List.mem_cons, List.not_mem_nil, or_false] at hli hri ⊢
    rintro s ((hs | rfl) | rfl)
    · exact hli s (.inl hs)
    · exact hli _ (.inr (.inl rfl))
    · exact hri _ (.inr (.inr rfl))
  · simp [hopa.id_lt, hopb.id_lt]
  · obtain ⟨hinner, hbatch⟩ := hagree ρ (Equality.forall_mem_pending.mp hall)
    have hxv := hl.values ρ
    have hyv := hr.values ρ
    rw [List.map_append, List.map_append]
    refine ⟨.append ?_ (.singleton ?_), lb.map (Size.value ρ), rows.value ρ, li.value ρ,
      rb.map (Size.value ρ), width.value ρ, ?_, ?_, ?_⟩
    · have hfits := (hopa.fits ρ hρ).dropLast
      rw [← hxv, ← List.map_dropLast, hsizes, List.map_append] at hfits
      exact hfits
    · refine (hopb.fits ρ hρ).at_axis hcolumn ?_
      rw [← hyv, hrankb]
      simp
    · show [g.extentAt ρ x.id, g.extentAt ρ y.id] = _
      rw [hopa.extentAt_eq, hopb.extentAt_eq, ← hxv, ← hyv]
      simp [hinner]
    · simpa using hbatch
    · simp

end

end ShapeGraph
