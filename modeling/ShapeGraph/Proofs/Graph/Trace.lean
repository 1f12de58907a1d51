import ShapeGraph.Proofs.Graph.Origin

/-!
# Every recorded equality has an origin

Each operation that compares sizes records the two that it could not compare, in their
order.  So what an equality equates can be read off the operation that has recorded it.

* `requireEqual_mem` — what is recorded of a comparison;
* `pairEqualities_mem`, `batchEqualities_mem`, `factors_mem`, `joinEqualities_mem`,
  `alignAxes_mem`, `relabelEqualities_mem`, `declaredSizes_mem` — of the comparisons
  along all axes;
* `Command.traced` — a command keeps the invariant;
* `Session.run_traced` — any number of commands do.
-/

namespace ShapeGraph

open ShapeGraph.Numeric (Arithmetic Number Unbounded)

/-! ## Comparisons -/

/-- Two numbers are compared at once, so at least one side is none. -/
def Equality.Undecided (e : Equality) : Prop :=
  ∀ l r, e.left.value? = some l → e.right.value? ≠ some r

/-- A comparison records the two sizes that it is about, or nothing. -/
theorem requireEqual_mem {operation relation : String} {left right : Size}
    {equalities : List Equality} (h : requireEqual operation relation left right = .ok equalities)
    {e : Equality} (he : e ∈ equalities) :
    e = ⟨operation, relation, left, right⟩ ∧ e.Undecided := by
  unfold requireEqual at h
  split at h
  · obtain ⟨_, rfl⟩ := ite_ok_eq_ok.mp h
    cases he
  · next hundecided =>
    split at h
    · obtain rfl := Except.ok.inj h
      cases he
    · obtain rfl := Except.ok.inj h
      obtain rfl := List.mem_singleton.mp he
      exact ⟨rfl, hundecided⟩

/-- What is recorded on one axis and on those after it, where one side is of the axis. -/
theorem forall_mem_append_cons {side : Equality → Size} {P : Equality → Prop}
    {first others : List Equality} {size : Size} {rest : List Size}
    (hfirst : ∀ e ∈ first, side e = size ∧ P e) (hothers : ∀ e ∈ others, side e ∈ rest ∧ P e) :
    ∀ e ∈ first ++ others, side e ∈ size :: rest ∧ P e := by
  refine List.forall_mem_append.mpr ⟨fun e he => ?_, fun e he => ?_⟩
  · obtain ⟨rfl, hother⟩ := hfirst e he
    exact ⟨List.mem_cons_self, hother⟩
  · obtain ⟨hside, hother⟩ := hothers e he
    exact ⟨List.mem_cons_of_mem _ hside, hother⟩

/-- The sizes of a shape are still its sizes when a dimension is put in front. -/
theorem Shape.Sizes.later {shape : Shape} {size : Size} (h : shape.Sizes size) (dim : Dimension) :
    Shape.Sizes (dim :: shape) size := by
  obtain ⟨held, hmem, hsize⟩ := h
  exact ⟨held, List.mem_cons_of_mem _ hmem, hsize⟩

/-- A size of a shape is a literal or a bare symbol. -/
theorem Shape.Sizes.atomic {shape : Shape} {size : Size} (h : shape.Sizes size) : size.Atomic := by
  obtain ⟨dim, _, hsize⟩ := h
  exact Dimension.atomic_of_size hsize

section

variable {left right : List Size} {equalities : List Equality} {axis : Nat}

/-- Operands are compared by their own lengths, and what is recorded is undecided. -/
theorem pairEqualities_mem {operation : String}
    (h : pairEqualities operation right axis left = .ok equalities) :
    ∀ e ∈ equalities, e.left ∈ left ∧ e.right ∈ right ∧ e.Undecided := by
  induction left generalizing axis equalities with
  | nil =>
      obtain rfl := Except.ok.inj h
      exact List.forall_mem_nil _
  | cons length rest ih =>
      simp only [pairEqualities, bind_eq_ok, pure_eq_ok, lengthAt_eq_ok] at h
      obtain ⟨other, hother, first, hfirst, others, hothers, rfl⟩ := h
      refine forall_mem_append_cons (fun e he => ?_) (ih hothers)
      obtain ⟨rfl, hundecided⟩ := requireEqual_mem hfirst he
      exact ⟨rfl, List.mem_of_getElem? hother, hundecided⟩

/-- Batch axes are compared by lengths of both factors, and what is recorded is undecided. -/
theorem batchEqualities_mem {count : Nat}
    (h : batchEqualities left right axis count = .ok equalities) :
    ∀ e ∈ equalities, e.left ∈ left ∧ e.right ∈ right ∧ e.Undecided := by
  induction count generalizing axis equalities with
  | zero =>
      obtain rfl := Except.ok.inj h
      exact List.forall_mem_nil _
  | succ count ih =>
      simp only [batchEqualities, bind_eq_ok, pure_eq_ok, lengthAt_eq_ok] at h
      obtain ⟨l, hl, r, hr, first, hfirst, others, hothers, rfl⟩ := h
      refine List.forall_mem_append.mpr ⟨fun e he => ?_, ih hothers⟩
      obtain ⟨rfl, hundecided⟩ := requireEqual_mem hfirst he
      exact ⟨List.mem_of_getElem? hl, List.mem_of_getElem? hr, hundecided⟩

/-- The two parts of what a product compares. -/
theorem factors_mem {m n i j : Nat} {li ri : Size} {inner batch : List Equality}
    (hli : left[i]? = some li) (hri : right[j]? = some ri)
    (hinner : requireEqual "matmul" "inner dimension" li ri = .ok inner)
    (hbatch : (if n = m then batchEqualities left right 0 (m - 2) else pure []) = .ok batch) :
    ∀ e ∈ inner ++ batch, e.left ∈ left ∧ e.right ∈ right ∧ e.Undecided := by
  refine List.forall_mem_append.mpr ⟨fun e he => ?_, ?_⟩
  · obtain ⟨rfl, hundecided⟩ := requireEqual_mem hinner he
    exact ⟨List.mem_of_getElem? hli, List.mem_of_getElem? hri, hundecided⟩
  · split at hbatch
    · exact batchEqualities_mem hbatch
    · obtain rfl := pure_eq_ok.mp hbatch
      exact List.forall_mem_nil _

/-- Joined operands are compared by their own lengths, and what is recorded is undecided. -/
theorem joinEqualities_mem {joined : Nat}
    (h : joinEqualities joined right axis left = .ok equalities) :
    ∀ e ∈ equalities, e.left ∈ left ∧ e.right ∈ right ∧ e.Undecided := by
  induction left generalizing axis equalities with
  | nil =>
      obtain rfl := Except.ok.inj h
      exact List.forall_mem_nil _
  | cons length rest ih =>
      -- nothing is compared on the axis that is joined
      obtain ⟨first, hfirst, others, hothers, rfl⟩ : ∃ first,
          (∀ e ∈ first, e.left = length ∧ e.right ∈ right ∧ e.Undecided) ∧ ∃ others,
            joinEqualities joined right (axis + 1) rest = .ok others ∧
              equalities = first ++ others := by
        unfold joinEqualities at h
        split at h
        · simp only [bind_eq_ok, pure_eq_ok, exists_eq_left'] at h
          obtain ⟨others, hothers, rfl⟩ := h
          exact ⟨[], List.forall_mem_nil _, others, hothers, rfl⟩
        · simp only [bind_eq_ok, pure_eq_ok, lengthAt_eq_ok] at h
          obtain ⟨other, hother, first, hfirst, others, hothers, rfl⟩ := h
          refine ⟨first, fun e he => ?_, others, hothers, rfl⟩
          obtain ⟨rfl, hundecided⟩ := requireEqual_mem hfirst he
          exact ⟨rfl, List.mem_of_getElem? hother, hundecided⟩
      exact forall_mem_append_cons hfirst (ih hothers)

/-- A relabelling compares lengths with the sizes of dimensions. -/
theorem relabelEqualities_mem {lengths : List Size} {dims : Shape}
    (h : relabelEqualities lengths axis dims = .ok equalities) :
    ∀ e ∈ equalities, e.operation = "realize" ∧ e.left ∈ lengths ∧ dims.Sizes e.right ∧
      e.Undecided := by
  induction dims generalizing axis equalities with
  | nil =>
      obtain rfl := Except.ok.inj h
      exact List.forall_mem_nil _
  | cons dim dims ih =>
      have hlater : ∀ {e : Equality}, e.operation = "realize" ∧ e.left ∈ lengths ∧
          Shape.Sizes dims e.right ∧ e.Undecided → e.operation = "realize" ∧ e.left ∈ lengths ∧
          Shape.Sizes (dim :: dims) e.right ∧ e.Undecided :=
        fun ⟨hoperation, hleft, hright, hundecided⟩ =>
          ⟨hoperation, hleft, hright.later dim, hundecided⟩
      simp only [relabelEqualities, bind_eq_ok] at h
      obtain ⟨own, hown, h⟩ := h
      cases own with
      | none =>
          simp only [bind_eq_ok, pure_eq_ok, exists_eq_left', List.nil_append] at h
          obtain ⟨others, hothers, rfl⟩ := h
          exact fun e he => hlater (ih hothers e he)
      | some size =>
          simp only [bind_eq_ok, pure_eq_ok, lengthAt_eq_ok] at h
          obtain ⟨length, hlength, first, hfirst, others, hothers, rfl⟩ := h
          refine List.forall_mem_append.mpr ⟨fun e he => ?_, fun e he => hlater (ih hothers e he)⟩
          obtain ⟨rfl, hundecided⟩ := requireEqual_mem hfirst he
          exact ⟨rfl, List.mem_of_getElem? hlength, ⟨dim, List.mem_cons_self, hown⟩, hundecided⟩

/-- A declared size is compared with that of its dimension. -/
theorem declaredSizes_mem {id : Nat} {dims : Shape} {declared : List (Option Quantity)}
    {sizes : List Size} (h : declaredSizes id axis dims declared = .ok (sizes, equalities)) :
    ∀ e ∈ equalities, e.right ∈ sizes ∧ dims.Sizes e.left := by
  induction dims generalizing axis declared sizes equalities with
  | nil =>
      obtain ⟨rfl, rfl⟩ := Prod.mk.inj (Except.ok.inj h)
      exact List.forall_mem_nil _
  | cons dim dims ih =>
      obtain ⟨size, first, rest, others, hsize, hothers, rfl, rfl⟩ := declaredSizes_cons_ok h
      have hfirst : ∀ e ∈ first, e.right = size ∧ Shape.Sizes (dim :: dims) e.left := by
        intro e he
        cases hsize with
        | compared _ _ hdim hagreed =>
            obtain ⟨rfl, _⟩ := requireEqual_mem hagreed he
            exact ⟨rfl, dim, List.mem_cons_self, hdim⟩
        | _ => cases he
      refine forall_mem_append_cons hfirst fun e he => ?_
      obtain ⟨hright, hleft⟩ := ih hothers e he
      exact ⟨hright, hleft.later dim⟩

/-- The sizes of a reshape target are numbers and copied lengths. -/
theorem targetAxes_mem {shape : Shape} {lengths : List Size} {entries : List ReshapeEntry}
    {axes : List (Dimension × Size)} (h : targetAxes shape lengths axis entries = .ok axes) :
    ∀ s ∈ axes.map (·.2), (∃ n : Nat, s = .literal (.ofNat n)) ∨ s ∈ lengths := by
  induction entries generalizing axis axes with
  | nil =>
      obtain rfl := Except.ok.inj h
      exact List.forall_mem_nil _
  | cons entry rest ih =>
      simp only [targetAxes, bind_eq_ok, pure_eq_ok] at h
      obtain ⟨first, hfirst, others, hothers, rfl⟩ := h
      refine List.forall_mem_cons.mpr ⟨?_, ih hothers⟩
      cases entry with
      | size n =>
          obtain ⟨haccepted, rfl⟩ := ite_ok_eq_ok.mp hfirst
          obtain ⟨hsafe, hpositive⟩ := Bool.and_eq_true_iff.mp haccepted
          obtain ⟨n, rfl⟩ := Number.eq_int_of_isSafe hsafe
          have hpositive : 0 < n := of_decide_eq_true hpositive
          obtain ⟨count, rfl⟩ := Int.eq_ofNat_of_zero_le (Int.le_of_lt hpositive)
          exact .inl ⟨count, rfl⟩
      | copied source =>
          simp only [targetAxis] at hfirst
          split at hfirst
          · split at hfirst
            · simp only [bind_eq_ok, pure_eq_ok, lengthAt_eq_ok] at hfirst
              obtain ⟨_, _, length, hlength, rfl⟩ := hfirst
              exact .inr (List.mem_of_getElem? hlength)
            · cases hfirst
          · cases hfirst

variable [Arithmetic]

/-- An expansion compares lengths with the sizes of dimensions. -/
theorem alignAxes_mem {target : Shape} {offset : Nat} {lengths : List Size}
    {view aligned : View}
    (h : alignAxes target offset axis lengths view = .ok (aligned, equalities)) :
    ∀ e ∈ equalities, e.left ∈ lengths ∧ target.Sizes e.right ∧ e.Undecided := by
  induction lengths generalizing axis view equalities with
  | nil =>
      obtain ⟨_, rfl⟩ := Prod.mk.inj (Except.ok.inj h)
      exact List.forall_mem_nil _
  | cons length rest ih =>
      -- nothing is compared on an axis that is repeated, or that the target leaves open
      obtain ⟨first, hfirst, middle, others, hothers, rfl⟩ : ∃ first,
          (∀ e ∈ first, e.left = length ∧ target.Sizes e.right ∧ e.Undecided) ∧
          ∃ middle others,
            alignAxes target offset (axis + 1) rest middle = .ok (aligned, others) ∧
              equalities = first ++ others := by
        simp only [alignAxes, bind_eq_ok] at h
        obtain ⟨own, hown, h⟩ := h
        cases own with
        | none =>
            simp only [bind_eq_ok, pure_eq_ok, exists_eq_left', Prod.mk.injEq] at h
            obtain ⟨⟨_, others⟩, hothers, rfl, rfl⟩ := h
            exact ⟨[], List.forall_mem_nil _, view, others, hothers, rfl⟩
        | some size =>
            simp only at h
            split at h
            · simp only [bind_eq_ok, pure_eq_ok, exists_eq_left', Prod.mk.injEq] at h
              obtain ⟨middle, _, ⟨_, others⟩, hothers, rfl, rfl⟩ := h
              exact ⟨[], List.forall_mem_nil _, middle, others, hothers, rfl⟩
            · simp only [bind_eq_ok, pure_eq_ok, exists_eq_left', Prod.mk.injEq] at h
              obtain ⟨first, hfirst, ⟨_, others⟩, hothers, rfl, rfl⟩ := h
              refine ⟨first, fun e he => ?_, view, others, hothers, rfl⟩
              obtain ⟨rfl, hundecided⟩ := requireEqual_mem hfirst he
              exact ⟨rfl, Shape.sizes_of_expansion hown, hundecided⟩
      exact forall_mem_append_cons hfirst (ih hothers)

end

/-! ## Calls -/

section

variable [Arithmetic] {g : Graph} {t a b : Tensor}

/-- Sizes that the operands determine are where an equality comes from. -/
theorem Equality.Origin.of_operands {left right : List Size} {draft : Draft} {inputs : List Nat}
    (hleft : ∀ s ∈ left, g.Determines g.size s) (hright : ∀ s ∈ right, g.Determines g.size s)
    {e : Equality} (he : e.left ∈ left ∧ e.right ∈ right ∧ e.Undecided) :
    e.Origin (g.append draft inputs) g.size := by
  have hext := Graph.append_extends g draft inputs
  exact .operands ((hleft _ he.1).later hext le_rfl) ((hright _ he.2.1).later hext le_rfl)

/-- A product of sizes that are determined is determined. -/
theorem Graph.determines_product [Unbounded] {place : Nat} {sizes : List Size}
    (hsizes : ∀ s ∈ sizes, s.Integral) (h : ∀ s ∈ sizes, g.Determines place s) :
    g.Determines place (Size.product sizes) := fun bindings hb hbefore =>
  .product hsizes hb fun s hs => h s hs bindings hb hbefore

namespace Build

/-- An input records nothing. -/
theorem newTensor_traced (hg : g.Traced) (name : String) (shape : Shape) :
    ((newTensor name shape).perform g).2.Traced :=
  (newTensor_derives name shape).traced_of_none hg fun _ => rfl

theorem constant_traced (hg : g.Traced) (value : Number) :
    ((constant value).perform g).2.Traced :=
  (constant_derives value).traced_of_none hg fun _ => rfl

theorem pointwise_traced (hg : g.Traced) (kind : OpKind) (t : Tensor) :
    ((pointwise kind t).perform g).2.Traced :=
  (pointwise_derives kind t).traced_of_none hg fun _ => rfl

theorem scalar_traced (hg : g.Traced) (op : ScalarOp) (t : Tensor) (value : Number) :
    ((scalar op t value).perform g).2.Traced :=
  (scalar_derives op t value).traced_of_none hg fun _ => rfl

theorem reduce_traced (hg : g.Traced) (op : ReduceOp) (t : Tensor) (axis : Number) :
    ((reduce op t axis).perform g).2.Traced :=
  (reduce_derives op t axis).traced_of_none hg fun _ => rfl

theorem softmax_traced (hg : g.Traced) (t : Tensor) (axis : Number) :
    ((softmax t axis).perform g).2.Traced :=
  (softmax_derives t axis).traced_of_none hg fun _ => rfl

theorem slice_traced (hg : g.Traced) (t : Tensor) (specs : List RangeSpec) :
    ((slice t specs).perform g).2.Traced :=
  (slice_derives t specs).traced_of_none hg fun _ => rfl

theorem permute_traced (hg : g.Traced) (t : Tensor) (axes : List Number) :
    ((permute t axes).perform g).2.Traced :=
  (permute_derives t axes).traced_of_none hg fun _ => rfl

theorem expand_traced (hg : g.Traced) (t : Tensor) (axis : Number) (dim : Dimension) :
    ((expand t axis dim).perform g).2.Traced :=
  (expand_derives t axis dim).traced_of_none hg fun _ => rfl

variable [Unbounded]

/-- A function compares what is declared for it with its dimensions. -/
theorem addFunction_traced (hg : g.Traced) (name : String) (tensors : List Tensor)
    (shape : Shape) (payload : Payload) {declared : Option (List (Option Quantity))}
    (hdeclared : ∀ given, declared = some given → ∀ q, some q ∈ given → q.Integral) :
    ((addFunction name tensors shape payload declared).perform g).2.Traced := by
  refine (addFunction_derives name tensors shape payload declared).traced hg (fun _ => rfl)
    fun found inputs e he => ?_
  have hintegral := (found.sizes_ok hdeclared).1
  obtain ⟨hright, hleft⟩ := declaredSizes_mem found.sizes_eq e he
  have hview := View.contiguous_integral hintegral
  refine .declared (Graph.append_last hview) rfl hleft.atomic ?_
  show e.right ∈ (View.contiguous found.sizes).axisLengths
  rwa [View.axisLengths_contiguous hintegral]

/-- An operation on two tensors records equalities between their lengths, on the new node. -/
theorem binary_traced (hg : g.WellFormed) (htraced : g.Traced) (ha : g.Issued a)
    (hb : g.Issued b) (op : BinaryOp) : ((binary op a b).perform g).2.Traced :=
  (binary_derives op a b).traced htraced (fun _ => rfl) fun found _ e he =>
    .of_operands (ha.determines hg found.left_eq) (hb.determines hg found.right_eq)
      (pairEqualities_mem found.equalities_eq e he)

theorem concat_traced (hg : g.WellFormed) (htraced : g.Traced) (ha : g.Issued a)
    (hb : g.Issued b) (axis : Number) : ((concat a b axis).perform g).2.Traced :=
  (concat_derives a b axis).traced htraced (fun _ => rfl) fun found _ e he =>
    .of_operands (ha.determines hg found.left_eq) (hb.determines hg found.right_eq)
      (joinEqualities_mem found.equalities_eq e he)

/-- A product of matrices records equalities between lengths of its factors, on the new node. -/
theorem matmul_traced (hg : g.WellFormed) (htraced : g.Traced) (ha : g.Issued a)
    (hb : g.Issued b) : ((matmul a b).perform g).2.Traced :=
  (matmul_derives a b).traced htraced (fun _ => rfl) fun found _ e he =>
    .of_operands (ha.determines hg found.left_eq) (hb.determines hg found.right_eq)
      (factors_mem found.columns_eq found.rows_eq found.inner_eq found.batch_eq e he)

/-- An expansion to a shape records equalities between its operand and the target, on the new
node. -/
theorem expandTo_traced (hg : g.WellFormed) (htraced : g.Traced) (ht : g.Issued t)
    (target : Shape) : ((expandTo t target).perform g).2.Traced := by
  refine (expandTo_derives t target).traced htraced (fun _ => rfl) fun found inputs e he => ?_
  obtain ⟨hleft, hright, _⟩ := alignAxes_mem found.aligned_eq e he
  have hdetermined := (ht.operand hg found.node_eq).determines found.lengths_eq e.left hleft
  exact .expanded (hdetermined.later (Graph.append_extends g _ inputs) le_rfl) hright.atomic

omit [Unbounded] in
/-- A relabelling records equalities between axes of a node and dimensions, on that node. -/
theorem realize_traced (hg : g.WellFormed) (htraced : g.Traced) (ht : g.Issued t)
    (shape : Shape) : ((realize t shape).perform g).2.Traced := by
  rcases realize_cases t shape with ⟨fault, h⟩ | ⟨found, h⟩ <;> rw [h]
  · exact htraced
  · have hop := ht.operand hg found.node_eq
    refine Graph.relying_traced htraced hop.id_lt fun e he => ?_
    obtain ⟨hoperation, hleft, hright, _⟩ := relabelEqualities_mem found.equalities_eq e he
    rw [View.axisLengths_eq hop.wellFormed found.lengths_eq] at hleft
    exact .relabelled hop.at_id hoperation hleft hright.atomic

/-- A reshape compares two products, of lengths and of sizes that are literals or
lengths. -/
theorem reshaped_origin {lengths : List Size} (hintegral : ∀ s ∈ lengths, s.Integral)
    (hlengths : ∀ s ∈ lengths, g.Determines g.size s) {shape : Shape} {position : Nat}
    {target : List ReshapeEntry} {axes : List (Dimension × Size)}
    (haxes : targetAxes shape lengths position target = .ok axes) {relation : String}
    {equalities : List Equality} (hequalities : requireEqual "reshape" relation
      (Size.product lengths) (Size.product (axes.map (·.2))) = .ok equalities)
    {g' : Graph} (he : g'.Extends g) {place : Nat} (hplace : g.size ≤ place) :
    ∀ e ∈ equalities, e.Origin g' place := by
  intro e hmem
  obtain ⟨rfl, _⟩ := requireEqual_mem hequalities hmem
  have hsizes : ∀ s ∈ axes.map (·.2), g.Determines g.size s := by
    intro s hs
    rcases targetAxes_mem haxes s hs with ⟨n, rfl⟩ | hlength
    · exact fun _ _ _ => Size.settled_literal (.ofNat n)
    · exact hlengths s hlength
  have hheld := Graph.determines_product hintegral hlengths
  have hwanted := Graph.determines_product (targetAxes_ok hintegral haxes).1 hsizes
  exact .operands (hheld.later he hplace) (hwanted.later he hplace)

/-- A view that is not contiguous is laid out first, and nothing is compared for that. -/
theorem reshape_traced (hg : g.WellFormed) (htraced : g.Traced) (ht : g.Issued t)
    (target : List ReshapeEntry) : ((reshape t target).perform g).2.Traced := by
  have horigin : ∀ (found : Found.Reshape g t target) (g' : Graph) (source : Tensor)
      (inputs : List Nat), g'.Extends g → g.size ≤ g'.size →
        ∀ e ∈ found.equalities, e.Origin (g'.append (found.draft source) inputs) g'.size := by
    intro found g' source inputs hext hsize
    have hop := ht.operand hg found.node_eq
    have hl := hop.lengths_ok found.lengths_eq
    have haxes := found.axes_eq
    have hequalities := found.equalities_eq
    rw [Size.pinned_of_integral hl.integral] at haxes hequalities
    exact reshaped_origin hl.integral (hop.determines found.lengths_eq) haxes hequalities
      ((Graph.append_extends g' _ inputs).trans hext) hsize
  rcases reshape_cases t target with ⟨fault, h⟩ | ⟨found, ⟨_, h⟩ | ⟨first, h⟩⟩ <;> rw [h]
  · exact htraced
  · exact Graph.append_traced htraced rfl (horigin found g t _ (.refl g) le_rfl)
  · have hlaid := Graph.append_extends g (first.draft []) [first.node.id]
    have hnone : (first.draft []).pending = [] := rfl
    have hfirst := Graph.append_traced_of_none htraced hnone [first.node.id]
    exact Graph.append_traced hfirst rfl (horigin found _ _ _ hlaid (by simp))

/-- What a generator declares is a length of its reference. -/
theorem traced_of_reference (hg : g.WellFormed) (htraced : g.Traced) (ht : g.Issued t)
    {operation : String} {axis : Number} {next : Nat × Option Size × Dimension → Build Tensor}
    (h : ∀ k length dim, (∀ size, length = some size → size.Integral) →
      ((next (k, length, dim)).perform g).2.Traced) :
    ((referenceAxis operation t axis >>= next).perform g).2.Traced :=
  left_of_read htraced fun ⟨k, length, dim⟩ hread =>
    h k length dim (referenceAxis_integral hg ht hread)

/-- The positions along an axis are declared with a length that is determined by earlier nodes.
-/
theorem arange_traced (hg : g.WellFormed) (htraced : g.Traced) (ht : g.Issued t)
    (axis : Number) : ((arange t axis).perform g).2.Traced := by
  exact traced_of_reference hg htraced ht fun k length dim hlength =>
    addFunction_traced htraced _ _ _ _ (replicated_integral hlength 1)

theorem causalMask_traced (hg : g.WellFormed) (htraced : g.Traced) (ht : g.Issued t)
    (axis : Number) : ((causalMask t axis).perform g).2.Traced := by
  exact traced_of_reference hg htraced ht fun k length dim hlength =>
    addFunction_traced htraced _ _ _ _ (replicated_integral hlength 2)

end Build

variable [Unbounded]

/-- **A command records only equalities that have an origin.** -/
theorem Command.traced {issued : List Tensor} (hg : g.WellFormed)
    (hissued : ∀ t ∈ issued, g.Issued t) {command : Command} (hc : command.Integral)
    (htraced : g.Traced) : ((command.step issued).perform g).2.Traced := by
  open Build in
  cases command with
  | newTensor name shape => exact newTensor_traced htraced name shape
  | constant value => exact constant_traced htraced value
  | addFunction name inputs shape payload sizes =>
      exact left_of_operands htraced fun tensors =>
        addFunction_traced htraced name tensors shape payload hc
  | realize t shape =>
      exact left_of_operand htraced fun t ht => realize_traced hg htraced (hissued t ht) shape
  | slice t specs => exact left_of_operand htraced fun t _ => slice_traced htraced t specs
  | permute t axes => exact left_of_operand htraced fun t _ => permute_traced htraced t axes
  | reshape t target =>
      exact left_of_operand htraced fun t ht => reshape_traced hg htraced (hissued t ht) target
  | expand t axis dim =>
      exact left_of_operand htraced fun t _ => expand_traced htraced t axis dim
  | expandTo t target =>
      exact left_of_operand htraced fun t ht => expandTo_traced hg htraced (hissued t ht) target
  | concat a b axis =>
      exact left_of_operand htraced fun a ha => left_of_operand htraced fun b hb =>
        concat_traced hg htraced (hissued a ha) (hissued b hb) axis
  | contiguous t =>
      exact left_of_operand htraced fun t _ => pointwise_traced htraced .contiguous t
  | unary op t =>
      exact left_of_operand htraced fun t _ => pointwise_traced htraced (.unary op) t
  | binary op a b =>
      exact left_of_operand htraced fun a ha => left_of_operand htraced fun b hb =>
        binary_traced hg htraced (hissued a ha) (hissued b hb) op
  | scalar op t value =>
      exact left_of_operand htraced fun t _ => scalar_traced htraced op t value
  | reduce op t axis => exact left_of_operand htraced fun t _ => reduce_traced htraced op t axis
  | softmax t axis => exact left_of_operand htraced fun t _ => softmax_traced htraced t axis
  | matmul a b =>
      exact left_of_operand htraced fun a ha => left_of_operand htraced fun b hb =>
        matmul_traced hg htraced (hissued a ha) (hissued b hb)
  | arange like axis =>
      exact left_of_operand htraced fun t ht => arange_traced hg htraced (hissued t ht) axis
  | causalMask like axis =>
      exact left_of_operand htraced fun t ht => causalMask_traced hg htraced (hissued t ht) axis

namespace Session

variable {s : Session} {command : Command} {commands : List Command}

omit [Unbounded] in
/-- A session that has issued nothing has recorded nothing. -/
theorem start_traced (id : Nat) (settings : GraphSettings) : (start id settings).graph.Traced :=
  List.forall_mem_nil _

/-- One command keeps every recorded equality traced. -/
theorem step_traced (hs : s.WellFormed) (hc : command.Integral) (htraced : s.graph.Traced) :
    (s.step command).graph.Traced := by
  rw [step_graph]
  exact command.traced hs.graph hs.issued hc htraced

/-- **Whatever commands are run**, every recorded equality has an origin. -/
theorem run_traced (hs : s.WellFormed) (hc : ∀ command ∈ commands, command.Integral)
    (htraced : s.graph.Traced) : (s.run commands).graph.Traced := by
  induction commands generalizing s with
  | nil => exact htraced
  | cons command rest ih =>
      obtain ⟨hcommand, hrest⟩ := List.forall_mem_cons.mp hc
      have hstep := (step_wellFormed hs hcommand).1
      exact ih hstep hrest (step_traced hs hcommand htraced)

end Session

end

end ShapeGraph
