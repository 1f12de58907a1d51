import ShapeGraph.Proofs.Graph.Compute

/-!
# Leaves and relabelling keep their contracts

The sizes of a leaf are those of its dimensions, or declared and then required to
be those, or symbols of its own.  A tensor that is relabelled relies on the
equalities that make its lengths the sizes of its new shape.

* `LeafSize`, `declaredSizes_cons_ok` — where the sizes of a host computation are
  from;
* `leafSizes_ok`, `declaredSizes_ok`, `relabelEqualities_ok` — the sizes of a
  shape fit it, where the recorded equalities hold;
* `newTensor_effect`, `constant_effect`, `addFunction_effect`, `realize_effect`,
  `arange_effect`, `causalMask_effect` — the effect of each call.
-/

namespace ShapeGraph

open ShapeGraph.Numeric (Arithmetic Number Unbounded)

/-! ## Sizes of leaves -/

/-- The size of an axis that nothing is declared for fits its dimension. -/
theorem own_size_fits {dim : Dimension} {own : Option Size} (h : dim.size? = .ok own)
    (name : String) : (own.getD (.symbol name)).Integral ∧
      ∀ ρ, dim.Fits ρ ((own.getD (.symbol name)).value ρ) := by
  cases own with
  | none =>
      obtain rfl := Dimension.eq_anonymous h
      exact ⟨trivial, fun ρ => .inl rfl⟩
  | some size => exact Dimension.fits_of_size h

/-- The sizes of an input are made of integers, and its shape fits them. -/
theorem leafSizes_ok {id axis : Nat} {dims : Shape} {sizes : List Size}
    (h : leafSizes id axis dims = .ok sizes) :
    (∀ s ∈ sizes, s.Integral) ∧ ∀ ρ, dims.Fits ρ (sizes.map (Size.value ρ)) := by
  induction dims generalizing axis sizes with
  | nil =>
      obtain rfl := Except.ok.inj h
      exact ⟨by simp, fun ρ => .nil⟩
  | cons dim dims ih =>
      simp only [leafSizes, bind_eq_ok, pure_eq_ok] at h
      obtain ⟨own, hown, rest, hrest, rfl⟩ := h
      obtain ⟨hi, hfits⟩ := own_size_fits hown (localSymbol (.ofNat id) (.ofNat axis))
      obtain ⟨hri, hrfits⟩ := ih hrest
      exact ⟨List.forall_mem_cons.mpr ⟨hi, hri⟩, fun ρ => .cons (hfits ρ) (hrfits ρ)⟩

/-- Where the size of an axis of a host computation is from, and what is compared for it: nothing
is declared for the axis, or a size that is compared with that of its dimension. -/
inductive LeafSize (id axis : Nat) (dim : Dimension) (declared : Option Quantity) :
    Size → List Equality → Prop
  | own {size : Size} (undeclared : declared = none) (sized : dim.size? = .ok (some size)) :
      LeafSize id axis dim declared size []
  | new (undeclared : declared = none) (unsized : dim.size? = .ok none) :
      LeafSize id axis dim declared (.symbol (localSymbol (.ofNat id) (.ofNat axis))) []
  | given {quantity : Quantity} {size : Size} (held : declared = some quantity)
      (meant : quantity.toSize = .ok size) (unsized : dim.size? = .ok none) :
      LeafSize id axis dim declared size []
  | compared {quantity : Quantity} {size expected : Size} {equalities : List Equality}
      (held : declared = some quantity) (meant : quantity.toSize = .ok size)
      (sized : dim.size? = .ok (some expected))
      (agreed : requireEqual "addFunction" (axisRelation axis) expected size = .ok equalities) :
      LeafSize id axis dim declared size equalities

/-- The sizes of a host computation are found axis by axis. -/
theorem declaredSizes_cons_ok {id axis : Nat} {dim : Dimension} {dims : Shape}
    {declared : List (Option Quantity)} {sizes : List Size} {equalities : List Equality}
    (h : declaredSizes id axis (dim :: dims) declared = .ok (sizes, equalities)) :
    ∃ size first rest others, LeafSize id axis dim declared.head?.join size first ∧
      declaredSizes id (axis + 1) dims declared.tail = .ok (rest, others) ∧
      sizes = size :: rest ∧ equalities = first ++ others := by
  simp only [declaredSizes, bind_eq_ok] at h
  obtain ⟨own, hown, h⟩ := h
  split at h
  · next hnone =>
    simp only [bind_eq_ok, pure_eq_ok, exists_eq_left', Prod.mk.injEq] at h
    obtain ⟨⟨rest, others⟩, hrest, rfl, rfl⟩ := h
    cases own with
    | none => exact ⟨_, [], rest, others, .new hnone hown, hrest, rfl, rfl⟩
    | some size => exact ⟨size, [], rest, others, .own hnone hown, hrest, rfl, rfl⟩
  · next quantity hquantity =>
    obtain ⟨size, hsize, h⟩ := bind_eq_ok.mp h
    cases own with
    | none =>
        simp only [bind_eq_ok, pure_eq_ok, exists_eq_left', Prod.mk.injEq] at h
        obtain ⟨⟨rest, others⟩, hrest, rfl, rfl⟩ := h
        exact ⟨size, [], rest, others, .given hquantity hsize hown, hrest, rfl, rfl⟩
    | some expected =>
        simp only [bind_eq_ok, pure_eq_ok, exists_eq_left', Prod.mk.injEq] at h
        obtain ⟨first, hfirst, ⟨rest, others⟩, hrest, rfl, rfl⟩ := h
        exact ⟨size, first, rest, others, .compared hquantity hsize hown hfirst, hrest, rfl, rfl⟩

/-- What is declared for the first axis is declared. -/
theorem mem_of_head_join {declared : List (Option Quantity)} {quantity : Quantity}
    (h : declared.head?.join = some quantity) : some quantity ∈ declared := by
  cases declared with
  | nil => cases h
  | cons head tail =>
      obtain rfl : head = some quantity := by simpa using h
      exact List.mem_cons_self

/-- A size that has the dimension of its axis where some equalities hold. -/
structure SizeFits (dim : Dimension) (size : Size) (equalities : List Equality) : Prop where
  integral : size.Integral
  recorded : ∀ e ∈ equalities, e.Integral
  fits : ∀ ρ, (∀ e ∈ equalities, e.Holds ρ) → dim.Fits ρ (size.value ρ)

/-- The declared size of an axis fits, and so does the one it has if none is
declared. -/
theorem LeafSize.fits {id axis : Nat} {dim : Dimension} {declared : Option Quantity} {size : Size}
    {equalities : List Equality} (hdeclared : ∀ q, declared = some q → q.Integral)
    (h : LeafSize id axis dim declared size equalities) : SizeFits dim size equalities := by
  cases h with
  | own _ hdim =>
      obtain ⟨hi, hfits⟩ := Dimension.fits_of_size hdim
      exact ⟨hi, List.forall_mem_nil _, fun ρ _ => hfits ρ⟩
  | new _ hdim =>
      obtain rfl := Dimension.eq_anonymous hdim
      exact ⟨trivial, List.forall_mem_nil _, fun ρ _ => .inl rfl⟩
  | given hheld hsize hdim =>
      obtain rfl := Dimension.eq_anonymous hdim
      exact ⟨(hdeclared _ hheld).toSize hsize, List.forall_mem_nil _, fun ρ _ => .inl rfl⟩
  | compared hheld hsize hdim hfirst =>
      have hi := (hdeclared _ hheld).toSize hsize
      obtain ⟨hei, hfits⟩ := Dimension.fits_of_size hdim
      obtain ⟨hrecorded, hagree⟩ := requireEqual_ok hei hi hfirst
      exact ⟨hi, hrecorded, fun ρ hall => hagree ρ hall ▸ hfits ρ⟩

/-- The sizes of a host computation and what they rely on are made of integers, and its shape
fits the sizes where what they rely on holds. -/
theorem declaredSizes_ok {id axis : Nat} {dims : Shape} {declared : List (Option Quantity)}
    {sizes : List Size} {equalities : List Equality}
    (hdeclared : ∀ q, some q ∈ declared → q.Integral)
    (h : declaredSizes id axis dims declared = .ok (sizes, equalities)) :
    (∀ s ∈ sizes, s.Integral) ∧ (∀ e ∈ equalities, e.Integral) ∧
      ∀ ρ, (∀ e ∈ equalities, e.Holds ρ) → dims.Fits ρ (sizes.map (Size.value ρ)) := by
  induction dims generalizing axis declared sizes equalities with
  | nil =>
      obtain ⟨rfl, rfl⟩ := Prod.mk.inj (Except.ok.inj h)
      exact ⟨by simp, by simp, fun ρ _ => .nil⟩
  | cons dim dims ih =>
      obtain ⟨size, first, rest, others, hfound, hrest, rfl, rfl⟩ := declaredSizes_cons_ok h
      have hsize := hfound.fits fun q hq => hdeclared q (mem_of_head_join hq)
      obtain ⟨hi, he, hfits⟩ := ih (fun q hq => hdeclared q (List.mem_of_mem_tail hq)) hrest
      refine ⟨List.forall_mem_cons.mpr ⟨hsize.integral, hi⟩,
        List.forall_mem_append.mpr ⟨hsize.recorded, he⟩, fun ρ hall => ?_⟩
      obtain ⟨hfirst, hothers⟩ := List.forall_mem_append.mp hall
      exact .cons (hsize.fits ρ hfirst) (hfits ρ hothers)

/-- What is declared for a host computation fits its shape. -/
theorem Found.Function.sizes_ok {g : Graph} {tensors : List Tensor} {shape : Shape}
    {declared : Option (List (Option Quantity))} (found : Found.Function g tensors shape declared)
    (hdeclared : ∀ given, declared = some given → ∀ q, some q ∈ given → q.Integral) :
    (∀ s ∈ found.sizes, s.Integral) ∧ (∀ e ∈ found.equalities, e.Integral) ∧
      ∀ ρ, (∀ e ∈ found.equalities, e.Holds ρ) →
        shape.Fits ρ (found.sizes.map (Size.value ρ)) := by
  have hgiven : ∀ q, some q ∈ declared.getD [] → q.Integral := by
    cases declared with
    | none => simp
    | some given => exact hdeclared given rfl
  exact declaredSizes_ok hgiven found.sizes_eq

/-- Where the recorded equalities hold, the lengths of a tensor from some axis on
are the sizes of its new shape. -/
theorem relabelEqualities_ok {lengths : List Size} {axis : Nat} {dims : Shape}
    {equalities : List Equality} (hlengths : ∀ s ∈ lengths, s.Integral)
    (hcount : axis + dims.length = lengths.length)
    (h : relabelEqualities lengths axis dims = .ok equalities) :
    (∀ e ∈ equalities, e.Integral) ∧ ∀ ρ, (∀ e ∈ equalities, e.Holds ρ) →
      dims.Fits ρ ((lengths.drop axis).map (Size.value ρ)) := by
  induction dims generalizing axis equalities with
  | nil =>
      obtain rfl := Except.ok.inj h
      rw [List.drop_of_length_le (by simp at hcount; omega)]
      exact ⟨by simp, fun ρ _ => .nil⟩
  | cons dim dims ih =>
      simp only [List.length_cons] at hcount
      have hlt : axis < lengths.length := by omega
      have hlength := hlengths lengths[axis] (List.getElem_mem hlt)
      simp only [relabelEqualities, bind_eq_ok] at h
      obtain ⟨own, hown, h⟩ := h
      rw [List.drop_eq_getElem_cons hlt]
      cases own with
      | none =>
          simp only [bind_eq_ok, pure_eq_ok, exists_eq_left', List.nil_append] at h
          obtain ⟨others, hothers, rfl⟩ := h
          obtain rfl := Dimension.eq_anonymous hown
          obtain ⟨he, hfits⟩ := ih (by omega) hothers
          exact ⟨he, fun ρ hall => .cons (.inl rfl) (hfits ρ hall)⟩
      | some size =>
          simp only [bind_eq_ok, pure_eq_ok, lengthAt_eq_ok, List.getElem?_eq_getElem hlt,
            Option.some.injEq, exists_eq_left'] at h
          obtain ⟨first, hfirst, others, hothers, rfl⟩ := h
          obtain ⟨hi, hdim⟩ := Dimension.fits_of_size hown
          have hagree := requireEqual_ok hlength hi hfirst
          obtain ⟨he, hfits⟩ := ih (by omega) hothers
          refine ⟨List.forall_mem_append.mpr ⟨hagree.1, he⟩, fun ρ hall => ?_⟩
          obtain ⟨hthis, hthose⟩ := List.forall_mem_append.mp hall
          exact .cons (hagree.2 ρ hthis ▸ hdim ρ) (hfits ρ hthose)

/-! ## Calls -/

variable {g : Graph} {t : Tensor}

/-- An input meets its contract, or is refused. -/
theorem newTensor_effect (name : String) (shape : Shape) :
    Effect g ((Build.newTensor name shape).perform g).1
      ((Build.newTensor name shape).perform g).2 := by
  refine (Build.newTensor_derives name shape).effect fun found inputs hinputs => ?_
  obtain rfl : [] = inputs := Except.ok.inj hinputs
  obtain ⟨hi, hfits⟩ := leafSizes_ok found.sizes_eq
  exact .laid rfl rfl found.rank_eq hi (List.forall_mem_nil _) (List.forall_mem_nil _)
    fun ρ _ _ => ⟨hfits ρ, trivial⟩

theorem constant_effect (value : Number) :
    Effect g ((Build.constant value).perform g).1 ((Build.constant value).perform g).2 := by
  refine (Build.constant_derives value).effect fun _ inputs hinputs => ?_
  obtain rfl : [] = inputs := Except.ok.inj hinputs
  exact .laid rfl rfl rfl (List.forall_mem_nil _) (List.forall_mem_nil _) (List.forall_mem_nil _)
    fun ρ _ _ => ⟨.nil, trivial⟩

/-- A host computation meets its contract, or is refused. -/
theorem addFunction_effect (hg : g.WellFormed) (name : String) (tensors : List Tensor)
    (shape : Shape) (payload : Payload) {declared : Option (List (Option Quantity))}
    (hdeclared : ∀ given, declared = some given → ∀ q, some q ∈ given → q.Integral) :
    Effect g ((Build.addFunction name tensors shape payload declared).perform g).1
      ((Build.addFunction name tensors shape payload declared).perform g).2 := by
  refine (Build.addFunction_derives name tensors shape payload declared).effect
    fun found inputs hinputs => ?_
  obtain ⟨hi, he, hfits⟩ := found.sizes_ok hdeclared
  exact .laid rfl rfl found.rank_eq hi (inputs_lt hg hinputs)
    (Equality.forall_mem_pending.mpr he)
    fun ρ _ hall => ⟨hfits ρ (Equality.forall_mem_pending.mp hall), trivial⟩

section

variable [Arithmetic] [Unbounded]

/-- A relabelling records equalities about sizes of integers, or is refused. -/
theorem realize_effect (hg : g.WellFormed) (ht : g.Issued t) (shape : Shape) :
    Effect g ((Build.realize t shape).perform g).1 ((Build.realize t shape).perform g).2 := by
  rcases Build.realize_cases t shape with ⟨fault, h⟩ | ⟨found, h⟩ <;> rw [h]
  · exact .refused fault
  · have hop := ht.operand hg found.node_eq
    have hl := hop.lengths_ok found.lengths_eq
    have hcount : 0 + shape.length = found.lengths.length := by
      rw [hop.length_lengths hl, found.rank_eq, Nat.zero_add]
    obtain ⟨he, hfits⟩ := relabelEqualities_ok hl.integral hcount found.equalities_eq
    have hbehind : g.Behind ⟨.ofNat found.node.id, shape, .ofNat g.id⟩ found.node :=
      ⟨rfl, found.node.id, rfl, hop.at_id⟩
    exact .relabelled hbehind (hop.rank_eq.trans found.rank_eq.symm) he fun ρ _ hall => by
      simpa [hl.values] using hfits ρ hall

/-- What a generator reads of its reference is a size of integers. -/
theorem referenceAxis_integral (hg : g.WellFormed) (ht : g.Issued t) {operation : String}
    {axis : Number} {k : Nat} {length : Option Size} {dim : Dimension}
    (h : ((Build.referenceAxis operation t axis).perform g).1 = .ok (k, length, dim)) :
    ∀ size, length = some size → size.Integral := by
  intro size hsize
  simp only [Build.referenceAxis, Build.perform_read, bind_eq_ok, pure_eq_ok,
    Prod.mk.injEq] at h
  obtain ⟨_, _, lengths, hlengths, _, _, _, rfl, _⟩ := h
  have hissued := ht
  obtain ⟨node, hbehind, _⟩ := ht
  have hop := hissued.operand_behind hg hbehind
  have hl := hop.graph_lengths_ok hlengths
  rw [Size.pinned_of_integral hl.integral] at hsize
  exact hl.integral size (List.mem_of_getElem? hsize)

/-- A call that reads an axis has an effect if it has one on any length of integers. -/
theorem referenceAxis_effect (hg : g.WellFormed) (ht : g.Issued t) {operation : String}
    {axis : Number} {next : Nat × Option Size × Dimension → Build Tensor}
    (h : ∀ k length dim, (∀ size, length = some size → size.Integral) →
      Effect g ((next (k, length, dim)).perform g).1 ((next (k, length, dim)).perform g).2) :
    Effect g ((Build.referenceAxis operation t axis >>= next).perform g).1
      ((Build.referenceAxis operation t axis >>= next).perform g).2 :=
  .of_read fun ⟨k, length, dim⟩ hread => h k length dim (referenceAxis_integral hg ht hread)

omit [Arithmetic] [Unbounded] in
/-- All sizes that a generator declares are the one that it has read. -/
theorem replicated_integral {length : Option Size}
    (hlength : ∀ size, length = some size → size.Integral) (count : Nat) :
    ∀ declared, (length.map fun size => List.replicate count (some (Quantity.size size))) =
      some declared → ∀ q, some q ∈ declared → q.Integral := by
  intro declared hdeclared q hq
  obtain ⟨size, rfl, rfl⟩ := Option.map_eq_some_iff.mp hdeclared
  obtain rfl : q = .size size := Option.some.inj (List.eq_of_mem_replicate hq)
  exact hlength size rfl

/-- The positions along an axis meet the contract of a host computation, or are refused. -/
theorem arange_effect (hg : g.WellFormed) (ht : g.Issued t) (axis : Number) :
    Effect g ((Build.arange t axis).perform g).1 ((Build.arange t axis).perform g).2 := by
  exact referenceAxis_effect hg ht fun k length dim hlength =>
    addFunction_effect hg _ _ _ _ (replicated_integral hlength 1)

theorem causalMask_effect (hg : g.WellFormed) (ht : g.Issued t) (axis : Number) :
    Effect g ((Build.causalMask t axis).perform g).1
      ((Build.causalMask t axis).perform g).2 := by
  exact referenceAxis_effect hg ht fun k length dim hlength =>
    addFunction_effect hg _ _ _ _ (replicated_integral hlength 2)

end

end ShapeGraph
