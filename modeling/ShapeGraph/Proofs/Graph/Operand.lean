import ShapeGraph.Proofs.Graph.Effect

/-!
# Operands and drafts

An operation checks its operands and starts a draft from their lengths.  What it
knows of an operand is the node behind the handle, which keeps its contract and
whose extent the shape of the handle fits.

* `Graph.Operand` — what is known of an operand;
* `inputs_ok`, `inputs_eq` — the inputs of a draft are the nodes behind its tensors;
* `Draft.start_eq_ok`, `Draft.setAttribute_of_ne` — what a draft is made of;
* `Draft.Sound.of_extent`, `Draft.Sound.laid`, `Draft.Sound.pointwise` — a draft is
  sound if its extent fits its shape and its contract: that of any view, of sizes
  in storage of their own, and of the sizes of the only operand.
-/

namespace ShapeGraph

open ShapeGraph.Numeric (Arithmetic Number Unbounded)

/-! ## Operands -/

/-- The node behind an operand keeps its contract, and the shape of the operand
fits it. -/
structure Graph.Operand (g : Graph) (t : Tensor) (node : Node) : Prop where
  behind : g.Behind t node
  at_id : g.nodes[node.id]? = some node
  id_lt : node.id < g.size
  wellFormed : node.view.WellFormed
  integral : node.view.Integral
  rank_eq : node.view.rank = t.rank
  extentAt_eq : ∀ ρ, g.extentAt ρ node.id = node.view.extent ρ
  fits : ∀ ρ, g.Holds ρ → t.shape.Fits ρ (node.view.extent ρ)

variable {g : Graph} {t : Tensor} {node : Node}

/-- The node behind an issued handle keeps its contract, and the shape of the handle fits it. -/
theorem Graph.Issued.operand_behind (hg : g.WellFormed) (ht : g.Issued t)
    (hbehind : g.Behind t node) : g.Operand t node := by
  obtain ⟨held, hheld, hrank, hfits⟩ := ht
  obtain rfl := hbehind.unique hheld
  obtain ⟨_, place, _, hplace⟩ := hbehind
  have hkeeps := hg.keeps place node hplace
  obtain rfl := hkeeps.id_eq
  exact {
    behind := hheld
    at_id := hplace
    id_lt := (List.getElem?_eq_some_iff.mp hplace).1
    wellFormed := hkeeps.wellFormed
    integral := hkeeps.integral
    rank_eq := hrank
    extentAt_eq := fun ρ => by simp [Graph.extentAt, hplace]
    fits := hfits }

/-- So does the node that a check of the handle finds. -/
theorem Graph.Issued.operand (hg : g.WellFormed) (ht : g.Issued t) {operation : String}
    (hcheck : g.check operation t = .ok node) : g.Operand t node :=
  ht.operand_behind hg (Graph.check_eq_ok.mp hcheck)

namespace Graph.Operand

/-- The extent of an operand has as many axes as its handle. -/
theorem length_extent (h : g.Operand t node) (ρ : Valuation) :
    (node.view.extent ρ).length = t.rank :=
  (h.wellFormed.length_extent ρ).trans h.rank_eq

variable {lengths : List Size}

/-- An operand has as many lengths as axes. -/
theorem length_lengths (h : g.Operand t node) (hl : node.view.HasLengths lengths) :
    lengths.length = t.rank := by
  rw [← h.length_extent fun _ => 0, ← hl.values, List.length_map]

variable [Arithmetic] [Unbounded]

/-- The lengths that are found for an operand are those of its view. -/
theorem lengths_ok (h : g.Operand t node) (hl : node.view.lengths = .ok lengths) :
    node.view.HasLengths lengths :=
  View.lengths_ok h.wellFormed h.integral hl

/-- The lengths of an operand are those of the node behind it. -/
theorem graph_lengths_ok (h : g.Operand t node) (hl : g.lengths t = .ok lengths) :
    node.view.HasLengths lengths := by
  have hcheck : g.check "tracker" t = .ok node := Graph.check_eq_ok.mpr h.behind
  simp only [Graph.lengths, Graph.view, hcheck, bind_eq_ok, pure_eq_ok, Except.ok.injEq,
    exists_eq_left'] at hl
  exact h.lengths_ok hl

end Graph.Operand

/-- The inputs of a draft are found if there are nodes behind its tensors. -/
theorem inputs_ok {kind : OpKind} {tensors : List Tensor} {nodes : List Node}
    (hnodes : List.Forall₂ g.Behind tensors nodes) :
    (tensors.map NodeRef.tensor).mapM (g.inputId kind) = .ok (nodes.map Node.id) := by
  induction hnodes with
  | nil => rfl
  | cons hnode _ ih =>
      have hcheck : g.check kind.name _ = .ok _ := Graph.check_eq_ok.mpr hnode
      simp only [List.map_cons, List.mapM_cons, Graph.inputId, hcheck, bind_eq_ok, pure_eq_ok,
        Except.ok.injEq, exists_eq_left']
      exact ⟨_, ih, rfl⟩

/-- The inputs of a draft are the nodes behind its tensors. -/
theorem inputs_eq {kind : OpKind} {tensors : List Tensor} {nodes : List Node}
    {inputs : List Nat} (hnodes : List.Forall₂ g.Behind tensors nodes)
    (h : (tensors.map NodeRef.tensor).mapM (g.inputId kind) = .ok inputs) :
    inputs = nodes.map Node.id :=
  Except.ok.inj (h.symm.trans (inputs_ok hnodes))

/-- The input that a source names is the id of a node that is there. -/
theorem node_of_inputId {kind : OpKind} {source : NodeRef} {id : Nat}
    (h : g.inputId kind source = .ok id) :
    ∃ (place : Nat) (node : Node), g.nodes[place]? = some node ∧ node.id = id := by
  cases source with
  | id n =>
      simp only [Graph.inputId, Graph.node, bind_eq_ok, pure_eq_ok] at h
      obtain ⟨node, hnode, hid⟩ := h
      obtain ⟨place, _, hplace⟩ := Graph.find_eq_ok.mp hnode
      exact ⟨place, node, hplace, hid⟩
  | tensor t =>
      simp only [Graph.inputId, bind_eq_ok, pure_eq_ok] at h
      obtain ⟨node, hnode, hid⟩ := h
      obtain ⟨_, place, _, hplace⟩ := Graph.check_eq_ok.mp hnode
      exact ⟨place, node, hplace, hid⟩

/-- Where nodes are numbered by their places, inputs are places. -/
theorem inputs_lt_of_ids
    (hids : ∀ (place : Nat) (node : Node), g.nodes[place]? = some node → node.id = place)
    {kind : OpKind} {sources : List NodeRef} {inputs : List Nat}
    (h : sources.mapM (g.inputId kind) = .ok inputs) : ∀ id ∈ inputs, id < g.size := by
  intro id hid
  obtain ⟨source, _, hsource⟩ := exists_of_mem_mapM h hid
  obtain ⟨place, node, hnode, rfl⟩ := node_of_inputId hsource
  rw [hids place node hnode]
  exact (List.getElem?_eq_some_iff.mp hnode).1

/-- Inputs that are found have smaller ids than the next node. -/
theorem inputs_lt (hg : g.WellFormed) {kind : OpKind} {sources : List NodeRef}
    {inputs : List Nat} (h : sources.mapM (g.inputId kind) = .ok inputs) :
    ∀ id ∈ inputs, id < g.size :=
  inputs_lt_of_ids (fun place node hnode => (hg.keeps place node hnode).id_eq) h

/-! ## Drafts -/

namespace Draft

variable {draft : Draft} {kind : OpKind} {shape : Shape} {view : View}

/-- A draft is started if the rank of its view is that of its shape. -/
theorem start_eq_ok : start kind shape view = .ok draft ↔
    view.rank = shape.length ∧ ⟨kind, shape, view, [], [], none, none, []⟩ = draft := by
  simp [start]

/-- Under any name but the reserved one, what is set is kept. -/
theorem setAttribute_of_ne {key : String} (h : key ≠ reservedKey) (value : Value) :
    draft.setAttribute key value =
      { draft with attributes := draft.attributes.put key value } :=
  if_neg h

/-- What a view operation on an operand shows has to lie within its view. -/
theorem stores_of_within {node : Node} {inputs : List Nat} (ht : g.Operand t node)
    (hkind : draft.kind.isView = true) (hinputs : inputs = [node.id])
    (hwithin : draft.view.Within node.view) : g.Stores draft.kind inputs draft.view := by
  rw [Graph.Stores, if_pos hkind]
  exact ⟨node.id, node, by rw [hinputs]; rfl, ht.at_id, hwithin⟩

/-- A draft is sound if its view shows storage as its kind has it, and the extent
of its view fits its shape and its contract. -/
theorem Sound.of_extent {inputs : List Nat} {extent : Valuation → List Int}
    (hwell : draft.view.WellFormed) (hintegral : draft.view.Integral)
    (hrank : draft.view.rank = draft.shape.length) (hinputs : ∀ id ∈ inputs, id < g.size)
    (hequalities : ∀ e ∈ draft.equalities, e.Integral)
    (hstorage : g.Stores draft.kind inputs draft.view)
    (hextent : ∀ ρ, draft.view.extent ρ = extent ρ)
    (h : ∀ ρ, g.Holds ρ → (∀ e ∈ draft.equalities, e.Holds ρ) →
      draft.shape.Fits ρ (extent ρ) ∧
      draft.kind.Contract draft.attributes (inputs.map (g.extentAt ρ)) (extent ρ)) :
    draft.Sound g inputs where
  wellFormed := hwell
  integral := hintegral
  rank_eq := hrank
  inputs_lt := hinputs
  equalities := hequalities
  storage := hstorage
  fits ρ hg hd := (hextent ρ).symm ▸ (h ρ hg hd).1
  contract ρ hg hd := (hextent ρ).symm ▸ (h ρ hg hd).2

/-- A draft that lays sizes out in storage of its own is sound if these sizes
fit its shape and its contract. -/
theorem Sound.laid {inputs : List Nat} {sizes : List Size} (hkind : draft.kind.isView = false)
    (hview : draft.view = .contiguous sizes) (hrank : draft.view.rank = draft.shape.length)
    (hsizes : ∀ s ∈ sizes, s.Integral) (hinputs : ∀ id ∈ inputs, id < g.size)
    (hequalities : ∀ e ∈ draft.equalities, e.Integral)
    (h : ∀ ρ, g.Holds ρ → (∀ e ∈ draft.equalities, e.Holds ρ) →
      draft.shape.Fits ρ (sizes.map (Size.value ρ)) ∧
      draft.kind.Contract draft.attributes (inputs.map (g.extentAt ρ))
        (sizes.map (Size.value ρ))) : draft.Sound g inputs := by
  have hstorage : g.Stores draft.kind inputs draft.view := by
    rw [Graph.Stores, if_neg (by simp [hkind])]
    exact ⟨sizes, hsizes, hview⟩
  exact .of_extent (hview ▸ View.contiguous_wellFormed sizes)
    (hview ▸ View.contiguous_integral hsizes) hrank hinputs hequalities hstorage
    (fun ρ => hview ▸ View.extent_contiguous hsizes ρ) h

/-- A draft with the shape and the lengths of its only operand is sound if its
contract is to have its sizes. -/
theorem Sound.pointwise {draft : Draft} {node : Node} {inputs : List Nat}
    {lengths : List Size} (hkind : draft.kind.isView = false) (ht : g.Operand t node)
    (hlengths : node.view.HasLengths lengths) (hshape : draft.shape = t.shape)
    (hview : draft.view = .contiguous lengths) (hinputs : inputs = [node.id])
    (hequalities : draft.equalities = [])
    (hcontract : ∀ x, draft.kind.Contract draft.attributes [x] x) : draft.Sound g inputs := by
  refine .laid hkind hview ?_ hlengths.integral ?_ ?_ fun ρ hρ _ => ?_
  · rw [hview, hshape, View.rank_contiguous, ht.length_lengths hlengths, Tensor.rank]
  · simpa [hinputs] using ht.id_lt
  · simp [hequalities]
  · rw [hlengths.values, hshape, hinputs, List.map_singleton, ht.extentAt_eq]
    exact ⟨ht.fits ρ hρ, hcontract _⟩

end Draft

end ShapeGraph
