import ShapeGraph.Proofs.Graph.Contract
import ShapeGraph.Proofs.Graph.Session

/-!
# What a call does to a graph

Whatever the operation, a call refuses and leaves the graph alone, appends one
node, appends two of which the first only lays out the input of the second, or
records equalities on a node that is there.

* `Draft.equalities`, `Draft.Plain` — what a draft relies on, and that it does so itself;
* `Draft.Sound` — what a draft has to meet for its node to keep its contract;
* `Effect` — the four things that a call can do;
* `Effect.extends_graph`, `Effect.wellFormed`, `Effect.issued` — each of them extends
  the graph, keeps its invariant, and issues a handle whose shape fits.
-/

namespace ShapeGraph

open ShapeGraph.Numeric (Arithmetic Number)

/-! ## Drafts -/

/-- Equalities that name no node are themselves again once they are recorded. -/
@[simp] theorem Equality.map_pending (equalities : List Equality) :
    (equalities.map Equality.pending).map Pending.equality = equalities := by
  rw [List.map_map]
  exact List.map_id equalities

/-- So what holds of them holds of what they stand for. -/
theorem Equality.forall_mem_pending {P : Equality → Prop} {equalities : List Equality} :
    (∀ e ∈ (equalities.map Equality.pending).map Pending.equality, P e) ↔
      ∀ e ∈ equalities, P e := by
  rw [Equality.map_pending]

/-- Equalities that name no node are recorded on the node that relies on them. -/
@[simp] theorem Equality.map_pending_on (equalities : List Equality) (node : Nat) :
    (equalities.map Equality.pending).map (Pending.on node) =
      equalities.map (Obligation.mk (.ofNat node)) := by
  rw [List.map_map]
  rfl

/-- What is recorded is what was to be recorded, on whatever nodes. -/
theorem Pending.forall_mem_on {P : Equality → Prop} {pending : List Pending} {node : Nat} :
    (∀ o ∈ pending.map (Pending.on node), P o.equality) ↔
      ∀ e ∈ pending.map Pending.equality, P e := by
  rw [List.forall_mem_map, List.forall_mem_map]
  rfl

/-- The equalities that a draft relies on, whatever nodes they name. -/
def Draft.equalities (draft : Draft) : List Equality :=
  draft.pending.map Pending.equality

@[simp] theorem Draft.equalities_relying (draft : Draft) (equalities : List Equality) :
    (draft.relying equalities).equalities = equalities :=
  Equality.map_pending equalities

/-- What a draft relies on names no node, so that it is recorded on the node of the draft. -/
def Draft.Plain (draft : Draft) : Prop :=
  ∃ equalities : List Equality, draft.pending = equalities.map Equality.pending

/-- A draft that will keep its contract on inputs of the given ids. -/
structure Draft.Sound (g : Graph) (draft : Draft) (inputs : List Nat) : Prop where
  wellFormed : draft.view.WellFormed
  integral : draft.view.Integral
  rank_eq : draft.view.rank = draft.shape.length
  inputs_lt : ∀ id ∈ inputs, id < g.size
  equalities : ∀ e ∈ draft.equalities, e.Integral
  storage : g.Stores draft.kind inputs draft.view
  fits : ∀ ρ, g.Holds ρ → (∀ e ∈ draft.equalities, e.Holds ρ) →
    draft.shape.Fits ρ (draft.view.extent ρ)
  contract : ∀ ρ, g.Holds ρ → (∀ e ∈ draft.equalities, e.Holds ρ) →
    draft.kind.Contract draft.attributes (inputs.map (g.extentAt ρ)) (draft.view.extent ρ)

namespace Graph

variable {g : Graph} {draft : Draft} {inputs : List Nat} {ρ : Valuation}

/-! ## Appending -/

/-- An insertion puts the node of a draft behind the others. -/
theorem append_nodes (g : Graph) (draft : Draft) (inputs : List Nat) :
    (g.append draft inputs).nodes = g.nodes ++ [⟨g.size, draft.kind, inputs, draft.shape,
      draft.view.settle g.size, draft.attributes, draft.name, draft.payload⟩] := rfl

/-- An insertion adds one node. -/
@[simp] theorem size_append (g : Graph) (draft : Draft) (inputs : List Nat) :
    (g.append draft inputs).size = g.size + 1 := by
  simp [size, append_nodes]

/-- The equalities hold after an insertion if they did and those of the draft do. -/
theorem holds_append : (g.append draft inputs).Holds ρ ↔
    g.Holds ρ ∧ ∀ e ∈ draft.equalities, e.Holds ρ := by
  show (∀ o ∈ g.obligations ++ draft.pending.map (Pending.on g.size), _) ↔ _
  rw [List.forall_mem_append, Pending.forall_mem_on]
  rfl

/-- An insertion extends the graph. -/
theorem append_extends (g : Graph) (draft : Draft) (inputs : List Nat) :
    (g.append draft inputs).Extends g where
  id_eq := rfl
  settings_eq := rfl
  nodes place node h := by
    rw [append_nodes, List.getElem?_append_left (List.getElem?_eq_some_iff.mp h).1]
    exact h
  holds ρ h := (holds_append.mp h).1

/-- The node of a draft of integers has the draft's own view. -/
theorem append_last (h : draft.view.Integral) :
    (g.append draft inputs).nodes[g.size]? = some ⟨g.size, draft.kind, inputs, draft.shape,
      draft.view, draft.attributes, draft.name, draft.payload⟩ := by
  rw [append_nodes, h.settle_eq]
  exact List.getElem?_concat_length

/-- A node of an extended graph is an old one or the new one. -/
theorem append_cases (hi : draft.view.Integral) {place : Nat} {node : Node}
    (h : (g.append draft inputs).nodes[place]? = some node) :
    g.nodes[place]? = some node ∨ (place = g.size ∧ node = ⟨g.size, draft.kind, inputs,
      draft.shape, draft.view, draft.attributes, draft.name, draft.payload⟩) := by
  have hlt : place < (g.append draft inputs).size := (List.getElem?_eq_some_iff.mp h).1
  rw [size_append] at hlt
  rcases Nat.lt_succ_iff_lt_or_eq.mp hlt with hold | rfl
  · rw [append_nodes, List.getElem?_append_left hold] at h
    exact .inl h
  · rw [append_last hi] at h
    exact .inr ⟨rfl, (Option.some.inj h).symm⟩

/-- A sound draft keeps the graph well formed. -/
theorem append_wellFormed (hg : g.WellFormed) (h : draft.Sound g inputs) :
    (g.append draft inputs).WellFormed where
  keeps place node hnode := by
    have hext := append_extends g draft inputs
    rcases append_cases h.integral hnode with hold | ⟨rfl, rfl⟩
    · exact hext.keeps hold (hg.keeps place node hold)
    · refine ⟨rfl, h.inputs_lt, h.wellFormed, h.integral, h.rank_eq, hext.stores h.storage,
        fun ρ hρ => ?_⟩
      obtain ⟨hold, hnew⟩ := holds_append.mp hρ
      have hinputs : inputs.map ((g.append draft inputs).extentAt ρ) =
          inputs.map (g.extentAt ρ) :=
        List.map_congr_left fun id hid => hext.extentAt_eq (h.inputs_lt id hid)
      rw [hinputs]
      exact h.contract ρ hold hnew
  obligations := by
    show ∀ o ∈ g.obligations ++ draft.pending.map (Pending.on g.size), _
    rw [List.forall_mem_append, Pending.forall_mem_on]
    exact ⟨hg.obligations, h.equalities⟩

/-- The handle that an insertion issues is on the node of the draft. -/
theorem append_behind (g : Graph) (inputs : List Nat) (h : draft.view.Integral) :
    (g.append draft inputs).Behind (Build.handle g draft.shape) ⟨g.size, draft.kind, inputs,
      draft.shape, draft.view, draft.attributes, draft.name, draft.payload⟩ :=
  ⟨rfl, g.size, rfl, append_last h⟩

/-- The handle that an insertion issues has been issued by the graph. -/
theorem append_issued (h : draft.Sound g inputs) :
    (g.append draft inputs).Issued (Build.handle g draft.shape) :=
  ⟨_, g.append_behind inputs h.integral, h.rank_eq, fun ρ hρ =>
    h.fits ρ (holds_append.mp hρ).1 (holds_append.mp hρ).2⟩

/-! ## Recording -/

/-- The graph with equalities recorded on a node and a line in its journal. -/
def relying (g : Graph) (node : Nat) (equalities : List Equality) (line : String) : Graph :=
  (g.record node (equalities.map Equality.pending)).note line

variable {node : Nat} {equalities : List Equality} {line : String}

/-- What is recorded in this way is recorded on that node. -/
theorem relying_obligations : (g.relying node equalities line).obligations =
    g.obligations ++ equalities.map (Obligation.mk (.ofNat node)) :=
  congrArg (g.obligations ++ ·) (Equality.map_pending_on equalities node)

/-- The equalities hold after a relabelling if they did and the new ones do. -/
theorem holds_relying : (g.relying node equalities line).Holds ρ ↔
    g.Holds ρ ∧ ∀ e ∈ equalities, e.Holds ρ := by
  rw [Holds, relying_obligations, List.forall_mem_append, List.forall_mem_map]
  rfl

/-- A relabelling extends the graph. -/
theorem relying_extends (g : Graph) (node : Nat) (equalities : List Equality) (line : String) :
    (g.relying node equalities line).Extends g :=
  ⟨rfl, rfl, fun _ _ h => h, fun _ h => (holds_relying.mp h).1⟩

/-- A relabelling by equalities about sizes of integers keeps the graph well formed. -/
theorem relying_wellFormed (hg : g.WellFormed) (h : ∀ e ∈ equalities, e.Integral) :
    (g.relying node equalities line).WellFormed where
  keeps place held hheld :=
    (relying_extends g node equalities line).keeps hheld (hg.keeps place held hheld)
  obligations := by
    rw [relying_obligations, List.forall_mem_append, List.forall_mem_map]
    exact ⟨hg.obligations, h⟩

end Graph

/-! ## Effects -/

/-- What a call does: it fails or issues a handle, and leaves a graph. -/
inductive Effect (g : Graph) : Except Fault Tensor → Graph → Prop
  /-- The call fails, and nothing has changed. -/
  | refused (fault : Fault) : Effect g (.error fault) g
  /-- One node is appended. -/
  | appended {draft : Draft} {inputs : List Nat} (sound : draft.Sound g inputs) :
      Effect g (.ok (Build.handle g draft.shape)) (g.append draft inputs)
  /-- A node is appended that only lays out the input of another one. -/
  | laidOut {first second : Draft} {inputs others : List Nat} (sound : first.Sound g inputs)
      (sound' : second.Sound (g.append first inputs) others) :
      Effect g (.ok (Build.handle (g.append first inputs) second.shape))
        ((g.append first inputs).append second others)
  /-- A tensor is given another shape. -/
  | relabelled {t : Tensor} {node : Node} {equalities : List Equality} {line : String}
      (behind : g.Behind t node) (rank_eq : node.view.rank = t.rank)
      (integral : ∀ e ∈ equalities, e.Integral)
      (fits : ∀ ρ, g.Holds ρ → (∀ e ∈ equalities, e.Holds ρ) →
        t.shape.Fits ρ (node.view.extent ρ)) :
      Effect g (.ok t) (g.relying node.id equalities line)

namespace Effect

variable {g g' : Graph} {outcome : Except Fault Tensor}

/-- Whatever a call does, it extends the graph. -/
theorem extends_graph (h : Effect g outcome g') : g'.Extends g := by
  cases h with
  | refused fault => exact .refl g
  | appended sound => exact g.append_extends _ _
  | laidOut sound sound' =>
      exact (Graph.append_extends _ _ _).trans (g.append_extends _ _)
  | relabelled => exact g.relying_extends _ _ _

/-- Whatever a call does, the graph stays well formed. -/
theorem wellFormed (h : Effect g outcome g') (hg : g.WellFormed) : g'.WellFormed := by
  cases h with
  | refused fault => exact hg
  | appended sound => exact Graph.append_wellFormed hg sound
  | laidOut sound sound' =>
      exact Graph.append_wellFormed (Graph.append_wellFormed hg sound) sound'
  | relabelled _ _ integral _ => exact Graph.relying_wellFormed hg integral

/-- A handle that a call returns has been issued. -/
theorem issued {t : Tensor} (h : Effect g (.ok t) g') : g'.Issued t := by
  cases h with
  | appended sound => exact Graph.append_issued sound
  | laidOut sound sound' => exact Graph.append_issued sound'
  | relabelled behind rank_eq _ fits =>
      refine ⟨_, (g.relying_extends _ _ _).behind behind, rank_eq, fun ρ hρ => ?_⟩
      obtain ⟨hold, hnew⟩ := Graph.holds_relying.mp hρ
      exact fits ρ hold hnew

/-- A reading that fails refuses the call, and what follows one that succeeds
decides. -/
theorem of_read {α : Type} {f : Graph → Except Fault α} {next : α → Build Tensor}
    (h : ∀ a, f g = .ok a → Effect g ((next a).perform g).1 ((next a).perform g).2) :
    Effect g ((Build.read f >>= next).perform g).1 ((Build.read f >>= next).perform g).2 :=
  Build.ended_of_read (P := fun ended => Effect g ended.1 ended.2) .refused h

end Effect

end ShapeGraph
