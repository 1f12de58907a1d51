import ShapeGraph.Proofs.Refinement.Match
import ShapeGraph.Proofs.Resolution.Walk

/-!
# Graphs that are ready resolve

Where every symbol is bound from the start, the walk has nothing to bind: every
equality comes down to two literals, and every view to its extent.

* `bindObligations_met`, `checkObligations_met` — equalities that are met neither
  bind nor stop anything;
* `walk_ready` — the walk goes through and leaves the environment as it is;
* `Graph.Ready.resolves` — a graph that is ready resolves, each node to its
  extent.
-/

namespace ShapeGraph

open ShapeGraph.Numeric (Arithmetic Number Unbounded)

/-- Without feeds and host computations a node contributes no bindings. -/
theorem evaluateNode_ready [Arithmetic] {node : Node} (hkind : node.kind ≠ .function)
    (resolved : List ResolvedNode) (env : Environment) :
    ∃ data, (evaluateNode [] node resolved env).outcome = .ok (env, data) := by
  unfold evaluateNode
  split
  · exact ⟨_, rfl⟩
  · exact ⟨_, rfl⟩
  · next h => exact absurd h hkind
  · exact ⟨_, rfl⟩

section

variable [Arithmetic] [Unbounded] {ρ : Valuation} {bindings : Bindings} {env : Environment}

/-- Equalities that are met bind nothing, as all of their symbols are bound. -/
theorem bindObligations_met (hb : env.bindings.Agrees ρ) {obligations : List Obligation}
    (h : ∀ o ∈ obligations, o.equality.Met env.bindings.Bound ρ) :
    bindObligations env obligations = .ok env := by
  induction obligations with
  | nil => rfl
  | cons obligation rest ih =>
      obtain ⟨⟨hleft, hright, _⟩, hrest⟩ := List.forall_mem_cons.mp h
      rw [bindObligations, bindEquality, Size.substitute_of_defined hleft.integral hb hleft.defined,
        Size.substitute_of_defined hright.integral hb hright.defined]
      exact ih hrest

/-- Equalities that are met pass the check. -/
theorem checkObligations_met (hb : bindings.Agrees ρ) {obligations : List Obligation}
    (h : ∀ o ∈ obligations, o.equality.Met bindings.Bound ρ) :
    (checkObligations bindings obligations).outcome = .ok () := by
  induction obligations with
  | nil => rfl
  | cons obligation rest ih =>
      obtain ⟨⟨hleft, hright, hholds⟩, hrest⟩ := List.forall_mem_cons.mp h
      simp only [checkObligations, Run.outcome_bind_eq_ok, Run.outcome_liftM]
      refine ⟨_, Size.evaluate_of_defined hleft.integral hb hleft.defined, _,
        Size.evaluate_of_defined hright.integral hb hright.defined, ?_⟩
      rw [hholds, if_pos (by simp)]
      exact ih hrest

/-- A node whose view is ready is resolved to the extent of the view. -/
theorem resolveNode_ready (hb : env.bindings.Agrees ρ) {obligations : List Obligation}
    (h : ∀ o ∈ obligations, o.equality.Met env.bindings.Bound ρ) {node : Node}
    (hkind : node.kind ≠ .function) (hview : node.view.Ready env.bindings.Bound ρ)
    (resolved : List ResolvedNode) :
    ∃ next, (resolveNode obligations [] node resolved env).outcome = .ok (env, next) ∧
      next.shape = (node.view.extent ρ).map .int := by
  obtain ⟨data, hdata⟩ := evaluateNode_ready hkind resolved env
  have hbound : bindObligations env (obligations.filter fun o => o.node = .ofNat node.id) =
      .ok env := bindObligations_met hb fun o ho => h o (List.mem_of_mem_filter ho)
  have hresolved : node.view.resolve env.bindings = .ok (node.view.concrete ρ) :=
    View.resolve_of_defined hview.wellFormed hview.integral hb
      (fun range hr => (hview.of_mem_shown hr).defined)
      fun range hr => (hview.of_mem_shown hr).proper
  exact ⟨_, resolveNode_eq_ok.mpr ⟨_, _, _, hdata, hbound, hresolved, rfl⟩, rfl⟩

/-- **The walk over nodes that are ready** goes through, and binds nothing. -/
theorem walk_ready (hb : env.bindings.Agrees ρ) {obligations : List Obligation}
    (h : ∀ o ∈ obligations, o.equality.Met env.bindings.Bound ρ) {nodes : List Node}
    (hnodes : ∀ node ∈ nodes, node.kind ≠ .function ∧ node.view.Ready env.bindings.Bound ρ)
    (resolved : List ResolvedNode) :
    ∃ walked, (walk obligations [] nodes resolved env).outcome = .ok (env, resolved ++ walked) ∧
      List.Forall₂ (fun node next => next.shape = (node.view.extent ρ).map .int) nodes walked := by
  induction nodes generalizing resolved with
  | nil => exact ⟨[], by simp [walk], .nil⟩
  | cons node rest ih =>
      obtain ⟨⟨hkind, hview⟩, hrest⟩ := List.forall_mem_cons.mp hnodes
      obtain ⟨next, hnext, hshape⟩ := resolveNode_ready hb h hkind hview resolved
      obtain ⟨walked, hwalked, hshapes⟩ := ih hrest (resolved ++ [next])
      refine ⟨next :: walked, ?_, .cons hshape hshapes⟩
      rw [walk, Run.outcome_bind_eq_ok]
      exact ⟨_, hnext, by simpa using hwalked⟩

/-- **A graph that is ready resolves** under a binding of all its symbols, every
node to its extent. -/
theorem Graph.Ready.resolves {g : Graph} (hg : g.Ready bindings.Bound ρ)
    (hadmissible : Environment.Admissible bindings) (hb : bindings.Agrees ρ) :
    ∃ resolved, (g.resolve ⟨bindings, []⟩).outcome = .ok resolved ∧
      ∀ (place : Nat) (node : Node), g.nodes[place]? = some node →
        resolved.HasShape place (node.view.extent ρ) := by
  obtain ⟨env, henv, rfl⟩ := Environment.ofBindings_admissible hadmissible
  obtain ⟨nodes, hwalk, hshapes⟩ := walk_ready hb hg.obligations hg.nodes []
  refine ⟨⟨env.bindings, nodes⟩, ?_, fun place node hnode => ?_⟩
  · simp only [resolve, Run.outcome_bind_eq_ok, Run.outcome_liftM]
    refine ⟨_, henv, _, hwalk, (), logBindings_outcome _, ?_⟩
    split
    · simp only [Run.outcome_bind_eq_ok]
      exact ⟨(), checkObligations_met hb hg.obligations, rfl⟩
    · rfl
  · obtain ⟨hlt, rfl⟩ := List.getElem?_eq_some_iff.mp hnode
    have hlt' : place < nodes.length := hshapes.length_eq ▸ hlt
    refine ⟨nodes[place], ?_, (List.forall₂_iff_get.mp hshapes).2 place hlt hlt'⟩
    simp [ResolvedGraph.view, hlt']

end

end ShapeGraph
