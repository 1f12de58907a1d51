import ShapeGraph.Proofs.Graph.Contract
import ShapeGraph.Proofs.Resolution.Environment
import ShapeGraph.Resolution.Basic

/-!
# What a successful resolution has done

The walk over the nodes makes the environment grow node by node, and resolves
each view under the environment of its time.  Nothing that is bound later changes
what was resolved, so at the end every view is resolved to its extent under any
valuation that agrees with the final bindings.

* `walk_ok` — a successful walk, node by node;
* `Graph.resolve_parts`, `Graph.resolve_of_walk` — a resolution is a walk from the given
  bindings, and a check if it is asked for;
* `Graph.resolve_shows` — its bindings are integers, and every node is resolved to
  its view, none of whose ranges is reversed;
* `Graph.resolve_ok` — with the check, the recorded equalities hold as well.
-/

namespace ShapeGraph

open ShapeGraph.Numeric (Arithmetic Number Unbounded)

/-! ## Runs that succeed -/

namespace Run

variable {α β : Type}

@[simp] theorem outcome_pure (a : α) : (pure a : Run α).outcome = .ok a := rfl

@[simp] theorem outcome_liftM (x : Except Fault α) : (liftM x : Run α).outcome = x := rfl

/-- A run goes through if its first part does, and what follows from what that returns. -/
@[simp] theorem outcome_bind_eq_ok {run : Run α} {next : α → Run β} {b : β} :
    (run >>= next).outcome = .ok b ↔ ∃ a, run.outcome = .ok a ∧ (next a).outcome = .ok b := by
  rw [outcome_bind, bind_eq_ok]

end Run

/-- The log cannot make a resolution fail. -/
theorem logBindings_outcome (entries : List Binding) : (logBindings entries).outcome = .ok () := by
  induction entries with
  | nil => rfl
  | cons entry rest ih =>
      rw [logBindings, Run.outcome_bind, Run.outcome_log]
      exact ih

section

variable [Arithmetic] {env env' : Environment}

/-! ## Bindings on the way -/

/-- Feeding the axes of an input makes the environment grow. -/
theorem bindAxes_grows {name : String} {axis : Nat} {dims : Shape} {values : List Number}
    {lengths : List Size} (h : bindAxes name axis dims values lengths env = .ok env') :
    env.Grows env' := by
  induction dims generalizing axis values lengths env with
  | nil =>
      obtain rfl := Except.ok.inj h
      exact .refl env
  | cons dim dims ih =>
      cases values with
      | nil =>
          obtain rfl := Except.ok.inj h
          exact .refl env
      | cons value values =>
          cases lengths with
          | nil =>
              obtain rfl := Except.ok.inj h
              exact .refl env
          | cons length lengths =>
              simp only [bindAxes, bind_eq_ok] at h
              obtain ⟨_, _, middle, hmiddle, hrest⟩ := h
              exact (Environment.unify_grows hmiddle).trans (ih hrest)

/-- An input that is bound is fed with the declared rank, has the lengths of its view bound,
and takes the data of its feed, which fills the sizes of the feed. -/
theorem bindInput_ok {node : Node} {feed : Feed} {data : Option (List Number)}
    (h : bindInput node feed env = .ok (env', data)) :
    feed.shape.length = node.shape.length ∧
      (∃ lengths, node.view.lengths = .ok lengths ∧
        bindAxes (node.name.getD ("%" ++ node.id.repr)) 0 node.shape feed.shape lengths env =
          .ok env') ∧
      data = feed.data ∧ ∀ held, data = some held →
        (Number.ofNat held.length).same (Number.product feed.shape) = true := by
  simp only [bindInput, ite_error_eq_ok, bind_eq_ok, not_not] at h
  obtain ⟨hrank, lengths, hlengths, middle, hmiddle, h⟩ := h
  split at h
  · next hdata =>
    split at h
    · next hfills =>
      obtain ⟨rfl, rfl⟩ := Prod.mk.inj (Except.ok.inj h)
      refine ⟨hrank, ⟨lengths, hlengths, hmiddle⟩, hdata.symm, ?_⟩
      rintro held ⟨rfl⟩
      exact hfills
    · cases h
  · next hdata =>
    obtain ⟨rfl, rfl⟩ := Prod.mk.inj (Except.ok.inj h)
    exact ⟨hrank, ⟨lengths, hlengths, hmiddle⟩, hdata.symm, by rintro held ⟨⟩⟩

theorem bindInput_grows {node : Node} {feed : Feed} {data : Option (List Number)}
    (h : bindInput node feed env = .ok (env', data)) : env.Grows env' := by
  obtain ⟨_, ⟨_, _, haxes⟩, _⟩ := bindInput_ok h
  exact bindAxes_grows haxes

theorem bindResults_grows {name : String} {axis : Nat} {values : List Number}
    {lengths : List Size} (h : bindResults name axis values lengths env = .ok env') :
    env.Grows env' := by
  induction values generalizing axis lengths env with
  | nil =>
      obtain rfl := Except.ok.inj h
      exact .refl env
  | cons value values ih =>
      cases lengths with
      | nil =>
          obtain rfl := Except.ok.inj h
          exact .refl env
      | cons length lengths =>
          simp only [bindResults, bind_eq_ok] at h
          obtain ⟨middle, hmiddle, hrest⟩ := h
          exact (Environment.unify_grows hmiddle).trans (ih hrest)

/-- A computation runs as far as the resolution of the view that it returns. -/
theorem runPayload_eq_ok {name : String} {node : Node} {payload : Payload}
    {inputs : List FunctionInput} {result : FunctionResult} {sizes : List Number} :
    runPayload name node payload inputs env = .ok (result, sizes) ↔
      payload.run inputs node.id = .ok result ∧
        ∃ view, result.view.resolve env.bindings = .ok view ∧ view.shape = sizes := by
  simp only [runPayload, mapError_eq_ok, bind_eq_ok, pure_eq_ok, Prod.mk.injEq]
  constructor
  · rintro ⟨_, hrun, view, hview, rfl, hshape⟩
    exact ⟨hrun, view, hview, hshape⟩
  · rintro ⟨hrun, view, hview, hshape⟩
    exact ⟨result, hrun, view, hview, rfl, hshape⟩

/-- The three conditions that a result has to meet, one after the other. -/
theorem checkResult_eq (name : String) (node : Node) (result : FunctionResult)
    (sizes : List Number) : checkResult name node result sizes =
      if !result.id.same (.ofNat node.id) then
        .error (.payload name node.id (.wrongNode result.id))
      else if sizes.length ≠ node.shape.length then
        .error (.payload name node.id (.rank sizes.length node.shape))
      else
        match result.data with
        | some data =>
          if (Number.ofNat data.length).same (Number.product sizes) then .ok ()
          else .error (.payload name node.id (.count data.length sizes))
        | none => .ok () := by
  cases hdata : result.data <;> simp only [checkResult, hdata] <;> rfl

/-- A result that is accepted has the declared rank, and its data fills its sizes. -/
theorem checkResult_ok {name : String} {node : Node} {result : FunctionResult}
    {sizes : List Number} (h : checkResult name node result sizes = .ok ()) :
    sizes.length = node.shape.length ∧ ∀ data, result.data = some data →
      (Number.ofNat data.length).same (Number.product sizes) = true := by
  simp only [checkResult_eq, ite_error_eq_ok, not_not] at h
  obtain ⟨_, hrank, h⟩ := h
  refine ⟨hrank, fun data hdata => ?_⟩
  rw [hdata] at h
  exact (ite_ok_eq_ok.mp h).1

/-- A host computation that goes through has returned a view that is resolved to sizes of
the declared rank, with which the declared sizes are unified, and the data of the node. -/
theorem invokeFunction_ok {node : Node} {resolved : List ResolvedNode}
    {data : Option (List Number)}
    (h : (invokeFunction node resolved env).outcome = .ok (env', data)) :
    ∃ payload inputs result view declared, node.payload = some payload ∧
      functionInputs (node.name.getD "function") node resolved = .ok inputs ∧
      payload.run inputs node.id = .ok result ∧ result.view.resolve env.bindings = .ok view ∧
      checkResult (node.name.getD "function") node result view.shape = .ok () ∧
      node.view.lengths = .ok declared ∧
      bindResults (node.name.getD "function") 0 view.shape declared env = .ok env' ∧
      data = result.data := by
  unfold invokeFunction at h
  cases hpayload : node.payload with
  | none =>
      rw [hpayload] at h
      cases h
  | some payload =>
      simp only [hpayload, Run.outcome_bind_eq_ok, Run.outcome_liftM, Run.outcome_pure] at h
      obtain ⟨inputs, hinputs, _, _, _, _, ⟨result, sizes⟩, hrun, _, hchecked, declared,
        hdeclared, middle, hmiddle, h⟩ := h
      obtain ⟨rfl, hdata⟩ := Prod.mk.inj (Except.ok.inj h)
      obtain ⟨hresult, view, hsizes, rfl⟩ := runPayload_eq_ok.mp hrun
      exact ⟨payload, inputs, result, view, declared, rfl, hinputs, hresult, hsizes, hchecked,
        hdeclared, hmiddle, hdata.symm⟩

theorem invokeFunction_grows {node : Node} {resolved : List ResolvedNode}
    {data : Option (List Number)}
    (h : (invokeFunction node resolved env).outcome = .ok (env', data)) : env.Grows env' := by
  obtain ⟨_, _, _, _, _, _, _, _, _, _, _, hbound, _⟩ := invokeFunction_ok h
  exact bindResults_grows hbound

/-- What a node contributes makes the environment grow. -/
theorem evaluateNode_grows {inputs : Entries Feed} {node : Node} {resolved : List ResolvedNode}
    {data : Option (List Number)}
    (h : (evaluateNode inputs node resolved env).outcome = .ok (env', data)) :
    env.Grows env' := by
  have hsame : ∀ {d : Option (List Number)},
      (pure (env, d) : Run _).outcome = .ok (env', data) → env.Grows env' := by
    intro d hd
    obtain rfl := (Prod.mk.inj (Except.ok.inj hd)).1
    exact .refl env
  unfold evaluateNode at h
  split at h
  · split at h
    · exact bindInput_grows h
    · exact hsame h
  · exact hsame h
  · exact invokeFunction_grows h
  · exact hsame h

/-- Reading an equality makes the environment grow. -/
theorem bindEquality_grows {equality : Equality}
    (h : bindEquality env equality = .ok env') : env.Grows env' := by
  simp only [bindEquality, bind_eq_ok] at h
  obtain ⟨left, _, right, _, h⟩ := h
  split at h
  · exact Environment.bind_grows h
  · exact Environment.bind_grows h
  · obtain rfl := Except.ok.inj h
    exact .refl env

/-- Reading some equalities makes the environment grow. -/
theorem bindObligations_grows {obligations : List Obligation}
    (h : bindObligations env obligations = .ok env') : env.Grows env' := by
  induction obligations generalizing env with
  | nil =>
      obtain rfl := Except.ok.inj h
      exact .refl env
  | cons obligation rest ih =>
      simp only [bindObligations, bind_eq_ok] at h
      obtain ⟨middle, hmiddle, hrest⟩ := h
      exact (bindEquality_grows hmiddle).trans (ih hrest)

/-! ## The walk -/

/-- The node shows a resolved view. -/
structure ResolvedNode.Shows (node : ResolvedNode) (view : ResolvedView) : Prop where
  shape_eq : node.shape = view.shape
  ranges_eq : node.ranges = view.ranges
  order_eq : node.order = view.order

/-- A resolved node: its view has been resolved under an environment that has
only grown since. -/
structure Resolves (final : Environment) (node : Node) (resolved : ResolvedNode) : Prop where
  id_eq : resolved.id = node.id
  view : ∃ env view, Environment.Grows env final ∧ node.view.resolve env.bindings = .ok view ∧
    resolved.Shows view

/-- What has been resolved stays so while the environment grows. -/
theorem Resolves.later {node : Node} {resolved : ResolvedNode} (h : Resolves env node resolved)
    (hgrows : env.Grows env') : Resolves env' node resolved :=
  ⟨h.id_eq, by
    obtain ⟨held, view, hheld, hview, hshows⟩ := h.view
    exact ⟨held, view, hheld.trans hgrows, hview, hshows⟩⟩

/-- A node is resolved by what it contributes, what its equalities bind, and its view. -/
theorem resolveNode_eq_ok {obligations : List Obligation} {inputs : Entries Feed} {node : Node}
    {resolved : List ResolvedNode} {next : ResolvedNode} :
    (resolveNode obligations inputs node resolved env).outcome = .ok (env', next) ↔
      ∃ middle data view, (evaluateNode inputs node resolved env).outcome = .ok (middle, data) ∧
        bindObligations middle (obligations.filter fun o => o.node = .ofNat node.id) = .ok env' ∧
        node.view.resolve env'.bindings = .ok view ∧
        next = ⟨node.id, node.kind, view.shape, view.ranges, view.order, data⟩ := by
  simp only [resolveNode, Run.outcome_bind_eq_ok, Run.outcome_liftM, Run.outcome_pure,
    Except.ok.injEq, Prod.mk.injEq]
  constructor
  · rintro ⟨⟨middle, data⟩, hmiddle, last, hlast, view, hview, rfl, rfl⟩
    exact ⟨middle, data, view, hmiddle, hlast, hview, rfl⟩
  · rintro ⟨middle, data, view, hmiddle, hlast, hview, rfl⟩
    exact ⟨(middle, data), hmiddle, env', hlast, view, hview, rfl, rfl⟩

/-- Resolving a node makes the environment grow, and its view has been resolved then. -/
theorem resolveNode_ok {obligations : List Obligation} {inputs : Entries Feed} {node : Node}
    {resolved : List ResolvedNode} {next : ResolvedNode}
    (h : (resolveNode obligations inputs node resolved env).outcome = .ok (env', next)) :
    env.Grows env' ∧ Resolves env' node next := by
  obtain ⟨_, _, view, hmiddle, hlast, hview, rfl⟩ := resolveNode_eq_ok.mp h
  exact ⟨(evaluateNode_grows hmiddle).trans (bindObligations_grows hlast), rfl, env', view,
    .refl env', hview, rfl, rfl, rfl⟩

/-- **A successful walk** resolves every node, in order, while the environment
grows. -/
theorem walk_ok {obligations : List Obligation} {inputs : Entries Feed} {nodes : List Node}
    {resolved result : List ResolvedNode}
    (h : (walk obligations inputs nodes resolved env).outcome = .ok (env', result)) :
    env.Grows env' ∧ ∃ walked, result = resolved ++ walked ∧
      List.Forall₂ (Resolves env') nodes walked := by
  induction nodes generalizing env resolved with
  | nil =>
      obtain ⟨rfl, rfl⟩ := Prod.mk.inj (Except.ok.inj h)
      exact ⟨.refl env, [], by simp, .nil⟩
  | cons node rest ih =>
      simp only [walk, Run.outcome_bind_eq_ok] at h
      obtain ⟨⟨middle, next⟩, hnext, hrest⟩ := h
      obtain ⟨hgrows, hresolves⟩ := resolveNode_ok hnext
      obtain ⟨hgrows', walked, rfl, hwalked⟩ := ih hrest
      exact ⟨hgrows.trans hgrows', next :: walked, by simp,
        .cons (hresolves.later hgrows') hwalked⟩

/-- A check that goes through has evaluated both sides of every equality to the
same number. -/
theorem checkObligations_ok {bindings : Bindings} {obligations : List Obligation}
    (h : (checkObligations bindings obligations).outcome = .ok ()) :
    ∀ o ∈ obligations, ∃ l r, o.equality.left.evaluate bindings = .ok l ∧
      o.equality.right.evaluate bindings = .ok r ∧ l.same r = true := by
  induction obligations with
  | nil => simp
  | cons obligation rest ih =>
      simp only [checkObligations, Run.outcome_bind_eq_ok, Run.outcome_liftM] at h
      obtain ⟨l, hl, r, hr, h⟩ := h
      split at h
      · next hsame => exact List.forall_mem_cons.mpr ⟨⟨l, r, hl, hr, hsame⟩, ih h⟩
      · simp only [Run.outcome_bind_eq_ok, Run.outcome_lift] at h
        obtain ⟨_, _, h⟩ := h
        cases h

/-! ## Resolutions -/

/-- A resolution is a walk that starts from the given bindings, and a check of the
recorded equalities if it is asked for. -/
theorem Graph.resolve_parts {g : Graph} {options : ResolveOptions} {resolved : ResolvedGraph}
    (h : (g.resolve options).outcome = .ok resolved) :
    ∃ initial final, Environment.ofBindings options.bindings = .ok initial ∧
      (walk g.obligations options.inputs g.nodes [] initial).outcome =
        .ok (final, resolved.nodes) ∧
      resolved.bindings = final.bindings ∧
      (g.settings.checkObligations = true →
        (checkObligations resolved.bindings g.obligations).outcome = .ok ()) := by
  simp only [resolve, Run.outcome_bind_eq_ok, Run.outcome_liftM] at h
  obtain ⟨initial, hinitial, ⟨final, nodes⟩, hwalk, _, _, h⟩ := h
  by_cases hcheck : g.settings.checkObligations = true
  · simp only [hcheck, if_true, Run.outcome_bind_eq_ok, Run.outcome_pure, Except.ok.injEq] at h
    obtain ⟨_, hchecked, rfl⟩ := h
    exact ⟨initial, final, hinitial, hwalk, rfl, fun _ => hchecked⟩
  · simp only [hcheck] at h
    obtain rfl := Except.ok.inj h
    exact ⟨initial, final, hinitial, hwalk, rfl, fun hc => absurd hc hcheck⟩

/-- Once the walk is over, it is for the check to decide, if there is one. -/
theorem Graph.resolve_of_walk {g : Graph} {options : ResolveOptions}
    {initial final : Environment} {nodes : List ResolvedNode}
    (hinitial : Environment.ofBindings options.bindings = .ok initial)
    (hwalk : (walk g.obligations options.inputs g.nodes [] initial).outcome = .ok (final, nodes)) :
    (g.resolve options).outcome =
      (if g.settings.checkObligations then (checkObligations final.bindings g.obligations).outcome
        else .ok ()) >>= fun _ => .ok ⟨final.bindings, nodes⟩ := by
  simp only [resolve, Run.outcome_bind, Run.outcome_liftM, hinitial, ok_bind, hwalk,
    logBindings_outcome]
  by_cases hcheck : g.settings.checkObligations = true
  · rw [if_pos hcheck, if_pos hcheck, Run.outcome_bind]
    rfl
  · rw [if_neg hcheck, if_neg hcheck]
    rfl

/-- The resolved node of an id shows a resolved view. -/
def ResolvedGraph.Shows (resolved : ResolvedGraph) (id : Nat) (view : ResolvedView) : Prop :=
  ∃ node, resolved.view (.ofNat id) = .ok node ∧ node.Shows view

/-- **What a resolution shows.**  All bindings are integers, and under every
valuation that agrees with them each node shows its view, and none of the ranges
shown is reversed. -/
theorem Graph.resolve_shows [Unbounded] {g : Graph} (hg : g.WellFormed)
    {options : ResolveOptions} {resolved : ResolvedGraph}
    (h : (g.resolve options).outcome = .ok resolved) :
    resolved.bindings.Integral ∧ ∀ ρ, resolved.bindings.Agrees ρ →
      ∀ (place : Nat) (node : Node), g.nodes[place]? = some node →
        resolved.Shows place (node.view.concrete ρ) ∧
          ∀ range ∈ node.view.shown, range.Proper ρ := by
  obtain ⟨initial, final, hinitial, hwalk, hbindings, _⟩ := resolve_parts h
  obtain ⟨hgrows, walked, hwhole, hwalked⟩ := walk_ok hwalk
  have hnodes : resolved.nodes = walked := hwhole
  have hsound : final.Sound := hgrows.sound (Environment.ofBindings_sound hinitial)
  rw [hbindings]
  refine ⟨hsound.integral, fun ρ hρ place node hnode => ?_⟩
  have hkeeps := hg.keeps place node hnode
  obtain ⟨hlt, rfl⟩ := List.getElem?_eq_some_iff.mp hnode
  have hlt' : place < walked.length := hwalked.length_eq ▸ hlt
  obtain ⟨_, env, view, henv, hview, hshows⟩ :=
    (List.forall₂_iff_get.mp hwalked).2 place hlt hlt'
  obtain ⟨rfl, hproper⟩ :=
    View.resolve_value hkeeps.wellFormed hkeeps.integral (henv.agrees hρ) hview
  refine ⟨⟨walked[place], ?_, hshows⟩, hproper⟩
  simp [ResolvedGraph.view, hnodes, hlt']

/-- The resolved node of an id has the given sizes. -/
def ResolvedGraph.HasShape (resolved : ResolvedGraph) (id : Nat) (shape : List Int) : Prop :=
  ∃ node, resolved.view (.ofNat id) = .ok node ∧ node.shape = shape.map .int

/-- **A successful resolution.**  All bindings are integers, and under every
valuation that agrees with them the recorded equalities hold and every node has
its extent. -/
theorem Graph.resolve_ok [Unbounded] {g : Graph} (hg : g.WellFormed) {options : ResolveOptions}
    {resolved : ResolvedGraph} (hcheck : g.settings.checkObligations = true)
    (h : (g.resolve options).outcome = .ok resolved) :
    resolved.bindings.Integral ∧ ∀ ρ, resolved.bindings.Agrees ρ →
      g.Holds ρ ∧ ∀ (place : Nat) (node : Node), g.nodes[place]? = some node →
        resolved.HasShape place (node.view.extent ρ) := by
  obtain ⟨_, _, _, _, _, hchecked⟩ := resolve_parts h
  obtain ⟨hb, hall⟩ := resolve_shows hg h
  refine ⟨hb, fun ρ hρ => ⟨fun o ho => ?_, fun place node hnode => ?_⟩⟩
  · obtain ⟨l, r, hl, hr, hsame⟩ := checkObligations_ok (hchecked hcheck) o ho
    obtain ⟨hil, hir⟩ := hg.obligations o ho
    rw [Size.evaluate_value hil hρ hl, Size.evaluate_value hir hρ hr] at hsame
    simpa [Equality.Holds] using hsame
  · obtain ⟨⟨held, hheld, hshows⟩, _⟩ := hall ρ hρ place node hnode
    exact ⟨held, hheld, hshows.shape_eq⟩

end

end ShapeGraph
