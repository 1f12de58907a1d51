import ShapeGraph.Proofs.Graph.Origin
import ShapeGraph.Proofs.Resolution.Ahead
import ShapeGraph.Proofs.Resolution.Reading

/-!
# What is known when an equality is read

The walk comes to the equalities of a node after the node has contributed what it can and
before its view is resolved.  So at the turn of an equality the views of all earlier nodes
are settled.  That of its own node need not be, unless the node is a function, which has
bound all of its lengths when it has run.

* `bindObligations_turn` — the turns at one node;
* `walk_append`, `walk_at` — a walk in two parts, and when it comes to a node;
* `settled_of_walk`, `invokeFunction_settled` — what is settled by then;
* `Graph.Turn`, `Graph.walk_turn` — every recorded equality has its turn, and a reading.
-/

namespace ShapeGraph

open ShapeGraph.Numeric (Arithmetic Number Unbounded)

section

variable [Arithmetic] {env env' final : Environment} {obligations : List Obligation}
  {inputs : Entries Feed}

/-- Every equality of a node has its turn. -/
theorem bindObligations_turn (h : bindObligations env obligations = .ok env') {o : Obligation}
    (ho : o ∈ obligations) : ∃ turn after, env.Grows turn ∧
      bindEquality turn o.equality = .ok after ∧ after.Grows env' ∧
      Reading.of turn o ∈ readObligations env obligations := by
  induction obligations generalizing env with
  | nil => cases ho
  | cons first rest ih =>
      obtain ⟨middle, hmiddle, hrest⟩ := bind_eq_ok.mp h
      rw [readObligations, hmiddle]
      rcases List.mem_cons.mp ho with rfl | ho
      · exact ⟨env, middle, .refl env, hmiddle, bindObligations_grows hrest, List.mem_cons_self⟩
      · obtain ⟨turn, after, hturn, hbinds, hafter, hread⟩ := ih hrest ho
        exact ⟨turn, after, (bindEquality_grows hmiddle).trans hturn, hbinds, hafter,
          List.mem_cons_of_mem _ hread⟩

/-- A walk over some nodes is a walk over the first of them and then over the others, and so
are its readings. -/
theorem walk_append {nodes others : List Node} {resolved result : List ResolvedNode}
    (h : (walk obligations inputs (nodes ++ others) resolved env).outcome = .ok (env', result)) :
    ∃ middle walked, (walk obligations inputs nodes resolved env).outcome = .ok (middle, walked) ∧
      (walk obligations inputs others walked middle).outcome = .ok (env', result) ∧
      readWalk obligations inputs (nodes ++ others) resolved env =
        readWalk obligations inputs nodes resolved env ++
          readWalk obligations inputs others walked middle := by
  induction nodes generalizing resolved env with
  | nil => exact ⟨env, resolved, rfl, h, rfl⟩
  | cons node rest ih =>
      simp only [List.cons_append, walk, Run.outcome_bind_eq_ok] at h
      obtain ⟨⟨after, next⟩, hnext, hrest⟩ := h
      obtain ⟨middle, walked, hwalked, hothers, hreadings⟩ := ih hrest
      refine ⟨middle, walked, ?_, hothers, ?_⟩
      · simp only [walk, Run.outcome_bind_eq_ok]
        exact ⟨(after, next), hnext, hwalked⟩
      · simp only [List.cons_append, readWalk, hnext, hreadings, List.append_assoc]

/-- A walk comes to the node of a place when it has resolved those before it, and has the
readings of that node. -/
theorem walk_at {nodes : List Node} {result : List ResolvedNode}
    (h : (walk obligations inputs nodes [] env).outcome = .ok (final, result))
    {place : Nat} {node : Node} (hnode : nodes[place]? = some node) :
    ∃ before after shown, (walk obligations inputs (nodes.take place) [] env).outcome =
        .ok (before, result.take place) ∧
      (resolveNode obligations inputs node (result.take place) before).outcome =
        .ok (after, shown) ∧ result[place]? = some shown ∧ after.Grows final ∧
      readNode obligations inputs node (result.take place) before ⊆
        readWalk obligations inputs nodes [] env := by
  obtain ⟨hplace, rfl⟩ := List.getElem?_eq_some_iff.mp hnode
  have hsplit : nodes = nodes.take place ++ nodes[place] :: nodes.drop (place + 1) := by
    rw [← List.drop_eq_getElem_cons hplace, List.take_append_drop]
  generalize nodes[place] = node at hsplit
  generalize hearlier : nodes.take place = earlier at hsplit
  have hlength : earlier.length = place := by
    rw [← hearlier, List.length_take, Nat.min_eq_left (Nat.le_of_lt hplace)]
  rw [hsplit] at h ⊢
  obtain ⟨before, walked, hbefore, hrest, hreadings⟩ := walk_append h
  simp only [walk, Run.outcome_bind_eq_ok] at hrest
  obtain ⟨⟨after, shown⟩, hshown, hlater⟩ := hrest
  obtain ⟨hgrows, later, rfl, _⟩ := walk_ok hlater
  obtain ⟨_, rfl, hresolves⟩ := (walk_ok hbefore).2
  have hwalked : walked.length = place := hresolves.length_eq.symm.trans hlength
  have htake : (walked ++ [shown] ++ later).take place = walked := by
    rw [List.append_assoc, List.take_left' hwalked]
  have hget : (walked ++ [shown] ++ later)[place]? = some shown := by
    rw [List.append_assoc, List.getElem?_append_right (Nat.le_of_eq hwalked), hwalked,
      Nat.sub_self]
    rfl
  refine ⟨before, after, shown, ?_, ?_, hget, hgrows, ?_⟩
  · rw [htake, hbefore]
  · rw [htake, hshown]
  · rw [htake, hreadings, readWalk]
    exact List.subset_append_of_subset_right _ (List.subset_append_left _ _)

variable [Unbounded]

/-- A size that has been unified with a number is settled. -/
theorem Environment.unify_settled {size : Size} {value : Number} {relation : String}
    {source : Source} (hsize : size.Integral) (h : env.unify size value relation source = .ok env')
    (hsound : env'.bindings.Integral) : size.Settled env'.bindings := by
  have hbelow := (unify_grows h).below
  obtain ⟨pending, hpending, h⟩ := bind_eq_ok.mp h
  refine .of_substitute hsize hsound hbelow hpending ?_
  cases pending with
  | literal known => exact Size.settled_literal known
  | symbol name => exact Size.settled_symbol.mpr ⟨value, (bind_ok h).1⟩
  | binary op l r => cases h

/-- The declared sizes of a function are settled once it has run. -/
theorem bindResults_settled {name : String} {axis : Nat} {values : List Number}
    {lengths : List Size} (hlengths : ∀ s ∈ lengths, s.Integral)
    (hcount : lengths.length ≤ values.length)
    (h : bindResults name axis values lengths env = .ok env') (hsound : env'.bindings.Integral) :
    ∀ s ∈ lengths, s.Settled env'.bindings := by
  induction values generalizing axis lengths env with
  | nil =>
      obtain rfl := List.length_eq_zero_iff.mp (Nat.le_zero.mp hcount)
      exact List.forall_mem_nil _
  | cons value values ih =>
      cases lengths with
      | nil => exact List.forall_mem_nil _
      | cons length lengths =>
          obtain ⟨hlength, hothers⟩ := List.forall_mem_cons.mp hlengths
          simp only [bindResults, bind_eq_ok] at h
          obtain ⟨middle, hmiddle, hrest⟩ := h
          have hbelow := (bindResults_grows hrest).below
          have hthis := Environment.unify_settled hlength hmiddle (hbelow.integral hsound)
          exact List.forall_mem_cons.mpr ⟨hthis.later hlength hsound hbelow,
            ih hothers (Nat.le_of_succ_le_succ hcount) hrest⟩

/-- A function that has run has settled the lengths of its node. -/
theorem invokeFunction_settled {node : Node} (hv : node.view.WellFormed)
    (hi : node.view.Integral) (hrank : node.view.rank = node.shape.length)
    {resolved : List ResolvedNode} {data : Option (List Number)}
    (h : (invokeFunction node resolved env).outcome = .ok (env', data))
    (hsound : env'.bindings.Integral) : ∀ s ∈ node.view.axisLengths, s.Settled env'.bindings := by
  obtain ⟨_, _, _, _, declared, _, _, _, _, hchecked, hdeclared, hbound, _⟩ := invokeFunction_ok h
  obtain rfl := View.axisLengths_eq hv hdeclared
  refine bindResults_settled (View.axisLengths_integral hi) ?_ hbound hsound
  rw [View.axisLengths, List.length_map, hv.length_shown, hrank, (checkResult_ok hchecked).1]

/-- The views that a walk has resolved are settled, and stay so. -/
theorem settled_of_walk {nodes : List Node} {resolved result : List ResolvedNode}
    (hnodes : ∀ node ∈ nodes, node.view.WellFormed ∧ node.view.Integral)
    (h : (walk obligations inputs nodes resolved env).outcome = .ok (env', result))
    (hintegral : final.bindings.Integral) (hgrows : env'.Grows final) :
    ∀ node ∈ nodes, node.view.Settled final.bindings := by
  intro node hmem
  obtain ⟨shown, _, hshown⟩ := (walk_ok h).2
  obtain ⟨place, hl, rfl⟩ := List.mem_iff_getElem.mp hmem
  have hl' : place < shown.length := hshown.length_eq ▸ hl
  obtain ⟨_, held, view, hheld, hview, _⟩ := (List.forall₂_iff_get.mp hshown).2 place hl hl'
  obtain ⟨hwell, hkept⟩ := hnodes _ hmem
  exact View.settled_of_resolve hwell hkept hintegral (hheld.trans hgrows).below hview

/-- What is known at the turn of an equality that is recorded on the node of a place: the
views before that place are settled, and so are the lengths of the node if it is a
function.  What the equality binds stays bound. -/
structure Graph.Turn (g : Graph) (o : Obligation) (place : Nat) (final turn : Environment) :
    Prop where
  earlier : g.SettledBefore place turn.bindings
  own : ∀ node, g.nodes[place]? = some node → node.kind = .function →
    ∀ s ∈ node.view.axisLengths, s.Settled turn.bindings
  binds : ∃ after, bindEquality turn o.equality = .ok after ∧ after.Grows final

omit [Arithmetic] [Unbounded] in
/-- The nodes of a well-formed graph have well-formed views of integers. -/
theorem Graph.WellFormed.view_ok {g : Graph} (hg : g.WellFormed) {node : Node}
    (hnode : node ∈ g.nodes) : node.view.WellFormed ∧ node.view.Integral := by
  obtain ⟨place, hplace⟩ := List.mem_iff_getElem?.mp hnode
  have hkeeps := hg.keeps place node hplace
  exact ⟨hkeeps.wellFormed, hkeeps.integral⟩

/-- **Every recorded equality has its turn** in a walk that succeeds, and a reading. -/
theorem Graph.walk_turn {g : Graph} (hg : g.WellFormed) {initial : Environment}
    (hsound : final.Sound) {result : List ResolvedNode}
    (h : (walk g.obligations inputs g.nodes [] initial).outcome = .ok (final, result))
    {o : Obligation} (ho : o ∈ g.obligations) {place : Nat} (hnamed : o.node = .ofNat place)
    (hplace : place < g.size) :
    ∃ turn, g.Turn o place final turn ∧
      Reading.of turn o ∈ readWalk g.obligations inputs g.nodes [] initial := by
  have hnode : g.nodes[place]? = some g.nodes[place] := List.getElem?_eq_getElem hplace
  have hkeeps := hg.keeps place _ hnode
  generalize g.nodes[place] = node at hnode hkeeps
  obtain ⟨before, last, next, hbefore, hnext, _, hlater, hreadings⟩ := walk_at h hnode
  obtain ⟨middle, data, _, hmiddle, hlast, _, _⟩ := resolveNode_eq_ok.mp hnext
  have hmem : o ∈ g.obligations.filter fun o => o.node = .ofNat node.id :=
    List.mem_filter.mpr ⟨ho, by simp [hkeeps.id_eq, hnamed]⟩
  obtain ⟨turn, after, hturn, hbinds, hafter, hread⟩ := bindObligations_turn hlast hmem
  have hends : after.Grows final := hafter.trans hlater
  have hintegral : turn.bindings.Integral :=
    ((bindEquality_grows hbinds).trans hends).below.integral hsound.integral
  refine ⟨turn, ⟨?_, ?_, after, hbinds, hends⟩, ?_⟩
  · intro earlier hlt other hother
    have hother' : (g.nodes.take place)[earlier]? = some other := by
      rwa [List.getElem?_take_of_lt hlt]
    have hviews := settled_of_walk (fun node hmem => hg.view_ok (List.mem_of_mem_take hmem))
      hbefore hintegral ((evaluateNode_grows hmiddle).trans hturn)
    exact hviews other (List.mem_of_getElem? hother')
  · intro other hother hkind
    obtain rfl := Option.some.inj (hnode.symm.trans hother)
    have hbelow := hturn.below
    have hinvoked :
        (invokeFunction node (result.take place) before).outcome = .ok (middle, data) := by
      rwa [evaluateNode, hkind] at hmiddle
    have hsettled := invokeFunction_settled hkeeps.wellFormed hkeeps.integral hkeeps.rank_eq
      hinvoked (hbelow.integral hintegral)
    exact fun s hs =>
      (hsettled s hs).later (View.axisLengths_integral hkeeps.integral s hs) hintegral hbelow
  · refine hreadings ?_
    rwa [readNode, hmiddle]

end

end ShapeGraph
