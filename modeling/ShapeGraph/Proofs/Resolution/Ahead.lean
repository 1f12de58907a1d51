import ShapeGraph.Proofs.Resolution.Between
import ShapeGraph.Proofs.Resolution.Walk

/-!
# Runs that are ahead of another one

A run that starts with bindings which another run finds only later knows symbols
earlier.  What the one binds by a feed the other one checks against it; what an
equality binds is bound at another node or not at all; and the views that host
computations return are resolved where more is known.  At every step the run that is
ahead goes through as well, stays between the other one and the final bindings, and
gives the same data and the same nodes.

* `Equality.Fulfilled` — an equality that holds under the final bindings;
* `bindObligations_between`, `bindInput_between`, `invokeFunction_between` — each
  source of bindings;
* `resolveNode_between`, `walk_between` — one node, and all nodes;
* `checkObligations_fulfilled` — the final check.
-/

namespace ShapeGraph

open ShapeGraph.Numeric (Arithmetic Number Unbounded)
open Environment (Between)

section

variable [Arithmetic]

/-- Both sides of an equality are regular, and they come to the same integer. -/
structure Equality.Fulfilled (bindings : Bindings) (e : Equality) : Prop where
  left : e.left.Regular bindings
  right : e.right.Regular bindings
  value : ∃ n : Int, e.left.evaluate bindings = .ok (.int n) ∧
    e.right.evaluate bindings = .ok (.int n)

variable [Unbounded] {final lower upper lower' : Environment}

/-! ## Equalities -/

/-- A symbol that is left of one side of an equality is bound in the end to what the
other side has come to. -/
theorem Environment.Between.final_value (hbetween : Between lower upper final) {s t : Size}
    (hs : s.Regular final.bindings) (ht : t.Regular final.bindings)
    (hvalue : ∃ n : Int, s.evaluate final.bindings = .ok (.int n) ∧
      t.evaluate final.bindings = .ok (.int n)) {l : Number} {name : String}
    (hl : s.substitute upper.bindings = .ok (.literal l))
    (hname : t.substitute upper.bindings = .ok (.symbol name)) :
    final.bindings.get? name = some l := by
  have hend := Between.at_end hbetween.above hbetween.sound
  obtain ⟨n, hsn, htn⟩ := hvalue
  obtain ⟨u, hu, hstage⟩ := hend.at_stage hs hl
  obtain rfl := Size.substitute_literal.mp hstage
  obtain ⟨w, hw, hstage'⟩ := hend.at_stage ht hname
  obtain rfl : l = .int n :=
    Except.ok.inj ((Size.evaluate_eq_ok.mpr hu).symm.trans hsn)
  obtain rfl : w = .literal (.int n) :=
    Except.ok.inj (hw.symm.trans (Size.evaluate_eq_ok.mp htn))
  rw [Size.substitute_symbol] at hstage'
  cases hheld : final.bindings.get? name with
  | none =>
      rw [hheld] at hstage'
      cases hstage'
  | some v =>
      rw [hheld] at hstage'
      cases hstage'
      rfl

/-- What an equality binds in one run, it binds in the other one unless it is bound
there already; and what it binds only there is bound to its final value. -/
theorem bindEquality_between (hbetween : Between lower upper final) {e : Equality}
    (he : e.Fulfilled final.bindings) (h : bindEquality lower e = .ok lower')
    (hfinal : lower'.bindings.Below final.bindings) :
    ∃ upper', bindEquality upper e = .ok upper' ∧ Between lower' upper' final := by
  simp only [bindEquality, bind_eq_ok] at h
  obtain ⟨left, hleft, right, hright, h⟩ := h
  obtain ⟨left', hleft', hl⟩ := hbetween.at_stage he.left hleft
  obtain ⟨right', hright', hr⟩ := hbetween.at_stage he.right hright
  simp only [bindEquality, hleft', hright', bind, Except.bind]
  split at h
  · obtain rfl := Size.substitute_literal.mp hl
    rcases hbetween.bind_later h hfinal hr with ⟨rfl, hheld⟩ | ⟨rfl, hbinds⟩
    · exact ⟨upper, rfl, hheld⟩
    · exact hbinds
  · obtain rfl := Size.substitute_literal.mp hr
    rcases hbetween.bind_later h hfinal hl with ⟨rfl, hheld⟩ | ⟨rfl, hbinds⟩
    · exact ⟨upper, rfl, hheld⟩
    · exact hbinds
  · obtain rfl := Except.ok.inj h
    -- the other run may bind what this one has not yet come to
    split
    · have hvalue := hbetween.final_value he.left he.right he.value hleft' hright'
      exact hbetween.bind_ahead hvalue
    · obtain ⟨n, hln, hrn⟩ := he.value
      have hvalue := hbetween.final_value he.right he.left ⟨n, hrn, hln⟩ hright' hleft'
      exact hbetween.bind_ahead hvalue
    · exact ⟨upper, rfl, hbetween⟩

/-- Equalities that come out fulfilled are bound ahead of their turn, too. -/
theorem bindObligations_between (hbetween : Between lower upper final)
    {obligations : List Obligation} (ho : ∀ o ∈ obligations, o.equality.Fulfilled final.bindings)
    (h : bindObligations lower obligations = .ok lower')
    (hfinal : lower'.bindings.Below final.bindings) :
    ∃ upper', bindObligations upper obligations = .ok upper' ∧ Between lower' upper' final := by
  induction obligations generalizing lower upper with
  | nil =>
      obtain rfl := Except.ok.inj h
      exact ⟨upper, rfl, hbetween⟩
  | cons obligation rest ih =>
      obtain ⟨hthis, hrest⟩ := List.forall_mem_cons.mp ho
      simp only [bindObligations, bind_eq_ok] at h ⊢
      obtain ⟨middle, hmiddle, h⟩ := h
      have hbelow := (bindObligations_grows h).below.trans hfinal
      obtain ⟨ahead, hahead, hmid⟩ := bindEquality_between hbetween hthis hmiddle hbelow
      obtain ⟨upper', hupper', hlast⟩ := ih hmid hrest h
      exact ⟨upper', ⟨ahead, hahead, hupper'⟩, hlast⟩

/-! ## Inputs -/

/-- The axes of a feed are bound ahead of their turn, too, if their lengths are regular. -/
theorem bindAxes_between (hbetween : Between lower upper final) {name : String} {axis : Nat}
    {dims : Shape} {values : List Number} {lengths : List Size}
    (hlengths : ∀ s ∈ lengths, s.Regular final.bindings)
    (h : bindAxes name axis dims values lengths lower = .ok lower')
    (hfinal : lower'.bindings.Below final.bindings) :
    ∃ upper', bindAxes name axis dims values lengths upper = .ok upper' ∧
      Between lower' upper' final := by
  induction dims generalizing axis values lengths lower upper with
  | nil =>
      obtain rfl := Except.ok.inj h
      exact ⟨upper, rfl, hbetween⟩
  | cons dim dims ih =>
      cases values with
      | nil =>
          obtain rfl := Except.ok.inj h
          exact ⟨upper, rfl, hbetween⟩
      | cons value values =>
          cases lengths with
          | nil =>
              obtain rfl := Except.ok.inj h
              exact ⟨upper, rfl, hbetween⟩
          | cons length lengths =>
              obtain ⟨hlength, hrest⟩ := List.forall_mem_cons.mp hlengths
              simp only [bindAxes, bind_eq_ok] at h ⊢
              obtain ⟨_, hconstant, middle, hmiddle, h⟩ := h
              have hbelow := (bindAxes_grows h).below.trans hfinal
              obtain ⟨ahead, hahead, hmid⟩ :=
                Environment.unify_between hbetween hlength hmiddle hbelow
              obtain ⟨upper', hupper', hlast⟩ := ih hmid hrest h
              exact ⟨upper', ⟨_, hconstant, ahead, hahead, hupper'⟩, hlast⟩

/-- An input binds what it bound, and brings the same data. -/
theorem bindInput_between (hbetween : Between lower upper final) {node : Node} {feed : Feed}
    (hview : node.view.Regular final.bindings) {data : Option (List Number)}
    (h : bindInput node feed lower = .ok (lower', data))
    (hfinal : lower'.bindings.Below final.bindings) :
    ∃ upper', bindInput node feed upper = .ok (upper', data) ∧ Between lower' upper' final := by
  simp only [bindInput, ite_error_eq_ok, bind_eq_ok] at h ⊢
  obtain ⟨hrank, lengths, hlengths, middle, hmiddle, h⟩ := h
  have hregular := hview.of_lengths hlengths
  cases hdata : feed.data with
  | none =>
      rw [hdata] at h
      obtain ⟨rfl, rfl⟩ := Prod.mk.inj (Except.ok.inj h)
      obtain ⟨upper', hupper', hlast⟩ := bindAxes_between hbetween hregular hmiddle hfinal
      exact ⟨upper', ⟨hrank, lengths, hlengths, upper', hupper', rfl⟩, hlast⟩
  | some values =>
      simp only [hdata] at h
      obtain ⟨hcount, h⟩ := ite_ok_eq_ok.mp h
      obtain ⟨rfl, rfl⟩ := Prod.mk.inj h
      obtain ⟨upper', hupper', hlast⟩ := bindAxes_between hbetween hregular hmiddle hfinal
      exact ⟨upper', ⟨hrank, lengths, hlengths, upper', hupper', if_pos hcount⟩, hlast⟩

/-! ## Host computations -/

/-- What the host computation of a node returns a view of, given the nodes that have been
resolved. -/
def Node.Returns (node : Node) (resolved : List ResolvedNode) (view : View) : Prop :=
  ∃ run inputs result, node.payload = some (.host run) ∧
    functionInputs (node.name.getD "function") node resolved = .ok inputs ∧
    run inputs node.id = .ok result ∧ result.view = view

/-- The axes of a result are bound ahead of their turn, too, if their lengths are regular. -/
theorem bindResults_between (hbetween : Between lower upper final) {name : String} {axis : Nat}
    {values : List Number} {lengths : List Size}
    (hlengths : ∀ s ∈ lengths, s.Regular final.bindings)
    (h : bindResults name axis values lengths lower = .ok lower')
    (hfinal : lower'.bindings.Below final.bindings) :
    ∃ upper', bindResults name axis values lengths upper = .ok upper' ∧
      Between lower' upper' final := by
  induction values generalizing axis lengths lower upper with
  | nil =>
      obtain rfl := Except.ok.inj h
      exact ⟨upper, rfl, hbetween⟩
  | cons value values ih =>
      cases lengths with
      | nil =>
          obtain rfl := Except.ok.inj h
          exact ⟨upper, rfl, hbetween⟩
      | cons length lengths =>
          obtain ⟨hlength, hrest⟩ := List.forall_mem_cons.mp hlengths
          simp only [bindResults, bind_eq_ok] at h ⊢
          obtain ⟨middle, hmiddle, h⟩ := h
          have hbelow := (bindResults_grows h).below.trans hfinal
          obtain ⟨ahead, hahead, hmid⟩ :=
            Environment.unify_between hbetween hlength hmiddle hbelow
          obtain ⟨upper', hupper', hlast⟩ := ih hmid hrest h
          exact ⟨upper', ⟨ahead, hahead, hupper'⟩, hlast⟩

omit [Unbounded] in
/-- The view of a computation that is built in has literals for its sizes. -/
theorem View.ofQuantities_regular {bindings : Bindings} {numbers : List Number} {view : View}
    (h : View.ofQuantities (numbers.map .number) = .ok view) : view.Regular bindings := by
  obtain ⟨sizes, hsizes, h⟩ := bind_eq_ok.mp h
  obtain rfl := Except.ok.inj h
  have hliteral : ∀ s ∈ sizes, ∃ n : Int, s = .literal (.int n) := by
    intro s hs
    obtain ⟨quantity, hquantity, hsize⟩ := exists_of_mem_mapM hsizes hs
    obtain ⟨v, _, rfl⟩ := List.mem_map.mp hquantity
    obtain ⟨hsafe, rfl⟩ := ite_ok_eq_ok.mp hsize
    obtain ⟨n, rfl⟩ := Number.eq_int_of_isSafe hsafe
    exact ⟨n, rfl⟩
  have hregular : ∀ n : Int, (Size.literal (.int n)).Regular bindings := fun n =>
    ⟨⟨n, rfl⟩, fun d hd => nomatch hd⟩
  have hintegral : ∀ s ∈ sizes, s.Integral := by
    intro s hs
    obtain ⟨n, rfl⟩ := hliteral s hs
    exact ⟨n, rfl⟩
  intro range hr
  rw [View.contiguous, Size.pinned_of_integral hintegral] at hr
  obtain ⟨size, hsize, rfl⟩ := List.mem_map.mp hr
  obtain ⟨n, rfl⟩ := hliteral size hsize
  exact ⟨hregular 0, hregular n⟩

omit [Unbounded] in
/-- Whatever computation a node has, the view that it returns is one that a host returns or
has numbers for its sizes. -/
theorem Node.run_view {node : Node} {resolved : List ResolvedNode} {payload : Payload}
    {inputs : List FunctionInput} {result : FunctionResult} (hpayload : node.payload = some payload)
    (hinputs : functionInputs (node.name.getD "function") node resolved = .ok inputs)
    (h : payload.run inputs node.id = .ok result) : node.Returns resolved result.view ∨
      ∃ numbers : List Number, View.ofQuantities (numbers.map .number) = .ok result.view := by
  cases payload with
  | arange axis =>
      simp only [Payload.run, bind_eq_ok, pure_eq_ok] at h
      obtain ⟨length, _, _, _, view, hview, rfl⟩ := h
      exact .inr ⟨[length], hview⟩
  | causalMask axis =>
      simp only [Payload.run, bind_eq_ok, pure_eq_ok] at h
      obtain ⟨length, _, _, _, _, _, view, hview, rfl⟩ := h
      exact .inr ⟨[length, length], hview⟩
  | host run => exact .inl ⟨run, inputs, result, hpayload, hinputs, h, rfl⟩

omit [Unbounded] in
/-- Whatever computation a node has, it returns a regular view if host computations do. -/
theorem Node.run_regular {bindings : Bindings} {node : Node} {resolved : List ResolvedNode}
    (hreturned : ∀ view, node.Returns resolved view → view.Regular bindings) {payload : Payload}
    {inputs : List FunctionInput} {result : FunctionResult} (hpayload : node.payload = some payload)
    (hinputs : functionInputs (node.name.getD "function") node resolved = .ok inputs)
    (h : payload.run inputs node.id = .ok result) : result.view.Regular bindings := by
  rcases Node.run_view hpayload hinputs h with hhost | ⟨numbers, hnumbers⟩
  · exact hreturned _ hhost
  · exact View.ofQuantities_regular hnumbers

/-- A host computation sees the same inputs and returns the same view, which is resolved
to the same sizes. -/
theorem invokeFunction_between (hbetween : Between lower upper final) {node : Node}
    {resolved : List ResolvedNode} (hview : node.view.Regular final.bindings)
    (hreturned : ∀ view, node.Returns resolved view → view.Regular final.bindings)
    {data : Option (List Number)}
    (h : (invokeFunction node resolved lower).outcome = .ok (lower', data))
    (hfinal : lower'.bindings.Below final.bindings) :
    ∃ upper', (invokeFunction node resolved upper).outcome = .ok (upper', data) ∧
      Between lower' upper' final := by
  unfold invokeFunction at h ⊢
  cases hpayload : node.payload with
  | none =>
      rw [hpayload] at h
      cases h
  | some payload =>
      simp only [hpayload, Run.outcome_bind_eq_ok, Run.outcome_liftM, Run.outcome_pure] at h ⊢
      obtain ⟨inputs, hinputs, _, hlogged, _, hseen, ⟨result, sizes⟩, hrun, _, hchecked, declared,
        hdeclared, middle, hmiddle, h⟩ := h
      obtain ⟨rfl, rfl⟩ := Prod.mk.inj (Except.ok.inj h)
      obtain ⟨hresult, view, hsizes, hshape⟩ := runPayload_eq_ok.mp hrun
      have hregular := Node.run_regular hreturned hpayload hinputs hresult
      have hsame := View.resolve_later hbetween hregular hsizes
      obtain ⟨upper', hupper', hlast⟩ :=
        bindResults_between hbetween (hview.of_lengths hdeclared) hmiddle hfinal
      exact ⟨upper', ⟨inputs, hinputs, (), hlogged, (), hseen, (result, sizes),
        runPayload_eq_ok.mpr ⟨hresult, view, hsame, hshape⟩, (), hchecked, declared, hdeclared,
        upper', hupper', rfl⟩, hlast⟩

/-! ## The walk -/

/-- A node contributes the same data, and binds what it bound. -/
theorem evaluateNode_between (hbetween : Between lower upper final) {inputs : Entries Feed}
    {node : Node} {resolved : List ResolvedNode} (hview : node.view.Regular final.bindings)
    (hreturned : node.kind = .function →
      ∀ view, node.Returns resolved view → view.Regular final.bindings)
    {data : Option (List Number)}
    (h : (evaluateNode inputs node resolved lower).outcome = .ok (lower', data))
    (hfinal : lower'.bindings.Below final.bindings) :
    ∃ upper', (evaluateNode inputs node resolved upper).outcome = .ok (upper', data) ∧
      Between lower' upper' final := by
  have hsame : ∀ {d : Option (List Number)},
      (pure (lower, d) : Run _).outcome = .ok (lower', data) →
        ∃ upper', (pure (upper, d) : Run _).outcome = .ok (upper', data) ∧
          Between lower' upper' final := by
    intro d hd
    obtain ⟨rfl, rfl⟩ := Prod.mk.inj (Except.ok.inj hd)
    exact ⟨upper, rfl, hbetween⟩
  unfold evaluateNode at h ⊢
  cases hkind : node.kind with
  | input =>
      simp only [hkind] at h ⊢
      cases hfeed : inputs.get? (node.name.getD "") with
      | none =>
          rw [hfeed] at h
          exact hsame h
      | some feed =>
          rw [hfeed] at h
          exact bindInput_between hbetween hview h hfinal
  | constant =>
      simp only [hkind] at h ⊢
      exact hsame h
  | function =>
      simp only [hkind] at h ⊢
      exact invokeFunction_between hbetween hview (hreturned hkind) h hfinal
  | _ =>
      simp only [hkind] at h ⊢
      exact hsame h

/-- A node is resolved to the same. -/
theorem resolveNode_between (hbetween : Between lower upper final) {obligations : List Obligation}
    (hfulfilled : ∀ o ∈ obligations, o.equality.Fulfilled final.bindings) {inputs : Entries Feed}
    {node : Node} {resolved : List ResolvedNode} (hview : node.view.Regular final.bindings)
    (hreturned : node.kind = .function →
      ∀ view, node.Returns resolved view → view.Regular final.bindings)
    {next : ResolvedNode}
    (h : (resolveNode obligations inputs node resolved lower).outcome = .ok (lower', next))
    (hfinal : lower'.bindings.Below final.bindings) :
    ∃ upper', (resolveNode obligations inputs node resolved upper).outcome = .ok (upper', next) ∧
      Between lower' upper' final := by
  obtain ⟨middle, data, view, hmiddle, hlast, hshown, rfl⟩ := resolveNode_eq_ok.mp h
  have hbelow := (bindObligations_grows hlast).below.trans hfinal
  obtain ⟨ahead, hahead, hmid⟩ := evaluateNode_between hbetween hview hreturned hmiddle hbelow
  obtain ⟨upper', hupper', hend⟩ := bindObligations_between hmid
    (fun o ho => hfulfilled o (List.mem_of_mem_filter ho)) hlast hfinal
  have hsame := View.resolve_later hend hview hshown
  exact ⟨upper', resolveNode_eq_ok.mpr ⟨ahead, data, view, hahead, hupper', hsame, rfl⟩, hend⟩

omit [Arithmetic] [Unbounded] in
/-- What has been resolved later makes no difference to a computation. -/
theorem Node.Returns.append {node : Node} {resolved : List ResolvedNode} {view : View}
    (h : node.Returns resolved view) (more : List ResolvedNode) :
    node.Returns (resolved ++ more) view := by
  obtain ⟨run, inputs, result, hpayload, hinputs, hrun, hview⟩ := h
  refine ⟨run, inputs, result, hpayload, ?_, hrun, hview⟩
  refine mapM_eq_ok.mpr ((mapM_eq_ok.mp hinputs).imp fun id input hinput => ?_)
  cases hheld : resolved[id]? with
  | none => simp [hheld] at hinput
  | some held =>
      rw [hheld] at hinput
      have hlt := (List.getElem?_eq_some_iff.mp hheld).1
      rw [List.getElem?_append_left hlt, hheld]
      exact hinput

omit [Unbounded] in
/-- What a computation returns during a walk, it returns at the end of it. -/
theorem Node.Returns.of_walk {node : Node} {resolved result : List ResolvedNode} {view : View}
    (hreturns : node.Returns resolved view) {obligations : List Obligation} {inputs : Entries Feed}
    {nodes : List Node} {next : ResolvedNode}
    (h : (walk obligations inputs nodes (resolved ++ [next]) lower).outcome =
      .ok (lower', result)) : node.Returns result view := by
  obtain ⟨_, walked, hwhole, _⟩ := walk_ok h
  rw [hwhole, List.append_assoc]
  exact hreturns.append _

/-- **The walk of a run that is ahead** ends with the same nodes. -/
theorem walk_between (hbetween : Between lower upper final) {obligations : List Obligation}
    (hfulfilled : ∀ o ∈ obligations, o.equality.Fulfilled final.bindings) {inputs : Entries Feed}
    {nodes : List Node} {resolved result : List ResolvedNode}
    (hviews : ∀ node ∈ nodes, node.view.Regular final.bindings)
    (hreturned : ∀ node ∈ nodes, node.kind = .function →
      ∀ view, node.Returns result view → view.Regular final.bindings)
    (h : (walk obligations inputs nodes resolved lower).outcome = .ok (lower', result))
    (hfinal : lower'.bindings.Below final.bindings) :
    ∃ upper', (walk obligations inputs nodes resolved upper).outcome = .ok (upper', result) ∧
      Between lower' upper' final := by
  induction nodes generalizing resolved lower upper with
  | nil =>
      obtain ⟨rfl, rfl⟩ := Prod.mk.inj (Except.ok.inj h)
      exact ⟨upper, rfl, hbetween⟩
  | cons node rest ih =>
      obtain ⟨hview, hviews⟩ := List.forall_mem_cons.mp hviews
      obtain ⟨hthis, hothers⟩ := List.forall_mem_cons.mp hreturned
      simp only [walk, Run.outcome_bind_eq_ok] at h ⊢
      obtain ⟨⟨middle, next⟩, hnext, h⟩ := h
      obtain ⟨ahead, hahead, hmid⟩ := resolveNode_between hbetween hfulfilled hview
        (fun hkind view hreturns => hthis hkind view (hreturns.of_walk h)) hnext
        ((walk_ok h).1.below.trans hfinal)
      obtain ⟨upper', hupper', hend⟩ := ih hmid hviews hothers h
      exact ⟨upper', ⟨(ahead, next), hahead, hupper'⟩, hend⟩

/-- The final check goes through for the other run. -/
theorem checkObligations_fulfilled (hbetween : Between final upper final)
    {obligations : List Obligation}
    (hfulfilled : ∀ o ∈ obligations, o.equality.Fulfilled final.bindings) :
    (checkObligations upper.bindings obligations).outcome = .ok () := by
  induction obligations with
  | nil => rfl
  | cons obligation rest ih =>
      obtain ⟨⟨hleft, hright, n, hl, hr⟩, hrest⟩ := List.forall_mem_cons.mp hfulfilled
      simp only [checkObligations, Run.outcome_bind_eq_ok, Run.outcome_liftM]
      refine ⟨_, hbetween.evaluate_later hleft hl, _, hbetween.evaluate_later hright hr, ?_⟩
      rw [if_pos (by simp)]
      exact ih hrest

end

end ShapeGraph
