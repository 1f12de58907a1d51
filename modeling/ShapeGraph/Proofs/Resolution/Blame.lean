import ShapeGraph.Proofs.Resolution.Walk

/-!
# What a payload fault says about the graph

A payload fault comes from the call of a host computation and from nowhere else: sizes,
views and bindings have faults of their own, and a computation that fails is the cause of
another fault.  So if a computation is found to be missing, a function node has none; and
if an input is found not to be resolved, a function node comes before its input.

* `Fault.blame?`, `Blameless` — the payload fault that a fault is, and steps that end in none;
* `Blameless.bind` and the lemmas after it — the steps of a resolution but for the calls;
* `invokeFunction_blame`, `walk_blame` — the calls, and the walk;
* `Graph.resolve_blame` — what the faults of a resolution say.
-/

namespace ShapeGraph

open ShapeGraph.Numeric (Arithmetic Number)

/-- The payload fault that a fault is. -/
def Fault.blame? : Fault → Option PayloadFault
  | payload _ _ reason => some reason
  | _ => none

/-- A fault that says neither that a computation is missing nor that an input is not
resolved. -/
def Fault.Excuses (fault : Fault) : Prop :=
  fault.blame? ≠ some .missing ∧ ∀ id, fault.blame? ≠ some (.unresolvedInput id)

/-- A step that ends in no payload fault. -/
def Blameless {α : Type} (x : Except Fault α) : Prop :=
  ∀ fault, x = .error fault → fault.blame? = none

namespace Blameless

variable {α β : Type} {x : Except Fault α} {next : α → Except Fault β}

theorem ok (a : α) : Blameless (.ok a : Except Fault α) := nofun

/-- A fault without a payload fault in it blames nobody. -/
theorem error {fault : Fault} (h : fault.blame? = none) :
    Blameless (.error fault : Except Fault α) := by
  rintro _ ⟨rfl⟩
  exact h

/-- Two steps blame nobody if neither of them does. -/
theorem bind (hx : Blameless x) (hnext : ∀ a, x = .ok a → Blameless (next a)) :
    Blameless (x >>= next) := by
  intro fault h
  rcases bind_eq_error.mp h with h | ⟨a, ha, h⟩
  · exact hx fault h
  · exact hnext a ha fault h

/-- What ends in no payload fault says neither that a computation is missing nor that an input
is. -/
theorem excuses (hx : Blameless x) {fault : Fault} (h : x = .error fault) : fault.Excuses := by
  simp [Fault.Excuses, hx fault h]

/-- Steps on all items of a list blame nobody if none of them does. -/
theorem mapM {step : α → Except Fault β} {items : List α} (h : ∀ a ∈ items, Blameless (step a)) :
    Blameless (items.mapM step) := by
  intro fault hfault
  obtain ⟨a, ha, hstep⟩ := exists_error_of_mapM hfault
  exact h a ha fault hstep

end Blameless

section

variable [Arithmetic] {env : Environment} {bindings : Bindings}

/-! ## Sizes and views -/

/-- Substitution may divide by zero, and blames nobody. -/
theorem Size.substitute_blameless (s : Size) : Blameless (s.substitute bindings) := by
  have hcombine : ∀ (op : Operator) (l r : Size), Blameless (combine op l r) := by
    intro op l r
    cases op with
    | div =>
        show Blameless (l.div r)
        unfold div
        split <;> (try split) <;> first | exact .ok _ | exact .error rfl | skip
        split <;> exact .ok _
    | _ => exact .ok _
  induction s with
  | literal v => exact .ok _
  | symbol name =>
      rw [substitute_symbol]
      exact .ok _
  | binary op l r ihl ihr => exact ihl.bind fun l' _ => ihr.bind fun r' _ => hcombine op l' r'

/-- Evaluation may miss a symbol, and blames nobody. -/
theorem Size.evaluate_blameless (s : Size) : Blameless (s.evaluate bindings) := by
  refine s.substitute_blameless.bind fun t _ => ?_
  split
  · exact .ok _
  · exact .error rfl

omit [Arithmetic] in
/-- The ranges of a view are read without blame. -/
theorem View.ranges_blameless (v : View) : Blameless v.ranges := by
  refine .mapM fun axis _ => ?_
  unfold axisAt
  split
  · exact .ok _
  · exact .error rfl

theorem View.lengths_blameless (v : View) : Blameless v.lengths :=
  v.ranges_blameless.bind fun _ _ => .ok _

/-- A range may come out reversed, and blames nobody. -/
theorem View.resolveFrom_blameless {axis : Nat} {ranges : List AxisRange} :
    Blameless (resolveFrom bindings axis ranges) := by
  induction ranges generalizing axis with
  | nil => exact .ok _
  | cons range rest ih =>
      refine range.start.evaluate_blameless.bind fun start _ => ?_
      refine range.stop.evaluate_blameless.bind fun stop _ => ?_
      split
      · exact .error rfl
      · exact ih.bind fun _ _ => .ok _

theorem View.resolve_blameless (v : View) : Blameless (v.resolve bindings) :=
  v.ranges_blameless.bind fun _ _ => resolveFrom_blameless.bind fun _ _ => .ok _

/-! ## Bindings -/

omit [Arithmetic] in
/-- A binding may be refused, and blames nobody. -/
theorem Environment.bind_blameless (symbol : String) (value : Number) (source : Source) :
    Blameless (env.bind symbol value source) := by
  unfold Environment.bind
  split
  · split
    · split
      · exact .ok _
      · exact .error rfl
    · exact .ok _
  · exact .error rfl

omit [Arithmetic] in
theorem Environment.bindAll_blameless (given : Bindings) : Blameless (env.bindAll given) := by
  induction given generalizing env with
  | nil => exact .ok _
  | cons entry rest ih => exact (bind_blameless entry.1 entry.2 .explicit).bind fun _ _ => ih

/-- A unification may be refused, and blames nobody. -/
theorem Environment.unify_blameless (size : Size) (value : Number) (relation : String)
    (source : Source) : Blameless (env.unify size value relation source) := by
  refine size.substitute_blameless.bind fun pending _ => ?_
  split
  · split
    · exact .ok _
    · exact .error rfl
  · exact bind_blameless _ _ _
  · exact .error rfl

/-- The axes of a feed may be refused, and blame nobody. -/
theorem bindAxes_blameless {name : String} {axis : Nat} {dims : Shape} {values : List Number}
    {lengths : List Size} : Blameless (bindAxes name axis dims values lengths env) := by
  induction dims generalizing axis values lengths env with
  | nil => exact .ok _
  | cons dim dims ih =>
      cases values with
      | nil => exact .ok _
      | cons value values =>
          cases lengths with
          | nil => exact .ok _
          | cons length lengths =>
              have hconstant : Blameless (bindAxes.refuseConstant name axis dim value) := by
                unfold bindAxes.refuseConstant
                split
                · split
                  · exact .ok _
                  · exact .error rfl
                · exact .ok _
              exact hconstant.bind fun _ _ =>
                (Environment.unify_blameless _ _ _ _).bind fun _ _ => ih

theorem bindInput_blameless (node : Node) (feed : Feed) : Blameless (bindInput node feed env) := by
  unfold bindInput
  dsimp only
  split
  · exact .error rfl
  · refine node.view.lengths_blameless.bind fun _ _ => bindAxes_blameless.bind fun _ _ => ?_
    split
    · split
      · exact .ok _
      · exact .error rfl
    · exact .ok _

theorem bindResults_blameless {name : String} {axis : Nat} {values : List Number}
    {lengths : List Size} : Blameless (bindResults name axis values lengths env) := by
  induction values generalizing axis lengths env with
  | nil => exact .ok _
  | cons value values ih =>
      cases lengths with
      | nil => exact .ok _
      | cons length lengths =>
          exact (Environment.unify_blameless _ _ _ _).bind fun _ _ => ih

theorem bindObligations_blameless {obligations : List Obligation} :
    Blameless (bindObligations env obligations) := by
  induction obligations generalizing env with
  | nil => exact .ok _
  | cons obligation rest ih =>
      refine .bind ?_ fun _ _ => ih
      refine (Size.substitute_blameless _).bind fun left _ => ?_
      refine (Size.substitute_blameless _).bind fun right _ => ?_
      split
      · exact Environment.bind_blameless _ _ _
      · exact Environment.bind_blameless _ _ _
      · exact .ok _

/-- An equality that does not hold blames nobody. -/
theorem checkObligations_blameless {obligations : List Obligation} :
    Blameless (checkObligations bindings obligations).outcome := by
  induction obligations with
  | nil => exact .ok _
  | cons obligation rest ih =>
      simp only [checkObligations, Run.outcome_bind, Run.outcome_liftM]
      refine (Size.evaluate_blameless _).bind fun left _ => ?_
      refine (Size.evaluate_blameless _).bind fun right _ => ?_
      split
      · exact ih
      · exact .error rfl

/-! ## Calls -/

omit [Arithmetic] in
/-- An input that is not resolved is an input of the node, and comes no earlier than the
nodes that are. -/
theorem functionInputs_blame {name : String} {node : Node} {resolved : List ResolvedNode}
    {fault : Fault} (h : functionInputs name node resolved = .error fault) :
    ∃ id ∈ node.inputs, fault.blame? = some (.unresolvedInput id) ∧ resolved.length ≤ id := by
  obtain ⟨id, hid, hstep⟩ := exists_error_of_mapM h
  split at hstep
  · cases hstep
  · next hnone =>
    obtain rfl := Except.error.inj hstep
    exact ⟨id, hid, rfl, List.getElem?_eq_none_iff.mp hnone⟩

/-- What stops a computation is the cause of another fault. -/
theorem runPayload_blameless {name : String} {node : Node} {payload : Payload}
    {inputs : List FunctionInput} : Blameless (runPayload name node payload inputs env) := by
  intro fault h
  unfold runPayload at h
  dsimp only at h
  cases hattempt : (do
      let result ← payload.run inputs node.id
      let view ← result.view.resolve env.bindings
      return (result, view.shape) : Except Fault (FunctionResult × List Number)) with
  | error cause =>
      rw [hattempt] at h
      obtain rfl := Except.error.inj h
      rfl
  | ok result =>
      rw [hattempt] at h
      cases h

/-- A result is found fault with for what has been returned. -/
theorem checkResult_blame {name : String} {node : Node} {result : FunctionResult}
    {sizes : List Number} {fault : Fault} (h : checkResult name node result sizes = .error fault) :
    fault.Excuses := by
  rw [checkResult_eq] at h
  split at h
  · obtain rfl := Except.error.inj h
    exact ⟨nofun, nofun⟩
  · split at h
    · obtain rfl := Except.error.inj h
      exact ⟨nofun, nofun⟩
    · split at h
      · split at h
        · cases h
        · obtain rfl := Except.error.inj h
          exact ⟨nofun, nofun⟩
      · cases h

/-- What a fault of a call says about its node, if it says anything. -/
theorem invokeFunction_blame {node : Node} {resolved : List ResolvedNode} {fault : Fault}
    (h : (invokeFunction node resolved env).outcome = .error fault) :
    fault.Excuses ∨ (fault.blame? = some .missing ∧ node.payload = none) ∨
      ∃ id ∈ node.inputs, fault.blame? = some (.unresolvedInput id) ∧ resolved.length ≤ id := by
  unfold invokeFunction at h
  cases hpayload : node.payload with
  | none =>
      rw [hpayload] at h
      obtain rfl := Except.error.inj h
      exact .inr (.inl ⟨rfl, rfl⟩)
  | some payload =>
      simp only [hpayload, Run.outcome_bind, Run.outcome_liftM] at h
      rcases bind_eq_error.mp h with hinputs | ⟨inputs, _, h⟩
      · exact .inr (.inr (functionInputs_blame hinputs))
      · refine .inl ?_
        rcases bind_eq_error.mp h with hlog | ⟨_, _, h⟩
        · cases hlog
        rcases bind_eq_error.mp h with hseen | ⟨_, _, h⟩
        · cases payload <;> cases hseen
        rcases bind_eq_error.mp h with hrun | ⟨⟨result, sizes⟩, _, h⟩
        · exact runPayload_blameless.excuses hrun
        rcases bind_eq_error.mp h with hcheck | ⟨_, _, h⟩
        · exact checkResult_blame hcheck
        rcases bind_eq_error.mp h with hlengths | ⟨declared, _, h⟩
        · exact node.view.lengths_blameless.excuses hlengths
        rcases bind_eq_error.mp h with hbound | ⟨_, _, h⟩
        · exact bindResults_blameless.excuses hbound
        · cases h

/-! ## The walk -/

/-- A node that a fault is about: its computation is missing, or an input of its own is not
among the nodes before it. -/
structure Node.Dangles (node : Node) (place : Nat) (fault : Fault) : Prop where
  function : node.kind = .function
  reason : (fault.blame? = some .missing ∧ node.payload = none) ∨
    ∃ id ∈ node.inputs, fault.blame? = some (.unresolvedInput id) ∧ place ≤ id

/-- A node that is not resolved has nobody to blame, or is itself the one whose computation or
whose input is missing. -/
theorem resolveNode_blame {obligations : List Obligation} {inputs : Entries Feed} {node : Node}
    {resolved : List ResolvedNode} {fault : Fault}
    (h : (resolveNode obligations inputs node resolved env).outcome = .error fault) :
    fault.Excuses ∨ node.Dangles resolved.length fault := by
  simp only [resolveNode, Run.outcome_bind, Run.outcome_liftM] at h
  rcases bind_eq_error.mp h with hevaluate | ⟨⟨middle, data⟩, _, h⟩
  · unfold evaluateNode at hevaluate
    split at hevaluate
    · split at hevaluate
      · exact .inl ((bindInput_blameless node _).excuses hevaluate)
      · cases hevaluate
    · cases hevaluate
    · next hkind => exact (invokeFunction_blame hevaluate).imp_right fun hreason => ⟨hkind, hreason⟩
    · cases hevaluate
  · rcases bind_eq_error.mp h with hbound | ⟨last, _, h⟩
    · exact .inl (bindObligations_blameless.excuses hbound)
    · rcases bind_eq_error.mp h with hview | ⟨_, _, h⟩
      · exact .inl (node.view.resolve_blameless.excuses hview)
      · cases h

/-- What a fault of the walk says about one of its nodes. -/
theorem walk_blame {obligations : List Obligation} {inputs : Entries Feed} {nodes : List Node}
    {resolved : List ResolvedNode} {fault : Fault}
    (h : (walk obligations inputs nodes resolved env).outcome = .error fault) :
    fault.Excuses ∨ ∃ (place : Nat) (node : Node), nodes[place]? = some node ∧
      node.Dangles (resolved.length + place) fault := by
  induction nodes generalizing resolved env with
  | nil => cases h
  | cons node rest ih =>
      rw [walk, Run.outcome_bind] at h
      rcases bind_eq_error.mp h with hnode | ⟨⟨middle, next⟩, _, hrest⟩
      · exact (resolveNode_blame hnode).imp_right fun hdangles => ⟨0, node, rfl, hdangles⟩
      · refine (ih hrest).imp_right ?_
        rintro ⟨place, other, hother, hdangles⟩
        refine ⟨place + 1, other, hother, ?_⟩
        rw [List.length_append, List.length_singleton] at hdangles
        rwa [Nat.add_comm place 1, ← Nat.add_assoc]

/-- **What a fault of a resolution says about the graph.**  If it finds a computation
missing then a function node has none; and if it finds an input not resolved then that is the
input of a function node, and comes no earlier than that. -/
theorem Graph.resolve_blame {g : Graph} {options : ResolveOptions} {fault : Fault}
    (h : (g.resolve options).outcome = .error fault) :
    fault.Excuses ∨ ∃ (place : Nat) (node : Node), g.nodes[place]? = some node ∧
      node.Dangles place fault := by
  simp only [resolve, Run.outcome_bind, Run.outcome_liftM] at h
  rcases bind_eq_error.mp h with hinitial | ⟨initial, _, h⟩
  · exact .inl ((Environment.bindAll_blameless _).excuses hinitial)
  · rcases bind_eq_error.mp h with hwalk | ⟨⟨final, nodes⟩, _, h⟩
    · simpa using walk_blame hwalk
    · refine .inl ?_
      rcases bind_eq_error.mp h with hlog | ⟨_, _, h⟩
      · rw [logBindings_outcome] at hlog
        cases hlog
      · split at h
        · rw [Run.outcome_bind] at h
          rcases bind_eq_error.mp h with hcheck | ⟨_, _, h⟩
          · exact checkObligations_blameless.excuses hcheck
          · cases h
        · cases h

end

end ShapeGraph
