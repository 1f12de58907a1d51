import ShapeGraph.Proofs.Resolution.Walk

/-!
# What recorded equalities are read as

During the walk each recorded equality has one turn, after its node has contributed what
it can and after the equalities of the node that were recorded before it.  What its two
sides come to then decides what it does: it binds a bare symbol to a literal, or nothing.
If a side divides by zero, or the symbol cannot have that value, the walk ends there.

* `Reading` — the two sides of an equality at its turn;
* `Graph.readings` — all readings of a resolution, as far as it goes;
* `bindEquality_of_read` — what an equality does is decided by its reading;
* `readWalk_turn` — a walk that goes through has bound every equality as it was read.
-/

namespace ShapeGraph

open ShapeGraph.Numeric (Arithmetic Number)

/-- What the two sides of a recorded equality come to at its turn. -/
structure Reading where
  obligation : Obligation
  left : Except Fault Size
  right : Except Fault Size

namespace Reading

/-- Neither side divides by zero. -/
def IsRead (reading : Reading) : Prop :=
  ∃ left right, reading.left = .ok left ∧ reading.right = .ok right

/-- One side is known. -/
def Served (reading : Reading) : Prop :=
  (∃ l, reading.left = .ok (.literal l)) ∨ ∃ r, reading.right = .ok (.literal r)

/-- The symbol that is bound, and the value that it is bound to. -/
def binds? (reading : Reading) : Option (String × Number) :=
  match reading.left, reading.right with
  | .ok (.literal l), .ok (.symbol name) => some (name, l)
  | .ok (.symbol name), .ok (.literal r) => some (name, r)
  | _, _ => none

variable [Arithmetic]

/-- The reading of an equality under the bindings of its turn. -/
def of (env : Environment) (o : Obligation) : Reading :=
  ⟨o, o.equality.left.substitute env.bindings, o.equality.right.substitute env.bindings⟩

end Reading

section

variable [Arithmetic]

/-- The readings of equalities one after the other. -/
def readObligations : Environment → List Obligation → List Reading
  | _, [] => []
  | env, o :: rest =>
    .of env o ::
      match bindEquality env o.equality with
      | .ok env => readObligations env rest
      | .error _ => []

/-- The readings at one node, once it has contributed what it can. -/
def readNode (obligations : List Obligation) (inputs : Entries Feed) (node : Node)
    (resolved : List ResolvedNode) (env : Environment) : List Reading :=
  match (evaluateNode inputs node resolved env).outcome with
  | .ok (env, _) => readObligations env (obligations.filter fun o => o.node = .ofNat node.id)
  | .error _ => []

/-- The readings of a walk. -/
def readWalk (obligations : List Obligation) (inputs : Entries Feed) :
    List Node → List ResolvedNode → Environment → List Reading
  | [], _, _ => []
  | node :: rest, resolved, env =>
    readNode obligations inputs node resolved env ++
      match (resolveNode obligations inputs node resolved env).outcome with
      | .ok (env, next) => readWalk obligations inputs rest (resolved ++ [next]) env
      | .error _ => []

/-- All readings of a resolution, in order, as far as it goes. -/
def Graph.readings (g : Graph) (options : ResolveOptions) : List Reading :=
  match Environment.ofBindings options.bindings with
  | .ok env => readWalk g.obligations options.inputs g.nodes [] env
  | .error _ => []

variable {env env' : Environment}

/-- An equality that is read binds what its reading says. -/
theorem bindEquality_of_read {o : Obligation} (h : (Reading.of env o).IsRead) :
    bindEquality env o.equality =
      match (Reading.of env o).binds? with
      | some (name, value) => env.bind name value .obligation
      | none => .ok env := by
  obtain ⟨left, right, hleft, hright⟩ := h
  have hl : o.equality.left.substitute env.bindings = .ok left := hleft
  have hr : o.equality.right.substitute env.bindings = .ok right := hright
  simp only [bindEquality, Reading.binds?, Reading.of, hl, hr, bind, Except.bind]
  cases left with
  | literal l => cases right <;> rfl
  | symbol name => cases right <;> rfl
  | binary op a b => cases right <;> rfl

/-- Equalities that are bound one after the other have been read so. -/
theorem readObligations_turn {obligations : List Obligation}
    (h : bindObligations env obligations = .ok env') :
    ∀ reading ∈ readObligations env obligations, ∃ turn after,
      reading = .of turn reading.obligation ∧
        bindEquality turn reading.obligation.equality = .ok after ∧ after.Grows env' := by
  induction obligations generalizing env with
  | nil => exact List.forall_mem_nil _
  | cons o rest ih =>
      obtain ⟨middle, hmiddle, hrest⟩ := bind_eq_ok.mp h
      rw [readObligations, hmiddle]
      exact List.forall_mem_cons.mpr
        ⟨⟨env, middle, rfl, hmiddle, bindObligations_grows hrest⟩, ih hrest⟩

/-- **A walk that goes through** has bound every equality as it was read. -/
theorem readWalk_turn {obligations : List Obligation} {inputs : Entries Feed} {nodes : List Node}
    {resolved result : List ResolvedNode}
    (h : (walk obligations inputs nodes resolved env).outcome = .ok (env', result)) :
    ∀ reading ∈ readWalk obligations inputs nodes resolved env, ∃ turn after,
      reading = .of turn reading.obligation ∧
        bindEquality turn reading.obligation.equality = .ok after ∧ after.Grows env' := by
  induction nodes generalizing resolved env with
  | nil => exact List.forall_mem_nil _
  | cons node rest ih =>
      simp only [walk, Run.outcome_bind_eq_ok] at h
      obtain ⟨⟨middle, next⟩, hnext, hrest⟩ := h
      rw [readWalk, hnext]
      refine List.forall_mem_append.mpr ⟨?_, ih hrest⟩
      obtain ⟨evaluated, data, _, hevaluated, hlast, _, _⟩ := resolveNode_eq_ok.mp hnext
      rw [readNode, hevaluated]
      intro reading hreading
      obtain ⟨turn, after, hread, hbinds, hgrows⟩ := readObligations_turn hlast reading hreading
      exact ⟨turn, after, hread, hbinds, hgrows.trans (walk_ok hrest).1⟩

end

end ShapeGraph
