import ShapeGraph.Proofs.Graph.Invariant
import ShapeGraph.Proofs.Resolution.Walk

/-!
# Sizes mean what they say

Shapes and views travel separately through the operations, and relabelling
changes the one without the other.  What holds them together is recorded with
the graph, and checked when the graph is resolved.  So after a successful
resolution every axis of every tensor has the size that its dimension names, and
every node has sizes that go with those of its inputs.

* `Session.issued_sizes` — the sizes of the tensors that a session has issued;
* `Session.node_contracts` — the contracts of the nodes of its graph.

Both are about double-precision arithmetic where it is exact.
-/

namespace ShapeGraph

open ShapeGraph.Numeric (Arithmetic Exact Number Unbounded)

/-- The resolution of the graph of a session after some commands. -/
def Session.resolution [Arithmetic] (s : Session) (commands : List Command)
    (options : ResolveOptions) : Except Fault ResolvedGraph :=
  ((s.run commands).graph.resolve options).outcome

/-- The size of an axis is what its dimension says: its constant, or the value
of its symbol unless that is anonymous. -/
def Dimension.ResolvesTo (bindings : Bindings) : Dimension → Number → Prop
  | constant v, size => size = v
  | dynamic symbol, size => symbol = anonymousSymbol ∨ bindings.get? symbol = some size

/-- A symbol that stands for one number whatever the free symbols stand for is
bound to it. -/
theorem Dimension.resolvesTo_of_fits {bindings : Bindings} (hb : bindings.Integral)
    {dim : Dimension} {n : Int} (h : ∀ ρ, bindings.Agrees ρ → dim.Fits ρ n) :
    dim.ResolvesTo bindings (.int n) := by
  have hfits := fun m => h _ (hb.agrees_completed fun _ => m)
  cases dim with
  | constant v => exact (hfits 0).symm
  | dynamic symbol =>
      by_cases hsymbol : symbol = anonymousSymbol
      · exact .inl hsymbol
      · have hvalue := fun m => (hfits m).resolve_left hsymbol
        refine .inr ?_
        cases hv : bindings.get? symbol with
        | none =>
            have hzero := hvalue 0
            have hone := hvalue 1
            rw [Bindings.completed_of_not_bound hv] at hzero hone
            omega
        | some v =>
            rw [hb.agrees_completed _ symbol v hv, hvalue 0]

section

variable [Arithmetic] [Unbounded] {s : Session} {commands : List Command}
  {options : ResolveOptions} {resolved : ResolvedGraph}

/-- The shape of a handle fits the sizes of its node under every valuation that
agrees with the final bindings, and these sizes are always the same. -/
theorem Session.WellFormed.sizes_of_resolve (hs : s.WellFormed)
    (hcheck : s.graph.settings.checkObligations = true)
    (h : (s.graph.resolve options).outcome = .ok resolved) :
    ∀ t ∈ s.issued, ∃ node, resolved.view t.id = .ok node ∧
      List.Forall₂ (Dimension.ResolvesTo resolved.bindings) t.shape node.shape := by
  intro t ht
  obtain ⟨node, ⟨_, place, hid, hnode⟩, _, hfits⟩ := hs.issued t ht
  obtain ⟨hb, hall⟩ := Graph.resolve_ok hs.graph hcheck h
  obtain ⟨held, hheld, hshape⟩ := (hall _ (hb.agrees_completed fun _ => 0)).2 place node hnode
  refine ⟨held, hid ▸ hheld, ?_⟩
  have hsame : ∀ ρ, resolved.bindings.Agrees ρ → t.shape.Fits ρ
      (node.view.extent (resolved.bindings.completed fun _ => 0)) := by
    intro ρ hρ
    obtain ⟨hholds, hshapes⟩ := hall ρ hρ
    obtain ⟨other, hother, hshape'⟩ := hshapes place node hnode
    obtain rfl := Except.ok.inj (hheld.symm.trans hother)
    have hextent := List.map_injective_iff.mpr (fun _ _ => Number.int.inj)
      (hshape.symm.trans hshape')
    exact hextent ▸ hfits ρ hholds
  rw [hshape, List.forall₂_map_right_iff]
  refine List.forall₂_iff_get.mpr
    ⟨(hsame _ (hb.agrees_completed fun _ => 0)).length_eq, fun i hi hi' => ?_⟩
  exact Dimension.resolvesTo_of_fits hb fun ρ hρ =>
    (List.forall₂_iff_get.mp (hsame ρ hρ)).2 i hi hi'

/-- Every node keeps its contract with the sizes that it and its inputs are
resolved to. -/
theorem Graph.WellFormed.contracts_of_resolve {g : Graph} (hg : g.WellFormed)
    (hcheck : g.settings.checkObligations = true)
    (h : (g.resolve options).outcome = .ok resolved) :
    ∀ node ∈ g.nodes, ∃ inputs output, List.Forall₂ resolved.HasShape node.inputs inputs ∧
      resolved.HasShape node.id output ∧ node.kind.Contract node.attributes inputs output := by
  intro node hmem
  obtain ⟨place, hplace⟩ := List.mem_iff_getElem?.mp hmem
  have hkeeps := hg.keeps place node hplace
  obtain ⟨hb, hall⟩ := resolve_ok hg hcheck h
  obtain ⟨hholds, hshapes⟩ := hall _ (hb.agrees_completed fun _ => 0)
  refine ⟨_, _, ?_, hkeeps.id_eq ▸ hshapes place node hplace, hkeeps.contract _ hholds⟩
  rw [List.forall₂_map_right_iff, List.forall₂_same]
  intro id hid
  have hlt : id < g.nodes.length :=
    Nat.lt_trans (hkeeps.inputs_lt id hid) (List.getElem?_eq_some_iff.mp hplace).1
  have hinput : g.nodes[id]? = some g.nodes[id] := List.getElem?_eq_getElem hlt
  simpa [extentAt, hinput] using hshapes id _ hinput

end

namespace Session

variable {id : Nat} {settings : GraphSettings} {commands : List Command}
  {options : ResolveOptions} {resolved : ResolvedGraph}

/-- **Dimensions mean what they say.**  After any commands, failing ones
included, and a successful resolution with checked equalities, every axis of
every tensor that was issued has the size that its dimension names: the constant,
or the value of the symbol, which is bound unless it is anonymous. -/
theorem issued_sizes (hcommands : ∀ command ∈ commands, command.Integral)
    (hcheck : settings.checkObligations = true)
    (hbuild : Exact fun _ => (start id settings).run commands)
    (hresolve : Exact fun _ => (start id settings).resolution commands options)
    (h : (start id settings).resolution commands options = .ok resolved) :
    ∀ t ∈ ((start id settings).run commands).issued, ∃ node, resolved.view t.id = .ok node ∧
      List.Forall₂ (Dimension.ResolvesTo resolved.bindings) t.shape node.shape := by
  obtain ⟨hwell, hext⟩ := @run_wellFormed Arithmetic.unbounded _ _ _
    (start_wellFormed id settings) hcommands
  have hbuilt : (start id settings).run commands =
      @run Arithmetic.unbounded (start id settings) commands := hbuild
  have hresolved : @resolution Arithmetic.unbounded (start id settings) commands options =
      .ok resolved := hresolve.symm.trans h
  rw [hbuilt]
  exact @WellFormed.sizes_of_resolve Arithmetic.unbounded _ _ _ _ hwell
    (hext.settings_eq ▸ hcheck) hresolved

/-- An input of which one axis is given another name. -/
def relabelling : List Command :=
  [.newTensor "x" [.dynamic "n", .constant 4], .realize 0 [.dynamic "k", .constant 4]]

/-- The session after these commands: the two names are recorded to be equal. -/
def relabelled : Session where
  graph :=
    { id := 0
      settings := ⟨"graph", true, none⟩
      nodes := [⟨0, .input, [], [.dynamic "n", .constant 4],
        .contiguous [.symbol "n", .literal 4], [], some "x", none⟩]
      obligations := [⟨0, "realize", "axis 0", .symbol "n", .symbol "k"⟩]
      journal := ["%0 = input [n, 4]", "obligation on %0: n == k (realize, axis 0)",
        "realize %0 as [k, 4]"] }
  issued := [⟨0, [.dynamic "n", .constant 4], 0⟩, ⟨0, [.dynamic "k", .constant 4], 0⟩]

/-- Its resolution with an input of three rows. -/
def relabelledSizes : ResolvedGraph where
  bindings := [("n", 3), ("k", 3)]
  nodes := [⟨0, .input, [3, 4], [⟨0, 3, false⟩, ⟨0, 4, false⟩], [0, 1], none⟩]

/-- The input and its other name are resolved to sizes that their dimensions say. -/
theorem issued_sizes_relabelled :
    (start 0 ⟨"graph", true, none⟩).resolution relabelling ⟨[], [("x", ⟨[3, 4], none⟩)]⟩ =
        .ok relabelledSizes ∧
      ∀ t ∈ ((start 0 ⟨"graph", true, none⟩).run relabelling).issued, ∃ node,
        relabelledSizes.view t.id = .ok node ∧
          List.Forall₂ (Dimension.ResolvesTo relabelledSizes.bindings) t.shape node.shape := by
  have hresolved : (start 0 ⟨"graph", true, none⟩).resolution relabelling
      ⟨[], [("x", ⟨[3, 4], none⟩)]⟩ = .ok relabelledSizes := rfl
  refine ⟨hresolved, issued_sizes ?_ rfl (.of_eq relabelled rfl rfl) (.of_eq _ hresolved rfl)
    hresolved⟩
  simp [relabelling, Command.Integral]

/-- **Operations keep their contracts at run time.**  After any commands, failing
ones included, and a successful resolution with checked equalities, the sizes of
every node go with those of its inputs as its kind has it. -/
theorem node_contracts (hcommands : ∀ command ∈ commands, command.Integral)
    (hcheck : settings.checkObligations = true)
    (hbuild : Exact fun _ => (start id settings).run commands)
    (hresolve : Exact fun _ => (start id settings).resolution commands options)
    (h : (start id settings).resolution commands options = .ok resolved) :
    ∀ node ∈ ((start id settings).run commands).graph.nodes, ∃ inputs output,
      List.Forall₂ resolved.HasShape node.inputs inputs ∧ resolved.HasShape node.id output ∧
        node.kind.Contract node.attributes inputs output := by
  obtain ⟨hwell, hext⟩ := @run_wellFormed Arithmetic.unbounded _ _ _
    (start_wellFormed id settings) hcommands
  have hbuilt : (start id settings).run commands =
      @run Arithmetic.unbounded (start id settings) commands := hbuild
  have hresolved : @resolution Arithmetic.unbounded (start id settings) commands options =
      .ok resolved := hresolve.symm.trans h
  rw [hbuilt]
  exact @Graph.WellFormed.contracts_of_resolve Arithmetic.unbounded _ _ _ _ hwell.graph
    (hext.settings_eq ▸ hcheck) hresolved

/-- The product of a matrix with its transpose. -/
def gram : List Command :=
  [.newTensor "x" [.dynamic "n", .constant 4], .permute 0 [1, 0], .matmul 0 1]

/-- The session after these commands. -/
def gramBuilt : Session where
  graph :=
    { id := 0
      settings := ⟨"graph", true, none⟩
      nodes := [
        ⟨0, .input, [], [.dynamic "n", .constant 4], .contiguous [.symbol "n", .literal 4], [],
          some "x", none⟩,
        ⟨1, .permute, [0], [.constant 4, .dynamic "n"],
          ⟨[.whole (.symbol "n") false, .whole (.literal 4) false], [1, 0]⟩,
          [("axes", .list [.number 1, .number 0])], none, none⟩,
        ⟨2, .matmul, [0, 1], [.dynamic "n", .dynamic "n"],
          .contiguous [.symbol "n", .symbol "n"], [], none, none⟩]
      obligations := []
      journal := ["%0 = input [n, 4]", "%1 = permute [4, n]", "%2 = matmul [n, n]"] }
  issued := [⟨0, [.dynamic "n", .constant 4], 0⟩, ⟨1, [.constant 4, .dynamic "n"], 0⟩,
    ⟨2, [.dynamic "n", .dynamic "n"], 0⟩]

/-- Its resolution with an input of three rows. -/
def gramSizes : ResolvedGraph where
  bindings := [("n", 3)]
  nodes := [
    ⟨0, .input, [3, 4], [⟨0, 3, false⟩, ⟨0, 4, false⟩], [0, 1], none⟩,
    ⟨1, .permute, [4, 3], [⟨0, 4, false⟩, ⟨0, 3, false⟩], [1, 0], none⟩,
    ⟨2, .matmul, [3, 3], [⟨0, 3, false⟩, ⟨0, 3, false⟩], [0, 1], none⟩]

/-- All nodes of the product of a matrix with its transpose keep their contracts. -/
theorem node_contracts_gram :
    (start 0 ⟨"graph", true, none⟩).resolution gram ⟨[], [("x", ⟨[3, 4], none⟩)]⟩ =
        .ok gramSizes ∧
      ∀ node ∈ ((start 0 ⟨"graph", true, none⟩).run gram).graph.nodes, ∃ inputs output,
        List.Forall₂ gramSizes.HasShape node.inputs inputs ∧ gramSizes.HasShape node.id output ∧
          node.kind.Contract node.attributes inputs output := by
  have hresolved : (start 0 ⟨"graph", true, none⟩).resolution gram
      ⟨[], [("x", ⟨[3, 4], none⟩)]⟩ = .ok gramSizes := rfl
  refine ⟨hresolved, node_contracts ?_ rfl (.of_eq gramBuilt rfl rfl) (.of_eq _ hresolved rfl)
    hresolved⟩
  simp [gram, Command.Integral]

end Session

end ShapeGraph
