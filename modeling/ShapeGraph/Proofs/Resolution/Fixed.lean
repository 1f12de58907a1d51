import ShapeGraph.Proofs.Graph.Fixed
import ShapeGraph.Proofs.Refinement.Resolve

/-!
# Fixed graphs resolve

A graph that is fixed leaves nothing for a resolution to find out: there is no symbol to
bind and no equality to check, and no range can turn out to be reversed.  So whatever the
checks of the operations have let through resolves without bindings and without feeds.

* `walk_fixed` — the walk over fixed nodes goes through;
* `Graph.Fixed.resolves` — so does the resolution of a fixed graph;
* `Session.constants_resolve` — what is built of constants is fixed, and resolves.
-/

namespace ShapeGraph

open ShapeGraph.Numeric (Arithmetic Exact Number)

section

variable [Arithmetic]

/-- Without equalities and feeds, the walk over fixed nodes goes through. -/
theorem walk_fixed {nodes : List Node} (hwell : ∀ node ∈ nodes, node.view.WellFormed)
    (hnodes : ∀ node ∈ nodes, node.view.Fixed ∧ node.kind ≠ .function)
    (resolved : List ResolvedNode) (env : Environment) :
    ∃ walked, (walk [] [] nodes resolved env).outcome = .ok (env, walked) := by
  induction nodes generalizing resolved with
  | nil => exact ⟨resolved, rfl⟩
  | cons node rest ih =>
      obtain ⟨hview, hviews⟩ := List.forall_mem_cons.mp hwell
      obtain ⟨⟨hfixed, hkind⟩, hrest⟩ := List.forall_mem_cons.mp hnodes
      obtain ⟨data, hdata⟩ := evaluateNode_ready hkind resolved env
      obtain ⟨view, hresolved⟩ := hfixed.resolves hview env.bindings
      have hbound : bindObligations env
          (([] : List Obligation).filter fun o => o.node = .ofNat node.id) = .ok env := rfl
      have hnext := resolveNode_eq_ok.mpr ⟨env, data, view, hdata, hbound, hresolved, rfl⟩
      obtain ⟨walked, hwalked⟩ := ih hviews hrest (resolved ++ [_])
      refine ⟨walked, ?_⟩
      rw [walk, Run.outcome_bind_eq_ok]
      exact ⟨_, hnext, hwalked⟩

/-- **A fixed graph resolves** without bindings and without feeds. -/
theorem Graph.Fixed.resolves {g : Graph} (hg : g.Fixed) (hwell : g.ViewsWellFormed) :
    ∃ resolved, (g.resolve ⟨[], []⟩).outcome = .ok resolved := by
  obtain ⟨nodes, hwalk⟩ := walk_fixed hwell hg.nodes [] ⟨[]⟩
  rw [← hg.obligations] at hwalk
  refine ⟨⟨[], nodes⟩, ?_⟩
  rw [resolve_of_walk rfl hwalk, hg.obligations]
  split <;> rfl

end

namespace Session

variable {id : Nat} {settings : GraphSettings} {commands : List Command} {s : Session}

/-- **What is built of constants cannot go wrong later.**  Where every dimension that is
given is constant, or says nothing where a tensor is relabelled or expanded to a shape, and
every bound of a slice is an integer, no equality is recorded, every range is between two
literals, starts in storage and does not end before it starts, and the graph resolves
without bindings and without feeds. -/
theorem constants_resolve (hcommands : ∀ command ∈ commands, command.Fixed)
    (hbuild : Exact fun _ => (start id settings).run commands)
    (hs : (start id settings).run commands = s) :
    s.graph.obligations = [] ∧
      (∀ node ∈ s.graph.nodes, ∀ range ∈ node.view.axes, ∃ start stop : Nat,
        range.start = .literal (.ofNat start) ∧ range.stop = .literal (.ofNat stop) ∧
          start ≤ stop) ∧
      ∃ resolved, (s.graph.resolve ⟨[], []⟩).outcome = .ok resolved := by
  have hbuilt : @run Arithmetic.unbounded (start id settings) commands = s := hbuild.symm.trans hs
  have hwell := (@run_wellFormed Arithmetic.unbounded _ _ _ (start_wellFormed id settings)
    fun command hcommand => (hcommands command hcommand).integral).1
  have hfixed := @run_fixed Arithmetic.unbounded _ _ (start_wellFormed id settings)
    (Graph.empty_fixed id settings) _ hcommands
  rw [hbuilt] at hwell hfixed
  have hviews : s.graph.ViewsWellFormed := fun node hnode => by
    obtain ⟨place, hplace⟩ := List.mem_iff_getElem?.mp hnode
    exact (hwell.graph.keeps place node hplace).wellFormed
  exact ⟨hfixed.obligations, fun node hnode => (hfixed.nodes node hnode).1,
    hfixed.resolves hviews⟩

/-- A part of an input, by two slices the second of which ends beyond it; the part is
repeated five times, laid out in a row, and joined to itself. -/
def tiling : List Command :=
  [.newTensor "x" [.constant 4, .constant 6],
    .slice 0 [.within (.number 1) (.number 3) false, .starting (.number 2)],
    .slice 1 [.ending (.number 9) false],
    .realize 2 [.constant 2, .anonymous],
    .expandTo 3 [.constant 5, .constant 2, .anonymous],
    .reshape 4 [.size 40],
    .concat 5 5 0]

/-- The session after these commands. -/
def tiled : Session where
  graph :=
    { id := 0
      settings := ⟨"graph", true, none⟩
      nodes := [
        ⟨0, .input, [], [.constant 4, .constant 6], .contiguous [.literal 4, .literal 6], [],
          some "x", none⟩,
        ⟨1, .slice, [0], [.anonymous, .anonymous],
          ⟨[⟨.literal 1, .literal 3, .literal 4, false⟩,
            ⟨.literal 2, .literal 6, .literal 6, false⟩], [0, 1]⟩,
          [("ranges", .list [.text "[1, 3)", .text "[2, 6)"])], none, none⟩,
        ⟨2, .slice, [1], [.anonymous, .anonymous],
          ⟨[⟨.literal 1, .literal 3, .literal 4, false⟩,
            ⟨.literal 2, .literal 6, .literal 6, false⟩], [0, 1]⟩,
          [("ranges", .list [.text "[0, 9)", .text "[0, 4)"])], none, none⟩,
        ⟨3, .expand, [2], [.constant 5, .constant 2, .anonymous],
          ⟨[⟨.literal 1, .literal 3, .literal 4, false⟩,
            ⟨.literal 2, .literal 6, .literal 6, false⟩,
            ⟨.literal 0, .literal 5, .literal 5, true⟩], [2, 0, 1]⟩,
          [("target", .text "[5, 2, -]")], none, none⟩,
        ⟨4, .contiguous, [3], [.constant 5, .constant 2, .anonymous],
          .contiguous [.literal 5, .literal 2, .literal 4], [], none, none⟩,
        ⟨5, .reshape, [4], [.constant 40], .contiguous [.literal 40],
          [("target", .list [.text "40"])], none, none⟩,
        ⟨6, .concat, [5, 5], [.constant 80], .contiguous [.literal 80],
          [("axis", .number 0)], none, none⟩]
      obligations := []
      journal := ["%0 = input [4, 6]", "%1 = slice [-, -]", "%2 = slice [-, -]",
        "realize %2 as [2, -]", "%3 = expand [5, 2, -]", "%4 = contiguous [5, 2, -]",
        "%5 = reshape [40]", "%6 = concat [80]"] }
  issued := [⟨0, [.constant 4, .constant 6], 0⟩, ⟨1, [.anonymous, .anonymous], 0⟩,
    ⟨2, [.anonymous, .anonymous], 0⟩, ⟨2, [.constant 2, .anonymous], 0⟩,
    ⟨3, [.constant 5, .constant 2, .anonymous], 0⟩, ⟨5, [.constant 40], 0⟩,
    ⟨6, [.constant 80], 0⟩]

/-- All sizes of the tiling are given as integers. -/
theorem tiling_fixed : ∀ command ∈ tiling, command.Fixed := by
  simp only [tiling, List.forall_mem_cons]
  refine ⟨?_, ?_, ?_, ?_, ?_, trivial, trivial, List.forall_mem_nil _⟩
  · exact List.forall_mem_cons.mpr ⟨⟨4, rfl⟩, List.forall_mem_singleton.mpr ⟨6, rfl⟩⟩
  · exact List.forall_mem_cons.mpr
      ⟨⟨trivial, trivial⟩, List.forall_mem_singleton.mpr ⟨trivial, trivial⟩⟩
  · exact List.forall_mem_singleton.mpr ⟨trivial, trivial⟩
  · exact List.forall_mem_cons.mpr ⟨.inl ⟨2, rfl⟩, List.forall_mem_singleton.mpr (.inr rfl)⟩
  · exact List.forall_mem_cons.mpr ⟨.inl ⟨5, rfl⟩,
      List.forall_mem_cons.mpr ⟨.inl ⟨2, rfl⟩, List.forall_mem_singleton.mpr (.inr rfl)⟩⟩

/-- The tiling is resolved without any bindings or feeds. -/
theorem constants_resolve_tiled :
    (start 0 ⟨"graph", true, none⟩).run tiling = tiled ∧ tiled.graph.obligations = [] ∧
      ∃ resolved, (tiled.graph.resolve ⟨[], []⟩).outcome = .ok resolved := by
  have hbuilt : (start 0 ⟨"graph", true, none⟩).run tiling = tiled := rfl
  have hexact : Exact fun _ => (start 0 ⟨"graph", true, none⟩).run tiling :=
    .of_eq tiled rfl rfl
  obtain ⟨hnone, _, hresolves⟩ := constants_resolve tiling_fixed hexact hbuilt
  exact ⟨hbuilt, hnone, hresolves⟩

end Session

end ShapeGraph
