import ShapeGraph.Graph.Builder
import ShapeGraph.Graph.Compute
import ShapeGraph.Graph.Generators
import ShapeGraph.Graph.Leaves
import ShapeGraph.Graph.Movement
import ShapeGraph.Proofs.Graph.Failure
import ShapeGraph.Proofs.Refinement.Deferral
import ShapeGraph.Proofs.Resolution.Bounds
import ShapeGraph.Proofs.Resolution.Completeness
import ShapeGraph.Proofs.Resolution.Filling
import ShapeGraph.Proofs.Resolution.Fixed
import ShapeGraph.Proofs.Resolution.Growth
import ShapeGraph.Proofs.Resolution.Seeding
import ShapeGraph.Proofs.Resolution.Structure
import ShapeGraph.Proofs.Resolution.Unchecked
import ShapeGraph.Proofs.Resolution.Widening
import ShapeGraph.Proofs.View.Narrowing
import ShapeGraph.Report
import ShapeGraph.Resolution.Basic
import ShapeGraph.Size.Recipe
import ShapeGraph.Proofs.Graph.Rank
import ShapeGraph.Proofs.Size.Parts
import ShapeGraph.Proofs.View.Composition
import ShapeGraph.Proofs.View.Binding
import ShapeGraph.Proofs.View.Selection
import ShapeGraph.Proofs.View.Commutation
import ShapeGraph.Proofs.Permutation
import ShapeGraph.Proofs.Size.Irreducible
import ShapeGraph.Proofs.Size.Literals
import ShapeGraph.Proofs.Size.Symbols
import ShapeGraph.Proofs.View.Standing
import ShapeGraph.Proofs.Graph.Permutation
import ShapeGraph.Proofs.View.Exchange
import ShapeGraph.Proofs.Graph.Joining
import ShapeGraph.Proofs.Resolution.Parting
import ShapeGraph.Proofs.View.Measure
import ShapeGraph.Registry
import ShapeGraph.Proofs.Registry.Step
import ShapeGraph.Proofs.Registry.WriteOnce
import ShapeGraph.Proofs.Registry.Solving
import ShapeGraph.Proofs.Graph.FullSlice
import ShapeGraph.Proofs.Graph.Linear
import ShapeGraph.Proofs.Resolution.Generators
import ShapeGraph.Proofs.View.Sentinel
import ShapeGraph.Proofs.View.Repetition
import ShapeGraph.Proofs.View.Representation
import ShapeGraph.Proofs.View.Names
import ShapeGraph.Proofs.Graph.Names
import ShapeGraph.Proofs.Graph.Locals
import ShapeGraph.Proofs.Graph.Provenance
import ShapeGraph.Proofs.Resolution.Independence
import ShapeGraph.Proofs.Size.Text
