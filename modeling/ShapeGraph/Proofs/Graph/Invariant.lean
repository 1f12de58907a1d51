import ShapeGraph.Proofs.Graph.Leaves
import ShapeGraph.Proofs.Graph.Movement

/-!
# The invariant of a session

Every command has one of the four effects, so every session keeps its graph well
formed and the shapes of its tensors fitting, whatever is called in which order
and whichever calls fail.

* `Command.effect` — the effect of a command;
* `Session.step_wellFormed`, `Session.run_wellFormed` — the invariant, after one
  command and after any number of them, while the graph only grows.
-/

namespace ShapeGraph

open ShapeGraph.Numeric (Arithmetic Number Unbounded)

/-- The graph is well formed and has issued every tensor. -/
structure Session.WellFormed (s : Session) : Prop where
  graph : s.graph.WellFormed
  issued : ∀ t ∈ s.issued, s.graph.Issued t

/-- A session that has issued nothing is well formed. -/
theorem Session.start_wellFormed (id : Nat) (settings : GraphSettings) :
    (start id settings).WellFormed :=
  ⟨⟨fun place node h => by simp [start, Graph.empty] at h, fun _ h => nomatch h⟩,
    fun _ h => nomatch h⟩

namespace Effect

variable {g : Graph} {issued : List Tensor}

/-- An operand is one of the tensors issued, or the call is refused. -/
theorem of_operand {place : Nat} {next : Tensor → Build Tensor}
    (h : ∀ t ∈ issued, Effect g ((next t).perform g).1 ((next t).perform g).2) :
    Effect g ((Command.operand issued place >>= next).perform g).1
      ((Command.operand issued place >>= next).perform g).2 :=
  Build.ended_of_operand (P := fun ended => Effect g ended.1 ended.2) .refused h

/-- A call on a list of operands has an effect if it has one on whatever operands are found. -/
theorem of_operands {places : List Nat} {next : List Tensor → Build Tensor}
    (h : ∀ tensors, Effect g ((next tensors).perform g).1 ((next tensors).perform g).2) :
    Effect g ((places.mapM (Command.operand issued) >>= next).perform g).1
      ((places.mapM (Command.operand issued) >>= next).perform g).2 :=
  Build.ended_of_operands (P := fun ended => Effect g ended.1 ended.2) .refused h

end Effect

section

variable [Arithmetic] [Unbounded]

/-- **The effect of a command** on a well-formed graph and tensors that it has
issued. -/
theorem Command.effect {g : Graph} {issued : List Tensor} (hg : g.WellFormed)
    (hissued : ∀ t ∈ issued, g.Issued t) {command : Command} (hc : command.Integral) :
    Effect g ((command.step issued).perform g).1 ((command.step issued).perform g).2 := by
  cases command with
  | newTensor name shape => exact newTensor_effect name shape
  | constant value => exact constant_effect value
  | addFunction name inputs shape payload sizes =>
      exact .of_operands fun tensors => addFunction_effect hg name tensors shape payload hc
  | realize t shape => exact .of_operand fun t ht => realize_effect hg (hissued t ht) shape
  | slice t specs => exact .of_operand fun t ht => slice_effect hg (hissued t ht) hc
  | permute t axes => exact .of_operand fun t ht => permute_effect hg (hissued t ht) axes
  | reshape t target => exact .of_operand fun t ht => reshape_effect hg (hissued t ht) target
  | expand t axis dim => exact .of_operand fun t ht => expand_effect hg (hissued t ht) axis dim
  | expandTo t target => exact .of_operand fun t ht => expandTo_effect hg (hissued t ht) target
  | concat a b axis =>
      exact .of_operand fun a ha => .of_operand fun b hb =>
        concat_effect hg (hissued a ha) (hissued b hb) axis
  | contiguous t =>
      exact .of_operand fun t ht => pointwise_effect hg (hissued t ht) rfl fun _ => rfl
  | unary op t => exact .of_operand fun t ht => pointwise_effect hg (hissued t ht) rfl fun _ => rfl
  | binary op a b =>
      exact .of_operand fun a ha => .of_operand fun b hb =>
        binary_effect hg (hissued a ha) (hissued b hb) op
  | scalar op t value => exact .of_operand fun t ht => scalar_effect hg (hissued t ht) op value
  | reduce op t axis => exact .of_operand fun t ht => reduce_effect hg (hissued t ht) op axis
  | softmax t axis => exact .of_operand fun t ht => softmax_effect hg (hissued t ht) axis
  | matmul a b =>
      exact .of_operand fun a ha => .of_operand fun b hb =>
        matmul_effect hg (hissued a ha) (hissued b hb)
  | arange like axis => exact .of_operand fun t ht => arange_effect hg (hissued t ht) axis
  | causalMask like axis => exact .of_operand fun t ht => causalMask_effect hg (hissued t ht) axis

namespace Session

variable {s : Session} {command : Command} {commands : List Command}

/-- One command extends the graph and keeps the invariant. -/
theorem step_wellFormed (hs : s.WellFormed) (hc : command.Integral) :
    (s.step command).WellFormed ∧ (s.step command).graph.Extends s.graph := by
  have heffect := command.effect hs.graph hs.issued hc
  unfold step
  split
  · next t g hperform =>
    rw [hperform] at heffect
    have hext := heffect.extends_graph
    refine ⟨⟨heffect.wellFormed hs.graph, List.forall_mem_append.mpr ⟨?_, ?_⟩⟩, hext⟩
    · exact fun t ht => hext.issued (hs.issued t ht)
    · simpa using heffect.issued
  · next g hperform =>
    rw [hperform] at heffect
    have hext := heffect.extends_graph
    exact ⟨⟨heffect.wellFormed hs.graph, fun t ht => hext.issued (hs.issued t ht)⟩, hext⟩

/-- **The invariant holds after any commands**, and the graph has only grown. -/
theorem run_wellFormed (hs : s.WellFormed) (hc : ∀ command ∈ commands, command.Integral) :
    (s.run commands).WellFormed ∧ (s.run commands).graph.Extends s.graph := by
  induction commands generalizing s with
  | nil => exact ⟨hs, .refl _⟩
  | cons command rest ih =>
      obtain ⟨hstep, hext⟩ := step_wellFormed hs (hc command List.mem_cons_self)
      obtain ⟨hrun, hext'⟩ := ih hstep fun c h => hc c (List.mem_cons_of_mem _ h)
      exact ⟨hrun, hext'.trans hext⟩

end Session

end

end ShapeGraph
