import Mathlib.Logic.Relation
import ShapeGraph.Proofs.Graph.Effect

/-!
# One change after the other

Whatever is called on a graph, and whatever the call is given, a graph changes in two
ways only: a draft is appended whose inputs are there, or equalities are recorded on a
node that is there.  What drafts and equalities look like depends on the calls, so it is
left open here.

* `Graph.Change`, `Graph.Changes` — one change, and any number of them;
* `Graph.Continues` — all that a graph has stands in the other one, in the same places;
* `Graph.Spares`, `Graph.Outgrows` — what is still to be recorded names no node of a graph, and
  a graph that continues another one without adding to its nodes;
* `Build.left_of_read`, `Build.left_of_operand` — what holds of the graph after a reading and what
  follows it.
-/

namespace ShapeGraph

open ShapeGraph.Numeric (Arithmetic Number)

namespace Graph

/-! ## Changes -/

/-- One change: drafts that are appended are `fit` for the graph, and equalities that are
recorded on a node that is there are `recordable`. -/
inductive Change (fit : Graph → Draft → Prop) (recordable : List Equality → Prop) :
    Graph → Graph → Prop
  | append {g : Graph} {draft : Draft} {inputs : List Nat} (fits : fit g draft)
      (found : draft.inputs.mapM (g.inputId draft.kind) = .ok inputs) :
      Change fit recordable g (g.append draft inputs)
  | record {g : Graph} {node : Node} {equalities : List Equality} {line : String}
      (mem : node ∈ g.nodes) (records : recordable equalities) :
      Change fit recordable g (g.relying node.id equalities line)

/-- Any number of changes. -/
abbrev Changes (fit : Graph → Draft → Prop) (recordable : List Equality → Prop) :
    Graph → Graph → Prop :=
  Relation.ReflTransGen (Change fit recordable)

variable {fit : Graph → Draft → Prop} {recordable : List Equality → Prop} {g g' g'' : Graph}

/-- What every change keeps, any number of changes keeps. -/
theorem Changes.keep {P : Graph → Prop} (h : Changes fit recordable g g') (hg : P g)
    (hchange : ∀ {g g'}, P g → Change fit recordable g g' → P g') : P g' := by
  induction h with
  | refl => exact hg
  | tail _ hlast ih => exact hchange ih hlast

/-! ## Growth -/

/-- All nodes and equalities of a graph come first in the other one. -/
structure Continues (g' g : Graph) : Prop where
  id_eq : g'.id = g.id
  settings_eq : g'.settings = g.settings
  nodes : g.nodes <+: g'.nodes
  obligations : g.obligations <+: g'.obligations

theorem Continues.refl (g : Graph) : g.Continues g :=
  ⟨rfl, rfl, List.prefix_rfl, List.prefix_rfl⟩

/-- Continuing is transitive, so runs are covered by their steps. -/
theorem Continues.trans (h : g''.Continues g') (h' : g'.Continues g) : g''.Continues g :=
  ⟨h.id_eq.trans h'.id_eq, h.settings_eq.trans h'.settings_eq, h'.nodes.trans h.nodes,
    h'.obligations.trans h.obligations⟩

/-- A node that is there stays where it is. -/
theorem Continues.node (h : g'.Continues g) {place : Nat} {node : Node}
    (hnode : g.nodes[place]? = some node) : g'.nodes[place]? = some node := by
  obtain ⟨more, hmore⟩ := h.nodes
  rw [← hmore, List.getElem?_append_left (List.getElem?_eq_some_iff.mp hnode).1]
  exact hnode

/-- A graph that continues another one has at least as many nodes. -/
theorem Continues.size_le (h : g'.Continues g) : g.size ≤ g'.size :=
  h.nodes.length_le

/-- An insertion leaves all nodes and obligations as they are. -/
theorem append_continues (g : Graph) (draft : Draft) (inputs : List Nat) :
    (g.append draft inputs).Continues g :=
  ⟨rfl, rfl, List.prefix_append _ _, List.prefix_append _ _⟩

/-- Recorded equalities leave all nodes and earlier obligations as they are. -/
theorem relying_continues (g : Graph) (node : Nat) (equalities : List Equality) (line : String) :
    (g.relying node equalities line).Continues g :=
  ⟨rfl, rfl, List.prefix_rfl, List.prefix_append _ _⟩

/-- A graph only grows. -/
theorem Changes.continues (h : Changes fit recordable g g') : g'.Continues g := by
  refine h.keep (P := fun g' => g'.Continues g) (.refl g) fun hg hlast => ?_
  cases hlast with
  | append => exact (append_continues _ _ _).trans hg
  | record => exact (relying_continues _ _ _ _).trans hg

/-- The node that a draft becomes. -/
def made (g : Graph) (draft : Draft) (inputs : List Nat) : Node :=
  ⟨g.size, draft.kind, inputs, draft.shape, draft.view.settle g.size, draft.attributes,
    draft.name, draft.payload⟩

/-- The inserted node is at the place that was next. -/
theorem append_at (g : Graph) (draft : Draft) (inputs : List Nat) :
    (g.append draft inputs).nodes[g.size]? = some (g.made draft inputs) :=
  List.getElem?_concat_length

/-- The handle that is issued for a draft is one on its node. -/
theorem append_made_behind (g : Graph) (draft : Draft) (inputs : List Nat) :
    (g.append draft inputs).Behind (Build.handle g draft.shape) (g.made draft inputs) :=
  ⟨rfl, g.size, rfl, append_at g draft inputs⟩

/-- A node that is there once a draft is appended was there before, or is made of it. -/
theorem append_made_cases {draft : Draft} {inputs : List Nat} {place : Nat} {node : Node}
    (h : (g.append draft inputs).nodes[place]? = some node) :
    g.nodes[place]? = some node ∨ (place = g.size ∧ node = g.made draft inputs) := by
  have hlt : place < (g.append draft inputs).size := (List.getElem?_eq_some_iff.mp h).1
  rw [size_append] at hlt
  rcases Nat.lt_succ_iff_lt_or_eq.mp hlt with hold | rfl
  · rw [append_nodes, List.getElem?_append_left hold] at h
    exact .inl h
  · rw [append_at] at h
    exact .inr ⟨rfl, (Option.some.inj h).symm⟩

/-- An equality that is to be recorded names no node of the graph. -/
def Spares (g : Graph) (pending : Pending) : Prop :=
  ∀ place < g.size, pending.node ≠ some (.ofNat place)

/-- What is recorded for a later node is on no node of a graph that it spares. -/
theorem Spares.on_ne {pending : Pending} (h : g.Spares pending) {node place : Nat}
    (hnode : g.size ≤ node) (hplace : place < g.size) :
    (pending.on node).node ≠ .ofNat place := by
  obtain ⟨equality, named⟩ := pending
  cases named with
  | none =>
      intro hsame
      have := Number.ofNat_inj hsame
      omega
  | some number => exact fun hsame => h place hplace (congrArg some hsame)

/-- A graph that continues another one by equalities that are not on nodes of that one. -/
structure Outgrows (g' g : Graph) : Prop extends g'.Continues g where
  later : ∃ more, g'.obligations = g.obligations ++ more ∧
    ∀ o ∈ more, ∀ place < g.size, o.node ≠ .ofNat place

/-- A graph outgrows itself, by no equalities. -/
theorem Outgrows.refl (g : Graph) : g.Outgrows g :=
  ⟨.refl g, [], by simp⟩

/-- A larger graph that is appended to outgrows a graph that the draft spares. -/
theorem Outgrows.append (h : g'.Outgrows g) {draft : Draft}
    (hdraft : ∀ pending ∈ draft.pending, g.Spares pending) (inputs : List Nat) :
    (g'.append draft inputs).Outgrows g := by
  refine ⟨(append_continues g' draft inputs).trans h.toContinues, ?_⟩
  obtain ⟨more, hmore, hspared⟩ := h.later
  refine ⟨more ++ draft.pending.map (Pending.on g'.size), ?_, ?_⟩
  · show g'.obligations ++ _ = _
    rw [hmore, List.append_assoc]
  · rw [List.forall_mem_append, List.forall_mem_map]
    exact ⟨hspared, fun pending hpending place hplace =>
      (hdraft pending hpending).on_ne h.size_le hplace⟩

end Graph

/-! ## Steps -/

namespace Build

variable {g : Graph} {issued : List Tensor}

/-- What holds of a graph holds after a reading and what follows it, if that keeps it. -/
theorem left_of_read {α β : Type} {P : Graph → Prop} {f : Graph → Except Fault α}
    {next : α → Build β} (hg : P g) (h : ∀ a, f g = .ok a → P ((next a).perform g).2) :
    P ((read f >>= next).perform g).2 :=
  ended_of_read (P := fun ended => P ended.2) (fun _ => hg) h

/-- A call whose operand is not there leaves the graph alone, so it keeps what the graph has. -/
theorem left_of_operand {P : Graph → Prop} {place : Nat} {next : Tensor → Build Tensor}
    (hg : P g) (h : ∀ t ∈ issued, P ((next t).perform g).2) :
    P ((Command.operand issued place >>= next).perform g).2 :=
  ended_of_operand (P := fun ended => P ended.2) (fun _ => hg) h

/-- The same goes for a call on a list of operands. -/
theorem left_of_operands {P : Graph → Prop} {places : List Nat}
    {next : List Tensor → Build Tensor} (hg : P g)
    (h : ∀ tensors, P ((next tensors).perform g).2) :
    P ((places.mapM (Command.operand issued) >>= next).perform g).2 :=
  ended_of_operands (P := fun ended => P ended.2) (fun _ => hg) h

end Build

end ShapeGraph
