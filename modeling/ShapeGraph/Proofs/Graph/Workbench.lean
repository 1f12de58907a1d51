import ShapeGraph.Graph.Builder
import ShapeGraph.Proofs.Graph.Derivation

/-!
# Graphs under construction

A graph is built by named operations and by builders, of which there may be several at a
time: a builder records what its node needs long before the node is inserted, if it ever is.
Handles come from anywhere, and calls may fail.

* `Act`, `Workbench` — one call, and a graph with the builders that have been started;
* `Graph.Arranged` — the nodes of a graph are in order;
* `Graph.Named` — what is known of a node that a named operation has inserted;
* `Workbench.step_sound`, `Workbench.run_sound` — both hold after one act, and after any
  number of them;
* `Session.run_named` — in a session, which has no builders, all nodes are named.
-/

namespace ShapeGraph

open ShapeGraph.Numeric (Arithmetic Number)

/-! ## Acts -/

/-- A call on a builder that adds to its node. -/
inductive Builder.Edit where
  | input (source : NodeRef)
  | entry (key : String) (value : Value)
  | label (name : String)
  | payload (payload : Payload)
  | obligation (pending : Pending)

/-- The builder after such a call. -/
def Builder.Edit.apply : Builder.Edit → Builder → Builder
  | input source, b => b.input source
  | entry key value, b => b.setAttribute key value
  | label name, b => b.setName name
  | payload run, b => b.setPayload run
  | obligation pending, b => b.obligation pending

/-- One call.  Handles are given as they are, and builders by their places among those that
have been started; the view of a new node shows each axis of its storage once. -/
inductive Act where
  | call (handles : List Tensor) (command : Command)
  | addOp (kind : OpKind) (shape : Shape) (view : View) (wellFormed : view.WellFormed)
  | edit (builder : Nat) (edit : Builder.Edit)
  | finish (builder : Nat)

/-- The call gives a tensor another shape. -/
def Act.Relabels : Act → Prop
  | call _ command => command.Relabels
  | _ => False

/-- A graph under construction. -/
structure Workbench where
  graph : Graph
  /-- The builders that have been started, oldest first. -/
  builders : List Builder
  /-- The nodes that builders have inserted. -/
  raw : List Nat

namespace Workbench

/-- A graph without nodes, and no builder. -/
def start (id : Nat) (settings : GraphSettings) : Workbench :=
  ⟨.empty id settings, [], []⟩

variable [Arithmetic]

/-- What an act leaves, if it fails too. -/
def step (b : Workbench) : Act → Workbench
  | .call handles command => { b with graph := ((command.step handles).perform b.graph).2 }
  | .addOp kind shape view _ =>
    match Builder.start kind shape view with
    | .ok builder => { b with builders := b.builders ++ [builder] }
    | .error _ => b
  | .edit place edit => { b with builders := b.builders.modify place edit.apply }
  | .finish place =>
    match b.builders[place]? with
    | some builder =>
      match builder.finish.perform b.graph with
      | (.ok (_, after), g) => ⟨g, b.builders.set place after, b.raw ++ [b.graph.size]⟩
      | (.error _, g) => { b with graph := g }
    | none => b

/-- What some acts leave, one after the other. -/
def run (b : Workbench) (acts : List Act) : Workbench :=
  acts.foldl step b

end Workbench

/-! ## Graphs in order -/

/-- The nodes of a graph are numbered by their places and come after their inputs, and their
views have the rank of their shapes. -/
structure Graph.Arranged (g : Graph) : Prop where
  id_eq : ∀ (place : Nat) (node : Node), g.nodes[place]? = some node → node.id = place
  inputs_lt : ∀ (place : Nat) (node : Node), g.nodes[place]? = some node →
    ∀ id ∈ node.inputs, id < place
  rank_eq : ∀ node ∈ g.nodes, node.view.rank = node.shape.length
  wellFormed : g.ViewsWellFormed

/-- A node that a named operation has inserted. -/
structure Graph.Named (g : Graph) (node : Node) : Prop where
  laid : node.kind.isView = false → node.view.isContiguous = true
  scalar : node.kind = .constant → node.shape = []
  payload : node.kind = .function → node.payload.isSome = true
  source : node.kind = .reshape → ∃ id input, node.inputs = [id] ∧
    g.nodes[id]? = some input ∧ input.view.isContiguous = true

namespace Graph

variable {fit : Graph → Draft → Prop} {recordable : List Equality → Prop} {g g' : Graph}
  {draft : Draft} {inputs : List Nat}

/-- A graph without nodes is in order. -/
theorem empty_arranged (id : Nat) (settings : GraphSettings) : (empty id settings).Arranged where
  id_eq := nofun
  inputs_lt := nofun
  rank_eq := List.forall_mem_nil _
  wellFormed := List.forall_mem_nil _

/-- Every node has an id that is below the number of nodes. -/
theorem Arranged.id_lt (hg : g.Arranged) {node : Node} (h : node ∈ g.nodes) :
    node.id < g.size := by
  obtain ⟨place, hplace⟩ := List.mem_iff_getElem?.mp h
  rw [hg.id_eq place node hplace]
  exact (List.getElem?_eq_some_iff.mp hplace).1

/-- Appending a draft whose inputs are there keeps a graph in order. -/
theorem append_arranged (hg : g.Arranged) (hrank : draft.view.rank = draft.shape.length)
    (hview : draft.view.WellFormed)
    (hfound : draft.inputs.mapM (g.inputId draft.kind) = .ok inputs) :
    (g.append draft inputs).Arranged where
  id_eq place node h := by
    rcases append_made_cases h with hold | ⟨rfl, rfl⟩
    · exact hg.id_eq place node hold
    · rfl
  inputs_lt place node h := by
    rcases append_made_cases h with hold | ⟨rfl, rfl⟩
    · exact hg.inputs_lt place node hold
    · exact inputs_lt_of_ids hg.id_eq hfound
  rank_eq := by
    rw [append_nodes, List.forall_mem_append, List.forall_mem_singleton]
    exact ⟨hg.rank_eq, hrank⟩
  wellFormed := by
    rw [ViewsWellFormed, append_nodes, List.forall_mem_append, List.forall_mem_singleton]
    exact ⟨hg.wellFormed, View.settle_wellFormed hview g.size⟩

/-- Recording equalities keeps the nodes of a graph in order. -/
theorem relying_arranged (hg : g.Arranged) (id : Nat) (equalities : List Equality)
    (line : String) : (g.relying id equalities line).Arranged where
  id_eq := hg.id_eq
  inputs_lt := hg.inputs_lt
  rank_eq := hg.rank_eq
  wellFormed := hg.wellFormed

/-- What is named stays so. -/
theorem Named.later {node : Node} (h : g.Named node) (hg : g'.Continues g) : g'.Named node where
  laid := h.laid
  scalar := h.scalar
  payload := h.payload
  source hkind := by
    obtain ⟨id, input, hinputs, hinput, hwhole⟩ := h.source hkind
    exact ⟨id, input, hinputs, hg.node hinput, hwhole⟩

/-- The draft of a named operation becomes a named node. -/
theorem made_named (hg : g.Arranged) (h : draft.Derived g)
    (hfound : draft.inputs.mapM (g.inputId draft.kind) = .ok inputs) :
    (g.append draft inputs).Named (g.made draft inputs) where
  laid hkind := by
    obtain ⟨sizes, hsizes⟩ := h.laid hkind
    show (draft.view.settle g.size).isContiguous = true
    rw [hsizes]
    exact View.isContiguous_settle sizes g.size
  scalar := h.scalar
  payload := h.payload
  source hkind := by
    obtain ⟨t, node, hinputs, hbehind, hwhole⟩ := h.source hkind
    rw [hinputs] at hfound
    have hnodes : List.Forall₂ g.Behind [t] [node] := .cons hbehind .nil
    obtain rfl : inputs = [node.id] := inputs_eq hnodes hfound
    obtain ⟨_, place, _, hplace⟩ := hbehind
    have hat : g.nodes[node.id]? = some node := hg.id_eq place node hplace ▸ hplace
    exact ⟨node.id, node, rfl, (append_continues g draft [node.id]).node hat, hwhole⟩

/-- A graph in order, all of whose nodes are named but for some. -/
structure NamedBut (g : Graph) (raw : List Nat) : Prop extends g.Arranged where
  named : ∀ node ∈ g.nodes, node.id ∉ raw → g.Named node

/-- What named operations change leaves all nodes named but for those that were not. -/
theorem Changes.namedBut {raw : List Nat} (h : Changes Draft.Derived recordable g g')
    (hg : g.NamedBut raw) : g'.NamedBut raw := by
  refine h.keep (P := fun g => g.NamedBut raw) hg fun {g g'} hg hlast => ?_
  cases hlast with
  | @append draft inputs hderived hfound =>
      have hgrows := append_continues g draft inputs
      refine ⟨append_arranged hg.toArranged hderived.rank_eq (hderived.wellFormed hg.wellFormed)
        hfound, ?_⟩
      rw [append_nodes, List.forall_mem_append, List.forall_mem_singleton]
      exact ⟨fun node hnode hraw => (hg.named node hnode hraw).later hgrows,
        fun _ => made_named hg.toArranged hderived hfound⟩
  | record _ _ =>
      exact ⟨relying_arranged hg.toArranged _ _ _, fun node hnode hraw =>
        (hg.named node hnode hraw).later (relying_continues g _ _ _)⟩

end Graph

/-! ## Acts -/

namespace Builder

/-- The view of a builder has the rank of its shape, and shows each axis once. -/
structure Fits (b : Builder) : Prop where
  rank_eq : b.draft.view.rank = b.draft.shape.length
  wellFormed : b.draft.view.WellFormed

/-- A builder that is started fits its graph. -/
theorem start_fits {kind : OpKind} {shape : Shape} {view : View} {b : Builder}
    (hview : view.WellFormed) (h : start kind shape view = .ok b) : b.Fits := by
  simp only [start, bind_eq_ok, pure_eq_ok, Draft.start_eq_ok] at h
  obtain ⟨_, ⟨hrank, rfl⟩, rfl⟩ := h
  exact ⟨hrank, hview⟩

/-- Whatever is added to a node, its shape and its view stay. -/
theorem Edit.apply_fits {b : Builder} (h : b.Fits) (edit : Edit) : (edit.apply b).Fits := by
  cases edit with
  | entry key value =>
      show (b.setAttribute key value).Fits
      unfold setAttribute Draft.setAttribute
      split <;> exact ⟨h.rank_eq, h.wellFormed⟩
  | _ => exact ⟨h.rank_eq, h.wellFormed⟩

/-- A finish appends the draft of a builder that is not finished yet, or changes nothing. -/
theorem finish_cases (b : Builder) (g : Graph) :
    (b.finished = false ∧ ∃ inputs, b.draft.inputs.mapM (g.inputId b.draft.kind) = .ok inputs ∧
      b.finish.perform g = (.ok (Build.handle g b.draft.shape, { b with finished := true }),
        g.append b.draft inputs)) ∨
      ∃ fault, b.finish.perform g = (.error fault, g) := by
  by_cases hfinished : b.finished = true
  · rw [finish, if_pos hfinished]
    exact .inr ⟨_, rfl⟩
  · rw [finish, if_neg hfinished, Build.perform_bind, Build.insert]
    cases hfound : b.draft.inputs.mapM (g.inputId b.draft.kind) with
    | error fault =>
        rw [Build.perform_read_bind_error hfound]
        exact .inr ⟨fault, rfl⟩
    | ok inputs =>
        rw [Build.perform_read_bind hfound]
        exact .inl ⟨Bool.eq_false_iff.mpr hfinished, inputs, rfl, rfl⟩

end Builder

/-- An item of a list one place of which has been changed is one of the list, or a changed one. -/
theorem mem_modify {α : Type} {items : List α} {place : Nat} {change : α → α} {a : α}
    (h : a ∈ items.modify place change) : ∃ held ∈ items, a = held ∨ a = change held := by
  obtain ⟨i, hi⟩ := List.mem_iff_getElem?.mp h
  rw [List.getElem?_modify] at hi
  obtain ⟨held, hheld, rfl⟩ := Option.map_eq_some_iff.mp hi
  refine ⟨held, List.mem_of_getElem? hheld, ?_⟩
  split
  · exact .inr rfl
  · exact .inl rfl

namespace Workbench

/-- The graph is in order, and its nodes are named but for those that builders have inserted;
all builders fit. -/
structure Sound (b : Workbench) : Prop where
  graph : b.graph.NamedBut b.raw
  builders : ∀ builder ∈ b.builders, builder.Fits

/-- A workbench without builders on an empty graph is sound. -/
theorem start_sound (id : Nat) (settings : GraphSettings) : (start id settings).Sound :=
  ⟨⟨Graph.empty_arranged id settings, List.forall_mem_nil _⟩, List.forall_mem_nil _⟩

variable [Arithmetic] {b : Workbench}

/-- **One act** keeps the graph in order, and only adds to it. -/
theorem step_sound (hb : b.Sound) (act : Act) :
    (b.step act).Sound ∧ (b.step act).graph.Continues b.graph := by
  have hsame : b.graph.Continues b.graph := .refl b.graph
  cases act with
  | call handles command =>
      have hchanges := command.changes handles (g := b.graph)
      exact ⟨⟨hchanges.namedBut hb.graph, hb.builders⟩, hchanges.continues⟩
  | addOp kind shape view wellFormed =>
      simp only [step]
      split
      · next builder hstart =>
        refine ⟨⟨hb.graph, ?_⟩, hsame⟩
        rw [List.forall_mem_append, List.forall_mem_singleton]
        exact ⟨hb.builders, Builder.start_fits wellFormed hstart⟩
      · exact ⟨hb, hsame⟩
  | edit place edit =>
      refine ⟨⟨hb.graph, fun builder hbuilder => ?_⟩, hsame⟩
      obtain ⟨held, hheld, rfl | rfl⟩ := mem_modify hbuilder
      · exact hb.builders _ hheld
      · exact edit.apply_fits (hb.builders held hheld)
  | finish place =>
      simp only [step]
      split
      · next builder hbuilder =>
        have hfits := hb.builders builder (List.mem_of_getElem? hbuilder)
        rcases builder.finish_cases b.graph with ⟨-, inputs, hfound, hfinish⟩ | ⟨fault, hfinish⟩
        · rw [hfinish]
          have hgrows := b.graph.append_continues builder.draft inputs
          refine ⟨⟨⟨Graph.append_arranged hb.graph.toArranged hfits.rank_eq hfits.wellFormed hfound,
            ?_⟩, fun other hother => ?_⟩, hgrows⟩
          · rw [Graph.append_nodes, List.forall_mem_append, List.forall_mem_singleton]
            refine ⟨fun node hnode hraw => (hb.graph.named node hnode ?_).later hgrows,
              fun hraw => absurd (List.mem_append_right _ (List.mem_singleton.mpr rfl)) hraw⟩
            exact fun hmem => hraw (List.mem_append_left _ hmem)
          · rcases List.mem_or_eq_of_mem_set hother with hother | rfl
            · exact hb.builders other hother
            · exact ⟨hfits.rank_eq, hfits.wellFormed⟩
        · rw [hfinish]
          exact ⟨hb, hsame⟩
      · exact ⟨hb, hsame⟩

/-- **Whatever is done**, the graph is in order, and has only been added to. -/
theorem run_sound (hb : b.Sound) (acts : List Act) :
    (b.run acts).Sound ∧ (b.run acts).graph.Continues b.graph := by
  induction acts generalizing b with
  | nil => exact ⟨hb, .refl b.graph⟩
  | cons act rest ih =>
      obtain ⟨hstep, hgrows⟩ := step_sound hb act
      obtain ⟨hrun, hlater⟩ := ih hstep
      exact ⟨hrun, hlater.trans hgrows⟩

end Workbench

/-! ## Sessions -/

namespace Session

/-- A graph without nodes has none that builders inserted. -/
theorem start_named (id : Nat) (settings : GraphSettings) :
    (start id settings).graph.NamedBut [] :=
  ⟨Graph.empty_arranged id settings, List.forall_mem_nil _⟩

variable [Arithmetic] {s : Session}

/-- **All nodes of a session are named**, as it has no builders. -/
theorem run_named (hs : s.graph.NamedBut []) (commands : List Command) :
    (s.run commands).graph.NamedBut [] := by
  induction commands generalizing s with
  | nil => exact hs
  | cons command rest ih =>
      refine ih ?_
      rw [step_graph]
      exact (command.changes s.issued).namedBut hs

end Session

end ShapeGraph
