import ShapeGraph.Proofs.Graph.Expansion
import ShapeGraph.Proofs.Graph.Invariant

/-!
# Calls that gain a handle

A call that derives a node from one operand, and succeeds, appends the node and issues one
handle on it; all handles issued before are on the nodes that they were on.

* `Session.Gains` — one handle more, on a new node with a given view;
* `extend_slice`, `extend_expandTo` — the view that a slice or an expansion gains;
* `Gains.handle`, `Gains.unchanged` — the new handle, and the old ones;
* `Session.Later` — a session that has gone on from another one by calls of any kind.
-/

namespace ShapeGraph

open ShapeGraph.Numeric (Arithmetic Number Unbounded)

namespace Session

variable [Arithmetic] {s s' : Session} {command : Command}

/-- A call that has to succeed issues what its step gives. -/
theorem extend_eq_ok : s.extend command = .ok s' ↔
    ∃ t g, (command.step s.issued).perform s.graph = (.ok t, g) ∧ s' = ⟨g, s.issued ++ [t]⟩ := by
  unfold extend
  rcases (command.step s.issued).perform s.graph with ⟨fault | t, g⟩ <;> simp [eq_comm]

/-- A command that succeeds takes its step. -/
theorem step_of_extend (h : s.extend command = .ok s') : s.step command = s' := by
  obtain ⟨t, g, hperform, rfl⟩ := extend_eq_ok.mp h
  rw [step, hperform]

/-- A command takes no handle away. -/
theorem step_issued {place : Nat} {t : Tensor} (h : s.issued[place]? = some t) :
    (s.step command).issued[place]? = some t := by
  have hlt : place < s.issued.length := (List.getElem?_eq_some_iff.mp h).1
  unfold step
  split
  · rw [List.getElem?_append_left hlt]
    exact h
  · exact h

/-- A handle that has been issued keeps its place. -/
theorem run_issued {commands : List Command} {place : Nat} {t : Tensor}
    (h : s.issued[place]? = some t) : (s.run commands).issued[place]? = some t := by
  induction commands generalizing s with
  | nil => exact h
  | cons command rest ih => exact ih (step_issued h)

/-- A call that derives a node from one operand and succeeds has appended it. -/
theorem extend_derives {place : Nat} {next : Tensor → Build Tensor} {α : Tensor → Type}
    {draft : ∀ t, α t → Draft}
    (hstep : command.step s.issued = (Command.operand s.issued place >>= next))
    (hderives : ∀ t, (next t).Derives s.graph (draft t)) (h : s.extend command = .ok s') :
    ∃ t found inputs, s.issued[place]? = some t ∧ s' = ⟨s.graph.append (draft t found) inputs,
      s.issued ++ [Build.handle s.graph (draft t found).shape]⟩ := by
  obtain ⟨u, g, hperform, rfl⟩ := extend_eq_ok.mp h
  rw [hstep] at hperform
  obtain ⟨t, ht, hnext⟩ := Command.operand_eq_ok hperform
  obtain ⟨found, inputs, _, rfl, rfl⟩ := (hderives t).of_ok hnext
  exact ⟨t, found, inputs, ht, rfl⟩

/-- One handle more, on a new node with the given view. -/
structure Gains (s s' : Session) (view : View) : Prop where
  wellFormed : s'.WellFormed
  extends_graph : s'.graph.Extends s.graph
  size_eq : s'.graph.size = s.graph.size + 1
  issued : ∃ t node, s'.issued = s.issued ++ [t] ∧ s'.graph.Behind t node ∧
    s'.graph.nodes[s.graph.size]? = some node ∧ node.view = view

variable [Unbounded]

/-- A command that appends a draft gains a handle on its view. -/
theorem Gains.of_append (hs : s.WellFormed) (hc : command.Integral)
    (h : s.extend command = .ok s') {draft : Draft} {inputs : List Nat}
    (hs' : s' = ⟨s.graph.append draft inputs, s.issued ++ [Build.handle s.graph draft.shape]⟩)
    (hi : draft.view.Integral) : s.Gains s' draft.view := by
  obtain ⟨hwell, hext⟩ := step_wellFormed hs hc
  rw [step_of_extend h] at hwell hext
  subst hs'
  exact ⟨hwell, hext, Graph.size_append _ _ _, _, _, rfl, Graph.append_behind _ _ hi,
    Graph.append_last hi, rfl⟩

/-- A slice that succeeds narrows the view of its operand by the spans that are meant. -/
theorem extend_slice (hs : s.WellFormed) {place : Nat} {specs : List RangeSpec}
    (hspecs : ∀ spec ∈ specs, spec.Integral) (h : s.extend (.slice place specs) = .ok s') :
    ∃ t node mapping view, s.issued[place]? = some t ∧ s.graph.Operand t node ∧
      specs.length ≤ t.rank ∧ mapAxes defaultSentinel t.shape specs
        ((node.view.shown.map AxisRange.length).map some) = .ok mapping ∧
      (∀ span ∈ mapping.spans, span.start.Integral ∧ span.stop.Integral) ∧
      node.view.slice mapping.spans = .ok view ∧ s.Gains s' view := by
  obtain ⟨t, found, inputs, hplace, hs'⟩ := extend_derives rfl (Build.slice_derives · specs) h
  obtain ⟨⟨node, lengths, hnode, hlengths⟩, mapping, view, hmapping, hview, _⟩ := found
  have hop := (hs.issued t (List.mem_of_getElem? hplace)).operand hs.graph hnode
  obtain rfl := View.eq_of_lengths hop.wellFormed hlengths
  simp only [mapSlice, ite_error_eq_ok] at hmapping
  have hcount : node.view.shown.length = t.rank := hop.wellFormed.length_shown.trans hop.rank_eq
  obtain ⟨_, hintegral, _⟩ := mapAxes_ok hcount.symm hspecs
    (fun r hr => hop.integral.of_mem_shown hr) hmapping.2
  have hi := View.slice_integral hop.wellFormed hop.integral hintegral hview
  have hc : (Command.slice place specs).Integral := hspecs
  exact ⟨t, node, mapping, view, hplace, hop, Nat.le_of_not_lt hmapping.1, hmapping.2, hintegral,
    hview, .of_append hs hc h hs' hi⟩

omit [Unbounded] in
/-- What a slice shows on an axis: its range, narrowed by the span that is meant for it. -/
theorem slice_shown {t : Tensor} {node : Node} (hop : s.graph.Operand t node)
    {specs : List RangeSpec} {mapping : SliceMapping} {view : View}
    (hmapping : mapAxes defaultSentinel t.shape specs
      ((node.view.shown.map AxisRange.length).map some) = .ok mapping)
    (hview : node.view.slice mapping.spans = .ok view) {axis : Nat} {range : AxisRange}
    (hrange : node.view.shown[axis]? = some range) :
    ∃ span, (specs[axis]?.getD .full).span (some range.length) defaultSentinel = .ok span ∧
      view.shown[axis]? = some (View.narrow range span) := by
  have hcount : (node.view.shown.map AxisRange.length).length = t.shape.length := by
    rw [List.length_map, hop.wellFormed.length_shown]
    exact hop.rank_eq
  have hlength : (node.view.shown.map AxisRange.length)[axis]? = some range.length := by
    rw [List.getElem?_map, hrange]
    rfl
  obtain ⟨span, hspan, hmeant⟩ := (mapAxes_at hcount hmapping axis).2 _ hlength
  refine ⟨span, hmeant, ?_⟩
  rw [View.slice_shown_at hop.wellFormed hview, hrange, hspan]
  rfl

/-- An expansion that succeeds expands the view of its operand. -/
theorem extend_expandTo (hs : s.WellFormed) {place : Nat} {target : Shape}
    (h : s.extend (.expandTo place target) = .ok s') :
    ∃ t node view, s.issued[place]? = some t ∧ s.graph.Operand t node ∧
      node.view.Expands target view ∧ s.Gains s' view := by
  obtain ⟨t, found, inputs, hplace, hs'⟩ := extend_derives rfl (Build.expandTo_derives · target) h
  obtain ⟨⟨node, lengths, hnode, hlengths⟩, aligned, view, equalities, hrank, _, haligned, hview,
    _⟩ := found
  have hop := (hs.issued t (List.mem_of_getElem? hplace)).operand hs.graph hnode
  obtain rfl := View.eq_of_lengths hop.wellFormed hlengths
  have hnone : node.view.shown = [] ++ node.view.shown := rfl
  obtain ⟨hav, hai, _⟩ := alignAxes_shown hop.wellFormed hop.integral hnone haligned
  have hi := (leadAxes_ok hav hai hview).2.1
  have hc : (Command.expandTo place target).Integral := trivial
  refine ⟨t, node, view, hplace, hop, ⟨aligned, equalities, ?_, ?_⟩, .of_append hs hc h hs' hi⟩
  · rwa [hop.rank_eq]
  · rwa [hop.rank_eq]

omit [Arithmetic] [Unbounded] in
/-- A gain adds one handle. -/
theorem Gains.length_issued {view : View} (h : s.Gains s' view) :
    s'.issued.length = s.issued.length + 1 := by
  obtain ⟨t, _, hissued, _⟩ := h.issued
  rw [hissued, List.length_append, List.length_singleton]

omit [Arithmetic] [Unbounded] in
/-- The handle that has been gained is on a node with the view. -/
theorem Gains.handle {view : View} (h : s.Gains s' view) : ∃ t node,
    s'.issued[s.issued.length]? = some t ∧ s'.graph.Behind t node ∧ node.view = view := by
  obtain ⟨t, node, hissued, hbehind, _, hview⟩ := h.issued
  exact ⟨t, node, by rw [hissued, List.getElem?_concat_length], hbehind, hview⟩

omit [Arithmetic] [Unbounded] in
/-- The handles issued before are on the nodes that they were on. -/
theorem Gains.unchanged {view : View} (h : s.Gains s' view) {place : Nat} {t t' : Tensor}
    {node node' : Node} (ht : s.issued[place]? = some t) (hnode : s.graph.Behind t node)
    (ht' : s'.issued[place]? = some t') (hnode' : s'.graph.Behind t' node') :
    t' = t ∧ node' = node := by
  obtain ⟨last, _, hissued, _⟩ := h.issued
  have hplace : place < s.issued.length := (List.getElem?_eq_some_iff.mp ht).1
  rw [hissued, List.getElem?_append_left hplace] at ht'
  obtain rfl := Option.some.inj (ht'.symm.trans ht)
  exact ⟨rfl, hnode'.unique (h.extends_graph.behind hnode)⟩

/-! ## Sessions that go on -/

/-- A session that has gone on from another one: its graph has grown, and all handles are
where they were. -/
structure Later (s' s : Session) : Prop where
  wellFormed : s'.WellFormed
  extends_graph : s'.graph.Extends s.graph
  issued : ∀ (place : Nat) (t : Tensor), s.issued[place]? = some t → s'.issued[place]? = some t

section

omit [Arithmetic]

variable {s'' : Session}

/-- A session that has gained a handle has gone on from the earlier one. -/
theorem Gains.later {view : View} (h : s.Gains s' view) : s'.Later s where
  wellFormed := h.wellFormed
  extends_graph := h.extends_graph
  issued place t ht := by
    obtain ⟨last, _, hissued, _⟩ := h.issued
    rw [hissued, List.getElem?_append_left (List.getElem?_eq_some_iff.mp ht).1]
    exact ht

theorem Later.refl (hs : s.WellFormed) : s.Later s :=
  ⟨hs, .refl _, fun _ _ h => h⟩

/-- Going on is transitive. -/
theorem Later.trans (h' : s''.Later s') (h : s'.Later s) : s''.Later s :=
  ⟨h'.wellFormed, h'.extends_graph.trans h.extends_graph,
    fun place t ht => h'.issued place t (h.issued place t ht)⟩

end

omit [Unbounded] in
/-- Commands are run one after the other. -/
theorem run_append (s : Session) (before after : List Command) :
    s.run (before ++ after) = (s.run before).run after :=
  List.foldl_append

/-- A session goes on whatever commands are run, failing ones included. -/
theorem run_later (hs : s.WellFormed) {commands : List Command}
    (hcommands : ∀ command ∈ commands, command.Integral) : (s.run commands).Later s :=
  ⟨(run_wellFormed hs hcommands).1, (run_wellFormed hs hcommands).2, fun _ _ => run_issued⟩

/-- A command that succeeds makes the session go on. -/
theorem extend_later (hs : s.WellFormed) {command : Command} (hc : command.Integral)
    (h : s.extend command = .ok s') : s'.Later s := by
  rw [← step_of_extend h]
  exact ⟨(step_wellFormed hs hc).1, (step_wellFormed hs hc).2, fun _ _ => step_issued⟩

/-- Among the commands there is one that succeeds and issues the handle. -/
def Issues (s : Session) (commands : List Command) (command : Command) (t : Tensor) : Prop :=
  ∃ before after s', commands = before ++ command :: after ∧
    (s.run before).extend command = .ok s' ∧ s'.issued.getLast? = some t

/-- A session goes on up to the call, and from it to the end. -/
theorem Issues.between (hs : s.WellFormed) {commands : List Command}
    (hcommands : ∀ command ∈ commands, command.Integral) {t : Tensor}
    (h : s.Issues commands command t) : ∃ s₁ s₂ : Session, s₁.Later s ∧
      s₁.extend command = .ok s₂ ∧ s₂.issued.getLast? = some t ∧
      (s.run commands).Later s₂ := by
  obtain ⟨before, after, s₂, rfl, hcall, ht⟩ := h
  rw [List.forall_mem_append, List.forall_mem_cons] at hcommands
  obtain ⟨hbefore, hcommand, hafter⟩ := hcommands
  have hlater := run_later hs hbefore
  have hwell := (extend_later hlater.wellFormed hcommand hcall).wellFormed
  refine ⟨s.run before, s₂, hlater, hcall, ht, ?_⟩
  rw [run_append, run, List.foldl_cons, step_of_extend hcall]
  exact run_later hwell hafter

omit [Arithmetic] [Unbounded] in
/-- A handle that a call has issued is on the node that the call has gained. -/
theorem Gains.behind {view : View} (h : s.Gains s' view) {t : Tensor}
    (ht : s'.issued.getLast? = some t) : ∃ node, s'.graph.Behind t node ∧ node.view = view := by
  obtain ⟨held, node, hissued, hbehind, _, hview⟩ := h.issued
  rw [hissued, List.getLast?_concat] at ht
  obtain rfl := Option.some.inj ht
  exact ⟨node, hbehind, hview⟩

end Session

end ShapeGraph
