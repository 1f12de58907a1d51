import ShapeGraph.Proofs.Refinement.Advance
import ShapeGraph.Proofs.Refinement.Instance
import ShapeGraph.Proofs.Refinement.Resolve

/-!
# Deferring a size changes nothing

A program whose sizes are symbols refines each of its instances: where the
instance builds, the program builds too, and once the symbols are bound both have
resolved to the same sizes.

The builds go side by side, command by command, on sessions that match
(`SessionsMatch`, `step_advances`, `build_follows`).  The nodes of the two graphs
need not be aligned; the handles are.

* `Session.shapes` — the sizes that the tensors of a program resolve to;
* `Session.shapes_deferred` — a program and its instance have the same.
-/

namespace ShapeGraph

open ShapeGraph.Numeric (Arithmetic Exact Number Unbounded)

/-- The sizes that a tensor is resolved to. -/
def ResolvedGraph.sizes (resolved : ResolvedGraph) (t : Tensor) : Except Fault (List Number) :=
  return (← resolved.view t.id).shape

/-- The sizes that the tensors issued by some commands are resolved to, in order.
All commands and the resolution have to succeed. -/
def Session.shapes [Arithmetic] (s : Session) (commands : List Command)
    (options : ResolveOptions) : Except Fault (List (List Number)) := do
  let built ← s.build commands
  let resolved ← (built.graph.resolve options).outcome
  built.issued.mapM resolved.sizes

/-! ## Sessions that match -/

/-- Two sessions whose graphs and whose handles match. -/
structure SessionsMatch (known : String → Prop) (ρ : Valuation) (s s' : Session) : Prop where
  graphs : GraphsMatch known ρ s.graph s'.graph
  issued : List.Forall₂ (HandlesMatch known ρ s.graph s'.graph) s.issued s'.issued

variable {known : String → Prop} {ρ : Valuation} {s s' : Session} {bindings : Bindings}

/-- Sessions that have just started match. -/
theorem start_match (known : String → Prop) (ρ : Valuation) (id id' : Nat)
    (settings settings' : GraphSettings) :
    SessionsMatch known ρ (.start id settings) (.start id' settings') :=
  ⟨⟨⟨nofun, nofun⟩, ⟨nofun, nofun⟩, rfl⟩, .nil⟩

/-- The handles at the same place match. -/
theorem SessionsMatch.operand (hs : SessionsMatch known ρ s s') {place : Nat}
    {next next' : Tensor → Build Tensor}
    (h : ∀ t t', HandlesMatch known ρ s.graph s'.graph t t' →
      Advances known ρ s.graph s'.graph ((next t).perform s.graph)
        ((next' t').perform s'.graph)) :
    Advances known ρ s.graph s'.graph
      ((Command.operand s.issued place >>= next).perform s.graph)
      ((Command.operand s'.issued place >>= next').perform s'.graph) := by
  refine .read ?_ h
  intro t' ht'
  split at ht'
  · next held hheld =>
    obtain rfl := Except.ok.inj ht'
    obtain ⟨hlt, hget⟩ := List.getElem?_eq_some_iff.mp hheld
    have hlt' : place < s.issued.length := hs.issued.length_eq ▸ hlt
    refine ⟨s.issued[place], by rw [List.getElem?_eq_getElem hlt'], ?_⟩
    exact hget ▸ (List.forall₂_iff_get.mp hs.issued).2 place hlt' hlt
  · cases ht'

section

variable [Arithmetic] [Unbounded]

/-- **One command.**  On sessions that match, a command goes through if its
instance does. -/
theorem step_advances (hs : SessionsMatch bindings.Bound ρ s s')
    (hadmissible : Environment.Admissible bindings) (hb : bindings.Agrees ρ)
    {command command' : Command} (hcommand : command.Deferrable)
    (hnames : ∀ name ∈ command.names, bindings.Bound name)
    (h : command.instantiate bindings = .ok command') :
    Advances bindings.Bound ρ s.graph s'.graph ((command.step s.issued).perform s.graph)
      ((command'.step s'.issued).perform s'.graph) := by
  cases command with
  | newTensor name shape =>
      obtain rfl := Except.ok.inj h
      refine newTensor_advances hs.graphs name (List.forall₂_map_right_iff.mpr ?_)
      refine List.forall₂_same.mpr fun dim hdim => ?_
      exact Dimension.instantiate_matches hadmissible hb (hcommand dim hdim) fun other hother =>
        hnames other (List.mem_flatMap.mpr ⟨dim, hdim, hother⟩)
  | slice t specs =>
      simp only [Command.instantiate, bind_eq_ok, pure_eq_ok, mapM_eq_ok] at h
      obtain ⟨specs', hspecs, rfl⟩ := h
      refine hs.operand fun _ _ ht => slice_advances hs.graphs ht ?_
      refine List.forall₂_iff_get.mpr ⟨hspecs.length_eq, fun i hi hi' => ?_⟩
      have hmem : specs[i] ∈ specs := List.getElem_mem hi
      exact RangeSpec.instantiate_matches hb (hcommand _ hmem)
        (fun name hname => hnames name (List.mem_flatMap.mpr ⟨_, hmem, hname⟩))
        ((List.forall₂_iff_get.mp hspecs).2 i hi hi')
  | expand t axis dim =>
      obtain rfl := Except.ok.inj h
      exact hs.operand fun _ _ ht => expand_advances hs.graphs ht axis
        (Dimension.instantiate_matches hadmissible hb hcommand hnames)
  | permute t axes =>
      obtain rfl := Except.ok.inj h
      exact hs.operand fun _ _ ht => permute_advances hs.graphs ht axes
  | reshape t target =>
      obtain rfl := Except.ok.inj h
      exact hs.operand fun _ _ ht => reshape_advances hs.graphs ht target
  | concat a b axis =>
      obtain rfl := Except.ok.inj h
      exact hs.operand fun _ _ ha => hs.operand fun _ _ hb =>
        concat_advances hs.graphs ha hb axis
  | contiguous t =>
      obtain rfl := Except.ok.inj h
      exact hs.operand fun _ _ ht => pointwise_advances hs.graphs ht (by simp)
  | unary op t =>
      obtain rfl := Except.ok.inj h
      exact hs.operand fun _ _ ht => pointwise_advances hs.graphs ht (by simp)
  | binary op a b =>
      obtain rfl := Except.ok.inj h
      exact hs.operand fun _ _ ha => hs.operand fun _ _ hb =>
        binary_advances hs.graphs ha hb op
  | scalar op t value =>
      obtain rfl := Except.ok.inj h
      exact hs.operand fun _ _ ht => scalar_advances hs.graphs ht op value
  | reduce op t axis =>
      obtain rfl := Except.ok.inj h
      exact hs.operand fun _ _ ht => reduce_advances hs.graphs ht op axis
  | softmax t axis =>
      obtain rfl := Except.ok.inj h
      exact hs.operand fun _ _ ht => softmax_advances hs.graphs ht axis
  | matmul a b =>
      obtain rfl := Except.ok.inj h
      exact hs.operand fun _ _ ha => hs.operand fun _ _ hb => matmul_advances hs.graphs ha hb
  | constant | addFunction | realize | expandTo | arange | causalMask => cases hcommand

/-- A command that has to succeed does so if its instance does, and the sessions match again. -/
theorem extend_follows (hs : SessionsMatch bindings.Bound ρ s s')
    (hadmissible : Environment.Admissible bindings) (hb : bindings.Agrees ρ)
    {command command' : Command} (hcommand : command.Deferrable)
    (hnames : ∀ name ∈ command.names, bindings.Bound name)
    (h : command.instantiate bindings = .ok command') :
    Follows (SessionsMatch bindings.Bound ρ) (s.extend command) (s'.extend command') := by
  have hstep := step_advances hs hadmissible hb hcommand hnames h
  unfold Session.extend
  generalize (command.step s.issued).perform s.graph = x at hstep ⊢
  generalize (command'.step s'.issued).perform s'.graph = y at hstep ⊢
  obtain ⟨fault' | t', g'⟩ := y
  · exact .refused _ _
  · obtain ⟨t, ht, hhandle, hgraphs, hext, hext'⟩ := hstep t' rfl
    obtain ⟨outcome, _⟩ := x
    obtain rfl : outcome = .ok t := ht
    refine .ok ⟨hgraphs, List.rel_append ?_ (.cons hhandle .nil)⟩
    exact hs.issued.imp fun _ _ hheld => hheld.later hext hext'

/-- **A whole build.**  On sessions that match, some commands build if their
instances do. -/
theorem build_follows (hs : SessionsMatch bindings.Bound ρ s s')
    (hadmissible : Environment.Admissible bindings) (hb : bindings.Agrees ρ)
    {commands concrete : List Command} (hcommands : ∀ command ∈ commands, command.Deferrable)
    (hnames : ∀ command ∈ commands, ∀ name ∈ command.names, bindings.Bound name)
    (h : commands.mapM (Command.instantiate bindings) = .ok concrete) :
    Follows (SessionsMatch bindings.Bound ρ) (s.build commands) (s'.build concrete) := by
  replace h := mapM_eq_ok.mp h
  induction h generalizing s s' with
  | nil => exact .ok hs
  | cons hcommand _ ih =>
      obtain ⟨hthis, hothers⟩ := List.forall_mem_cons.mp hcommands
      obtain ⟨hname, hrest⟩ := List.forall_mem_cons.mp hnames
      exact .bind (extend_follows hs hadmissible hb hthis hname hcommand) fun _ _ hnext =>
        ih hnext hothers hrest

end

/-! ## Sizes that are the same -/

section

variable {g g' : Graph} {resolved resolved' : ResolvedGraph}

/-- Where every node is resolved to its extent, handles that match have the same
sizes. -/
theorem HandlesMatch.sizes_eq {t t' : Tensor} (ht : HandlesMatch known ρ g g' t t')
    (hall : ∀ (place : Nat) (node : Node), g.nodes[place]? = some node →
      resolved.HasShape place (node.view.extent ρ))
    (hall' : ∀ (place : Nat) (node : Node), g'.nodes[place]? = some node →
      resolved'.HasShape place (node.view.extent ρ)) :
    ∃ shape, resolved.sizes t = .ok shape ∧ resolved'.sizes t' = .ok shape := by
  obtain ⟨node, node', hop⟩ := ht
  obtain ⟨_, place, hid, hnode⟩ := hop.behind
  obtain ⟨_, place', hid', hnode'⟩ := hop.behind'
  obtain ⟨held, hheld, hshape⟩ := hall place node hnode
  obtain ⟨held', hheld', hshape'⟩ := hall' place' node' hnode'
  rw [hop.views.eq, View.extent_ground, ← hshape] at hshape'
  refine ⟨held.shape, ?_, ?_⟩
  · rw [ResolvedGraph.sizes, hid, hheld]
    rfl
  · rw [ResolvedGraph.sizes, hid', hheld', ← hshape']
    rfl

/-- Two lists of tensors that are resolved to the same shapes one by one have them as lists. -/
theorem mapM_sizes {tensors tensors' : List Tensor}
    (h : List.Forall₂ (fun t t' => ∃ shape, resolved.sizes t = .ok shape ∧
      resolved'.sizes t' = .ok shape) tensors tensors') :
    ∃ shapes, tensors.mapM resolved.sizes = .ok shapes ∧
      tensors'.mapM resolved'.sizes = .ok shapes := by
  simp only [mapM_eq_ok]
  induction h with
  | nil => exact ⟨[], .nil, .nil⟩
  | cons hhead _ ih =>
      obtain ⟨shape, hshape, hshape'⟩ := hhead
      obtain ⟨shapes, hshapes, hshapes'⟩ := ih
      exact ⟨shape :: shapes, .cons hshape hshapes, .cons hshape' hshapes'⟩

end

section

variable [Arithmetic] [Unbounded]

/-- Sessions that match resolve, and their handles to the same sizes. -/
theorem SessionsMatch.sizes_eq (hs : SessionsMatch bindings.Bound ρ s s')
    (hadmissible : Environment.Admissible bindings) (hb : bindings.Agrees ρ) :
    ∃ resolved resolved' shapes, (s.graph.resolve ⟨bindings, []⟩).outcome = .ok resolved ∧
      (s'.graph.resolve ⟨[], []⟩).outcome = .ok resolved' ∧
      s.issued.mapM resolved.sizes = .ok shapes ∧
      s'.issued.mapM resolved'.sizes = .ok shapes := by
  obtain ⟨resolved, hresolved, hall⟩ := hs.graphs.ready.resolves hadmissible hb
  obtain ⟨resolved', hresolved', hall'⟩ :=
    hs.graphs.ready'.resolves ⟨List.nodup_nil, nofun⟩ nofun
  obtain ⟨shapes, hshapes, hshapes'⟩ :=
    mapM_sizes (hs.issued.imp fun _ _ ht => ht.sizes_eq hall hall')
  exact ⟨resolved, resolved', shapes, hresolved, hresolved', hshapes, hshapes'⟩

/-- A program whose instance builds has the sizes of its instance. -/
theorem Session.shapes_eq {id id' : Nat} {settings settings' : GraphSettings}
    (hadmissible : Environment.Admissible bindings) {commands concrete : List Command}
    (hcommands : ∀ command ∈ commands, command.Deferrable)
    (hnames : ∀ command ∈ commands, ∀ name ∈ command.names, bindings.Bound name)
    (h : commands.mapM (Command.instantiate bindings) = .ok concrete) {built' : Session}
    (hbuild : (start id' settings').build concrete = .ok built') :
    ∃ shapes, (start id settings).shapes commands ⟨bindings, []⟩ = .ok shapes ∧
      (start id' settings').shapes concrete ⟨[], []⟩ = .ok shapes := by
  have hintegral : bindings.Integral := fun name v hv =>
    Number.eq_int_of_isSafe (hadmissible.sizes _ (Entries.mem_of_get? hv)).1
  have hagrees := hintegral.agrees_completed fun _ => 0
  have hstart :=
    start_match bindings.Bound (bindings.completed fun _ => 0) id id' settings settings'
  obtain ⟨built, hbuilt, hmatch⟩ :=
    build_follows hstart hadmissible hagrees hcommands hnames h built' hbuild
  obtain ⟨resolved, resolved', shapes, hresolved, hresolved', hshapes, hshapes'⟩ :=
    hmatch.sizes_eq hadmissible hagrees
  refine ⟨shapes, ?_, ?_⟩
  · simp only [Session.shapes, bind_eq_ok]
    exact ⟨built, hbuilt, resolved, hresolved, hshapes⟩
  · simp only [Session.shapes, bind_eq_ok]
    exact ⟨built', hbuild, resolved', hresolved', hshapes'⟩

end

/-- **Deferring a size changes nothing.**  Let the symbols of a program be bound to
safe sizes.  If its instance builds, then the program builds, both resolve, and
each tensor of the program has the sizes of the corresponding tensor of the
instance. -/
theorem Session.shapes_deferred {id id' : Nat} {settings settings' : GraphSettings}
    (hadmissible : Environment.Admissible bindings) {commands concrete : List Command}
    (hcommands : ∀ command ∈ commands, command.Deferrable)
    (hnames : ∀ command ∈ commands, ∀ name ∈ command.names, bindings.Bound name)
    (h : commands.mapM (Command.instantiate bindings) = .ok concrete) {built : Session}
    (hbuild : (start id' settings').build concrete = .ok built)
    (hinstance : Exact fun _ => commands.mapM (Command.instantiate bindings))
    (hbuilds : Exact fun _ => (start id' settings').build concrete)
    (hshapes : Exact fun _ => (start id settings).shapes commands ⟨bindings, []⟩)
    (hconcrete : Exact fun _ => (start id' settings').shapes concrete ⟨[], []⟩) :
    ∃ shapes, (start id settings).shapes commands ⟨bindings, []⟩ = .ok shapes ∧
      (start id' settings').shapes concrete ⟨[], []⟩ = .ok shapes := by
  obtain ⟨shapes, hdeferred, hinstantiated⟩ := @shapes_eq _ Arithmetic.unbounded _ id id'
    settings settings' hadmissible commands concrete hcommands hnames (hinstance.symm.trans h)
    built (hbuilds.symm.trans hbuild)
  exact ⟨shapes, hshapes.trans hdeferred, hconcrete.trans hinstantiated⟩

/-- A slice up to a symbol, laid out by a reshape. -/
def deferredSlice : List Command :=
  [.newTensor "x" [.dynamic "n"], .slice 0 [.ending (.size (.symbol "m")) false],
    .reshape 1 [.copied 0]]

/-- Its instance where both symbols are three.  The slice is the whole input there,
so the reshape lays out nothing. -/
def wholeSlice : List Command :=
  [.newTensor "x" [.constant 3], .slice 0 [.ending (.size (.literal 3)) false],
    .reshape 1 [.copied 0]]

/-- The session after the commands of the instance. -/
def wholeSliceBuilt : Session where
  graph :=
    { id := 1
      settings := ⟨"graph", true, none⟩
      nodes := [
        ⟨0, .input, [], [.constant 3], .contiguous [.literal 3], [], some "x", none⟩,
        ⟨1, .slice, [0], [.anonymous], .contiguous [.literal 3],
          [("ranges", .list [.text "[0, 3)"])], none, none⟩,
        ⟨2, .reshape, [1], [.anonymous], .contiguous [.literal 3],
          [("target", .list [.text "copy(0)"])], none, none⟩]
      obligations := []
      journal := ["%0 = input [3]", "%1 = slice [-]", "%2 = reshape [-]"] }
  issued := [⟨0, [.constant 3], 1⟩, ⟨1, [.anonymous], 1⟩, ⟨2, [.anonymous], 1⟩]

/-- The slice up to a symbol and its instance are resolved to the same shapes, though only one
of the two reshapes lays its input out. -/
theorem Session.shapes_deferred_slice :
    (start 1 ⟨"graph", true, none⟩).build wholeSlice = .ok wholeSliceBuilt ∧ ∃ shapes,
      (start 0 ⟨"graph", true, none⟩).shapes deferredSlice ⟨[("n", 3), ("m", 3)], []⟩ =
          .ok shapes ∧
        (start 1 ⟨"graph", true, none⟩).shapes wholeSlice ⟨[], []⟩ = .ok shapes := by
  have hinstance : deferredSlice.mapM (Command.instantiate [("n", 3), ("m", 3)]) =
      .ok wholeSlice := rfl
  have hbuild : (start 1 ⟨"graph", true, none⟩).build wholeSlice = .ok wholeSliceBuilt := rfl
  refine ⟨hbuild, shapes_deferred ⟨by decide, by decide⟩ ?_ ?_ hinstance hbuild
    (.of_eq _ hinstance rfl) (.of_eq _ hbuild rfl) (.of_eq (.ok [[3], [3], [3]]) rfl rfl)
    (.of_eq (.ok [[3], [3], [3]]) rfl rfl)⟩
  · simp [deferredSlice, Command.Deferrable, Dimension.Named, Dimension.ofSymbol,
      Dimension.anonymousSymbol, RangeSpec.Integral, RangeSpec.bounds, Bound.upper,
      Bound.Integral, Quantity.Integral, Size.Integral]
  · simp [deferredSlice, Command.names, Dimension.names, RangeSpec.names, RangeSpec.bounds,
      Bound.upper, Bound.names, Quantity.names, Size.names, Bindings.Bound, Entries.get?]

end ShapeGraph
