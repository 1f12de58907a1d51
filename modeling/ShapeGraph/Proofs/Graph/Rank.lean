import ShapeGraph.Proofs.Graph.Derivation
import ShapeGraph.Proofs.Graph.Failure
import ShapeGraph.Proofs.Graph.Gain

/-!
# The rank limit of a session

No shape that is checked has more than `Shape.maxRank` axes.  An operation that does not
check its result takes over the rank of an operand, or makes it less, and so stays within
the limit as long as its operands do.  Two operations count nothing: a reshape takes as many
axes as its target lists, and an expansion one more than its operand.

* `Session.Limited` — no node and no tensor has more axes than a shape may have;
* `Command.Oversteps` — a reshape or an expansion that asks for more;
* `Command.limited`, `Command.overstepped` — the others keep the limit, and these break it
  whenever they succeed;
* `Session.step_limited_iff`, `Session.ranks_limited_iff` — so a session keeps the limit
  exactly if none of these has succeeded in it.
-/

namespace ShapeGraph

open ShapeGraph.Numeric (Arithmetic Number)

/-- No node has more axes than a shape may have. -/
def Graph.Limited (g : Graph) : Prop :=
  ∀ node ∈ g.nodes, node.shape.length ≤ Shape.maxRank

/-- Neither a node nor a tensor that has been issued has more axes than a shape may have. -/
structure Session.Limited (s : Session) : Prop where
  graph : s.graph.Limited
  issued : ∀ t ∈ s.issued, t.rank ≤ Shape.maxRank

/-- A call of an operation that does not count axes, for more of them than a shape may
have. -/
def Command.Oversteps (issued : List Tensor) : Command → Prop
  | reshape _ target => Shape.maxRank < target.length
  | expand t _ _ => ∃ operand, issued[t]? = some operand ∧ Shape.maxRank ≤ operand.rank
  | _ => False

/-! ## Ranks of what is derived -/

/-- A reshape derives one axis for each entry of its target. -/
theorem length_targetAxes {shape : Shape} {lengths : List Size} {position : Nat}
    {entries : List ReshapeEntry} {axes : List (Dimension × Size)}
    (h : targetAxes shape lengths position entries = .ok axes) :
    axes.length = entries.length := by
  induction entries generalizing position axes with
  | nil =>
      obtain rfl := Except.ok.inj h
      rfl
  | cons entry rest ih =>
      simp only [targetAxes, bind_eq_ok, pure_eq_ok] at h
      obtain ⟨_, _, others, hothers, rfl⟩ := h
      rw [List.length_cons, List.length_cons, ih hothers]

namespace Found

variable {g : Graph} {t : Tensor}

/-- A permutation keeps the rank. -/
theorem Permutation.rank {axes : List Number} (found : Permutation g t axes) :
    found.shape.length = t.rank := by
  have hperm := Axis.permutation_perm found.positions_eq
  obtain ⟨hwithin, hshape⟩ := Axis.pick_eq_ok.mp found.shape_eq
  rw [hshape, Axis.length_picked hwithin, hperm.length_eq, List.length_range]

variable [Arithmetic]

/-- A slice keeps the rank. -/
theorem Slice.rank {specs : List RangeSpec} (found : Slice g t specs) :
    found.mapping.shape.length = t.rank := by
  have hmapping := found.mapping_eq
  rw [mapSlice, ite_error_eq_ok] at hmapping
  rw [mapAxes_shape hmapping.2, List.length_mapIdx]
  rfl

/-- A reshape has the rank of its target. -/
theorem Reshape.rank {target : List ReshapeEntry} (found : Reshape g t target)
    (source : Tensor) : (found.draft source).shape.length = target.length := by
  rw [← length_targetAxes found.axes_eq]
  exact List.length_map _

/-- A product of matrices has the rank of its first factor. -/
theorem Product.rank {a b : Tensor} (found : Product g a b) :
    found.draft.shape.length = a.rank := by
  have hmatrix : 2 ≤ a.rank := by
    by_contra hlow
    exact found.ranks (.inl (by omega))
  have hrank : a.shape.length = a.rank := rfl
  show (a.shape.dropLast ++ [found.dim]).length = a.rank
  rw [List.length_append, List.length_dropLast, List.length_singleton]
  omega

end Found

/-! ## Calls -/

/-- A call that leaves the graph within the limit and issues a tensor within it. -/
structure Build.Limited (call : Build Tensor) (g : Graph) : Prop where
  graph : (call.perform g).2.Limited
  handle : ∀ t, (call.perform g).1 = .ok t → t.rank ≤ Shape.maxRank

namespace Graph

variable {g : Graph}

/-- A draft within the limit keeps the graph within it. -/
theorem Limited.append (hg : g.Limited) {draft : Draft}
    (hdraft : draft.shape.length ≤ Shape.maxRank) (inputs : List Nat) :
    (g.append draft inputs).Limited := by
  intro node hnode
  rw [append_nodes] at hnode
  rcases List.mem_append.mp hnode with hold | hnew
  · exact hg node hold
  · obtain rfl := List.mem_singleton.mp hnew
    exact hdraft

/-- Whatever a larger graph is within, the graph is within. -/
theorem Limited.before {g' : Graph} (h : g'.Limited) (hcontinues : g'.Continues g) : g.Limited :=
  fun node hnode => h node (hcontinues.nodes.subset hnode)

end Graph

namespace Build.Limited

variable {g : Graph} {issued : List Tensor}

/-- A call that fails and changes nothing stays within the limit. -/
theorem of_failure {call : Build Tensor} (hg : g.Limited) {fault : Fault}
    (h : call.perform g = (.error fault, g)) : call.Limited g := by
  refine ⟨by rw [h]; exact hg, fun t ht => ?_⟩
  rw [h] at ht
  cases ht

/-- A call that issues a tensor within the limit and leaves the graph within it is limited. -/
theorem of_issue {call : Build Tensor} {t : Tensor} {g' : Graph}
    (h : call.perform g = (.ok t, g')) (hg : g'.Limited) (ht : t.rank ≤ Shape.maxRank) :
    call.Limited g := by
  refine ⟨by rw [h]; exact hg, fun held hheld => ?_⟩
  rw [h] at hheld
  obtain rfl := Except.ok.inj hheld
  exact ht

/-- A call that derives a node is limited if the shapes that it derives are. -/
theorem of_derives {α : Type} {call : Build Tensor} {draft : α → Draft}
    (h : call.Derives g draft) (hg : g.Limited)
    (hdraft : ∀ found, (draft found).shape.length ≤ Shape.maxRank) : call.Limited g := by
  rcases h with ⟨fault, hperform⟩ | ⟨found, inputs, _, hperform⟩
  · exact of_failure hg hperform
  · exact of_issue hperform (hg.append (hdraft found) inputs) (hdraft found)

/-- A call that reads the graph is limited if it is whatever is read. -/
theorem of_read {α : Type} {f : Graph → Except Fault α} {next : α → Build Tensor}
    (hg : g.Limited) (h : ∀ a, f g = .ok a → (next a).Limited g) :
    (read f >>= next).Limited g := by
  rcases read_cases f next g with ⟨fault, hperform⟩ | ⟨a, ha, hperform⟩
  · exact of_failure hg hperform
  · obtain ⟨hgraph, hhandle⟩ := h a ha
    exact ⟨by rw [hperform]; exact hgraph, fun t ht => hhandle t (by rw [← hperform]; exact ht)⟩

/-- The same goes for a call on an operand. -/
theorem of_operand {place : Nat} {next : Tensor → Build Tensor} (hg : g.Limited)
    (h : ∀ t, issued[place]? = some t → (next t).Limited g) :
    (Command.operand issued place >>= next).Limited g := by
  refine of_read hg fun t ht => ?_
  split at ht
  · next held hheld =>
    obtain rfl := Except.ok.inj ht
    exact h held hheld
  · cases ht

theorem of_operands {places : List Nat} {next : List Tensor → Build Tensor} (hg : g.Limited)
    (h : ∀ tensors, (next tensors).Limited g) :
    (places.mapM (Command.operand issued) >>= next).Limited g := by
  induction places generalizing next with
  | nil =>
      rw [List.mapM_nil, pure_bind]
      exact h []
  | cons place rest ih =>
      simp only [List.mapM_cons, bind_assoc, pure_bind]
      exact of_operand hg fun t _ => ih fun tensors => h (t :: tensors)

end Build.Limited

/-! ## Operations -/

namespace Build

variable {g : Graph} {t : Tensor}

/-- A host computation is within the limit, as its shape is checked. -/
theorem addFunction_limited (hg : g.Limited) (name : String) (tensors : List Tensor)
    (shape : Shape) (payload : Payload) (declared : Option (List (Option Quantity))) :
    (addFunction name tensors shape payload declared).Limited g :=
  .of_derives (addFunction_derives name tensors shape payload declared) hg fun found =>
    found.rank_le

variable [Arithmetic]

/-- An operation on every element is within the limit if its operand is. -/
theorem pointwise_limited (hg : g.Limited) (ht : t.rank ≤ Shape.maxRank) (kind : OpKind) :
    (pointwise kind t).Limited g :=
  .of_derives (pointwise_derives kind t) hg fun _ => ht

/-- A relabelling checks the shape that it gives. -/
theorem realize_limited (hg : g.Limited) (t : Tensor) (shape : Shape) :
    (realize t shape).Limited g := by
  rcases realize_cases t shape with ⟨fault, h⟩ | ⟨found, h⟩
  · exact .of_failure hg h
  · exact .of_issue h hg found.rank_le

/-- A reshape is limited if its target is; its operand may be laid out before. -/
theorem reshape_limited (hg : g.Limited) (ht : t.rank ≤ Shape.maxRank)
    {target : List ReshapeEntry} (htarget : target.length ≤ Shape.maxRank) :
    (reshape t target).Limited g := by
  have hrank : ∀ (found : Found.Reshape g t target) (source : Tensor),
      (found.draft source).shape.length ≤ Shape.maxRank := by
    intro found source
    rw [found.rank source]
    exact htarget
  rcases reshape_cases t target with ⟨fault, h⟩ | ⟨found, ⟨_, h⟩ | ⟨first, h⟩⟩
  · exact .of_failure hg h
  · exact .of_issue h (hg.append (hrank found t) _) (hrank found t)
  · have hlow : (first.draft []).shape.length ≤ Shape.maxRank := ht
    have hfirst := hg.append hlow [first.node.id]
    have hdraft := hrank found (handle g t.shape)
    exact .of_issue h (hfirst.append hdraft _) hdraft

/-- A reduction is within the limit if its operand is. -/
theorem reduce_limited (hg : g.Limited) (ht : t.rank ≤ Shape.maxRank) (op : ReduceOp)
    (axis : Number) : (reduce op t axis).Limited g := by
  refine .of_derives (reduce_derives op t axis) hg fun found => ?_
  have hless : (Axis.removeAt t.shape found.position).length ≤ t.shape.length := by
    rw [Axis.removeAt, Axis.without, List.length_append, List.length_take, List.length_drop]
    omega
  exact Nat.le_trans hless ht

end Build

/-! ## Commands -/

section

variable [Arithmetic] {g : Graph} {issued : List Tensor} {command : Command}

open Build in
/-- **A command that does not overstep the limit keeps it**, on tensors that are within it. -/
theorem Command.limited (hg : g.Limited) (hissued : ∀ t ∈ issued, t.rank ≤ Shape.maxRank)
    (hcommand : ¬ command.Oversteps issued) : (command.step issued).Limited g := by
  have hrank : ∀ {place : Nat} {t : Tensor}, issued[place]? = some t → t.rank ≤ Shape.maxRank :=
    fun hplace => hissued _ (List.mem_of_getElem? hplace)
  cases command with
  | newTensor name shape =>
      exact .of_derives (newTensor_derives name shape) hg fun found => found.rank_le
  | constant value => exact .of_derives (constant_derives value) hg fun _ => Nat.zero_le _
  | addFunction name inputs shape payload sizes =>
      exact .of_operands hg fun tensors => addFunction_limited hg name tensors shape payload sizes
  | realize t shape => exact .of_operand hg fun t _ => realize_limited hg t shape
  | slice t specs =>
      refine .of_operand hg fun t ht => .of_derives (slice_derives t specs) hg fun found => ?_
      show found.mapping.shape.length ≤ Shape.maxRank
      rw [found.rank]
      exact hrank ht
  | permute t axes =>
      refine .of_operand hg fun t ht => .of_derives (permute_derives t axes) hg fun found => ?_
      show found.shape.length ≤ Shape.maxRank
      rw [found.rank]
      exact hrank ht
  | reshape t target =>
      have htarget : target.length ≤ Shape.maxRank := Nat.le_of_not_lt hcommand
      exact .of_operand hg fun t ht => reshape_limited hg (hrank ht) htarget
  | expand t axis dim =>
      refine .of_operand hg fun operand hplace =>
        .of_derives (expand_derives operand axis dim) hg fun found => ?_
      have hlow : operand.rank < Shape.maxRank := by
        apply Nat.lt_of_not_le
        intro hhigh
        exact hcommand ⟨operand, hplace, hhigh⟩
      show (Axis.insertAt operand.shape found.position dim).length ≤ Shape.maxRank
      rw [Axis.length_insertAt]
      exact hlow
  | expandTo t target =>
      exact .of_operand hg fun t _ => .of_derives (expandTo_derives t target) hg fun found =>
        found.rank_le
  | concat a b axis =>
      refine .of_operand hg fun a ha => .of_operand hg fun b _ =>
        .of_derives (concat_derives a b axis) hg fun found => ?_
      show (a.shape.set found.position found.dim).length ≤ Shape.maxRank
      rw [List.length_set]
      exact hrank ha
  | contiguous t => exact .of_operand hg fun t ht => pointwise_limited hg (hrank ht) .contiguous
  | unary op t => exact .of_operand hg fun t ht => pointwise_limited hg (hrank ht) (.unary op)
  | binary op a b =>
      exact .of_operand hg fun a ha => .of_operand hg fun b _ =>
        .of_derives (binary_derives op a b) hg fun _ => hrank ha
  | scalar op t value =>
      exact .of_operand hg fun t ht => .of_derives (scalar_derives op t value) hg fun _ => hrank ht
  | reduce op t axis => exact .of_operand hg fun t ht => reduce_limited hg (hrank ht) op axis
  | softmax t axis =>
      exact .of_operand hg fun t ht => .of_derives (softmax_derives t axis) hg fun _ => hrank ht
  | matmul a b =>
      refine .of_operand hg fun a ha => .of_operand hg fun b _ =>
        .of_derives (matmul_derives a b) hg fun found => ?_
      rw [found.rank]
      exact hrank ha
  | arange like axis =>
      exact .of_operand hg fun _ _ => .of_read hg fun _ _ => addFunction_limited hg _ _ _ _ _
  | causalMask like axis =>
      exact .of_operand hg fun _ _ => .of_read hg fun _ _ => addFunction_limited hg _ _ _ _ _

/-- **A command that oversteps the limit breaks it**, if it succeeds at all. -/
theorem Command.overstepped (hcommand : command.Oversteps issued) {t : Tensor} {g' : Graph}
    (h : (command.step issued).perform g = (.ok t, g')) : Shape.maxRank < t.rank := by
  cases command with
  | reshape place target =>
      obtain ⟨held, _, hreshape⟩ := operand_eq_ok h
      have hrank : ∀ (found : Found.Reshape g held target) (source : Tensor) (g : Graph),
          (Build.handle g (found.draft source).shape).rank = target.length :=
        fun found source _ => found.rank source
      rcases Build.reshape_cases held target with
        ⟨fault, hfailed⟩ | ⟨found, ⟨_, hmade⟩ | ⟨_, hmade⟩⟩
      · cases hreshape.symm.trans hfailed
      all_goals
        obtain ⟨hissue, _⟩ := Prod.mk.inj (hreshape.symm.trans hmade)
        rw [Except.ok.inj hissue, hrank]
        exact hcommand
  | expand place axis dim =>
      obtain ⟨operand, hplace, hhigh⟩ := hcommand
      obtain ⟨held, hheld, hexpand⟩ := operand_eq_ok h
      obtain rfl := Option.some.inj (hplace.symm.trans hheld)
      obtain ⟨found, _, _, rfl, _⟩ := (Build.expand_derives operand axis dim).of_ok hexpand
      show Shape.maxRank < (Axis.insertAt operand.shape found.position dim).length
      rw [Axis.length_insertAt]
      exact Nat.lt_succ_of_le hhigh
  | _ => exact hcommand.elim

end

/-! ## Sessions -/

namespace Session

/-- A session that has issued nothing is within the limit. -/
theorem start_limited (id : Nat) (settings : GraphSettings) : (start id settings).Limited :=
  ⟨List.forall_mem_nil _, List.forall_mem_nil _⟩

section

variable [Arithmetic] {s s' : Session} {command : Command} {commands : List Command}

/-- A command takes neither nodes nor tensors away. -/
theorem Limited.before_step (h : (s.step command).Limited) : s.Limited := by
  obtain ⟨hgraph, hissued⟩ := h
  rw [step_graph] at hgraph
  refine ⟨hgraph.before (command.changes s.issued).continues, fun t ht => hissued t ?_⟩
  unfold step
  split
  · exact List.mem_append_left _ ht
  · exact ht

/-- A session that ends within the limit has been within it before. -/
theorem Limited.before_run (h : (s.run commands).Limited) : s.Limited := by
  induction commands generalizing s with
  | nil => exact h
  | cons command rest ih => exact (ih h).before_step

/-- **One command keeps the limit** exactly if it does not overstep it or fails. -/
theorem step_limited_iff (hs : s.Limited) :
    (s.step command).Limited ↔
      ∀ s', s.extend command = .ok s' → ¬ command.Oversteps s.issued := by
  rcases hperform : (command.step s.issued).perform s.graph with ⟨fault | t, g⟩
  · -- a command that fails leaves everything as it is
    have hsame := (command.guarded s.graph s.issued).unchanged fault g hperform
    have hstep : s.step command = s := by
      rw [step, hperform, hsame]
    have hextend : s.extend command = .error fault := by
      rw [extend, hperform]
    rw [hstep, hextend]
    constructor
    · intro _ s' h
      cases h
    · intro _
      exact hs
  · have hstep : s.step command = ⟨g, s.issued ++ [t]⟩ := by
      rw [step, hperform]
    have hextend : s.extend command = .ok ⟨g, s.issued ++ [t]⟩ := by
      rw [extend, hperform]
    rw [hstep]
    constructor
    · intro hlimited s' _ hoversteps
      have hhigh := command.overstepped hoversteps hperform
      have hlow := hlimited.issued t (List.mem_append_right _ List.mem_cons_self)
      omega
    · intro hkept
      obtain ⟨hgraph, hhandle⟩ := command.limited hs.graph hs.issued (hkept _ hextend)
      rw [hperform] at hgraph hhandle
      refine ⟨hgraph, List.forall_mem_append.mpr ⟨hs.issued, ?_⟩⟩
      intro held hheld
      obtain rfl := List.mem_singleton.mp hheld
      exact hhandle held rfl

/-- **A session keeps the limit** exactly if no command in it that succeeds oversteps it. -/
theorem run_limited_iff (hs : s.Limited) :
    (s.run commands).Limited ↔ ∀ before command after, commands = before ++ command :: after →
      ∀ s', (s.run before).extend command = .ok s' →
        ¬ command.Oversteps (s.run before).issued := by
  induction commands generalizing s with
  | nil =>
      constructor
      · intro _ before command after h
        cases before <;> cases h
      · intro _
        exact hs
  | cons first rest ih =>
      constructor
      · intro hlimited before command after hcommands
        have hrun : ((s.step first).run rest).Limited := hlimited
        have hfirst := hrun.before_run
        cases before with
        | nil =>
            obtain ⟨rfl, rfl⟩ := List.cons.inj hcommands
            exact (step_limited_iff hs).mp hfirst
        | cons other before =>
            obtain ⟨rfl, hrest⟩ := List.cons.inj hcommands
            exact (ih hfirst).mp hrun before command after hrest
      · intro hkept
        have hfirst : (s.step first).Limited := by
          apply (step_limited_iff hs).mpr
          exact hkept [] first rest rfl
        apply (ih hfirst).mpr
        intro before command after hrest
        exact hkept (first :: before) command after (by rw [hrest]; rfl)

/-- **Where the rank limit is an invariant.**  In whatever order named operations are called,
and whether they fail or not, all nodes and tensors of a session stay within the rank limit
exactly if every reshape that has succeeded was to a target within it, and every expansion
that has succeeded was of a tensor below it. -/
theorem ranks_limited_iff (id : Nat) (settings : GraphSettings) (commands : List Command) :
    ((start id settings).run commands).Limited ↔
      ∀ before command after, commands = before ++ command :: after →
        ∀ s', ((start id settings).run before).extend command = .ok s' →
          ¬ command.Oversteps ((start id settings).run before).issued :=
  run_limited_iff (start_limited id settings)

end

/-- A tensor of eight axes that is given a ninth one, and then reshaped to nine ones. -/
def raised : Session :=
  (start 0 ⟨"graph", true, none⟩).run
    [.newTensor "x" (List.replicate 8 (.constant 1)), .expand 0 0 (.constant 1),
      .reshape 0 (List.replicate 9 (.size 1))]

/-- Both calls succeed, and leave nodes and handles of rank nine. -/
theorem ranks_limited_fails :
    raised.issued.map Tensor.rank = [8, 9, 9] ∧
      raised.graph.nodes.map (fun node => node.shape.length) = [8, 9, 9] ∧
      ¬ raised.Limited := by
  have hissued : raised.issued.map Tensor.rank = [8, 9, 9] := rfl
  refine ⟨hissued, rfl, ?_⟩
  intro hlimited
  have hranks : ∀ rank ∈ raised.issued.map Tensor.rank, rank ≤ 8 := by
    intro rank hrank
    obtain ⟨t, ht, rfl⟩ := List.mem_map.mp hrank
    exact hlimited.issued t ht
  rw [hissued] at hranks
  have hnine : 9 ≤ 8 := hranks 9 (by decide)
  omega

end Session

end ShapeGraph
