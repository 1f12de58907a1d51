import Mathlib.Algebra.BigOperators.Group.List.Basic
import ShapeGraph.Proofs.Graph.Generators
import ShapeGraph.Proofs.Resolution.Filling
import ShapeGraph.Proofs.Resolution.Yield

/-!
# Generators at run time

When the walk comes to the node of a generator it has resolved the view of the reference tensor,
so the length that the node has been declared with is known, and it is the one that the
computation reads from the resolved shape.  The computation therefore returns what has been
declared, provided that there is room for its data.

* `Graph.walkTo` — the walk of a resolution up to a place;
* `Graph.Generates.invoke_yields`, `Graph.Generates.resolve_yields` — the node when its turn has
  come;
* `Session.generators_agree` — after any calls, with nothing rounded.
-/

namespace ShapeGraph

open ShapeGraph.Numeric (Arithmetic Exact Number Unbounded)

section

variable [Arithmetic]

/-! ## The walk up to a place -/

/-- The walk of a resolution over the first nodes of a graph. -/
def Graph.walkTo (g : Graph) (options : ResolveOptions) (count : Nat) :
    Except Fault (Environment × List ResolvedNode) := do
  let env ← Environment.ofBindings options.bindings
  (walk g.obligations options.inputs (g.nodes.take count) [] env).outcome

/-- A walk over one node more ends with that node, or has failed before. -/
theorem walk_concat (obligations : List Obligation) (inputs : Entries Feed) (nodes : List Node)
    (node : Node) (resolved : List ResolvedNode) (env : Environment) :
    (walk obligations inputs (nodes ++ [node]) resolved env).outcome = do
      let (middle, walked) ← (walk obligations inputs nodes resolved env).outcome
      let (last, next) ← (resolveNode obligations inputs node walked middle).outcome
      return (last, walked ++ [next]) := by
  induction nodes generalizing resolved env with
  | nil =>
      simp only [List.nil_append, walk, Run.outcome_bind, Run.outcome_pure]
      rfl
  | cons first rest ih =>
      simp only [List.cons_append, walk, Run.outcome_bind, ih, bind_assoc]

/-- The walk over one node more goes on with that node. -/
theorem Graph.walkTo_succ {g : Graph} {place : Nat} {node : Node}
    (hnode : g.nodes[place]? = some node) (options : ResolveOptions) :
    g.walkTo options (place + 1) = do
      let (middle, walked) ← g.walkTo options place
      let (last, next) ← (resolveNode g.obligations options.inputs node walked middle).outcome
      return (last, walked ++ [next]) := by
  have htake : g.nodes.take (place + 1) = g.nodes.take place ++ [node] := by
    rw [List.take_add_one, hnode]
    rfl
  simp only [walkTo, htake, walk_concat, bind_assoc]

/-! ## The turn of a generator -/

/-- The node is resolved to `n` on all axes, and has the data that the generator is asked for. -/
structure Generator.Shows (gen : Generator) (n : Nat) (node : ResolvedNode) : Prop where
  shape_eq : node.shape = List.replicate gen.rank (.ofNat n)
  data_fills : ∃ data, node.data = some data ∧ gen.Fills n data

omit [Arithmetic] in
/-- Being seen does not make a call fail. -/
theorem callSeen_outcome (payload : Payload) (node : Nat) (inputs : List FunctionInput) :
    (callSeen payload node inputs).outcome = .ok () := by
  cases payload <;> rfl

/-- A result goes through the check if it is about its node, and of the declared rank, and its
data fills its sizes. -/
theorem checkResult_fills [Unbounded] (name : String) {node : Node} {data : List Number}
    (view : View) {count n : Nat} (hrank : node.shape.length = count)
    (hdata : data.length = n ^ count) :
    checkResult name node ⟨some data, .ofNat node.id, view⟩ (List.replicate count (.ofNat n)) =
      .ok () := by
  have hown : (Number.ofNat node.id).same (.ofNat node.id) = true :=
    Number.same_int_iff.mpr rfl
  have hproduct : Number.product (List.replicate count (.ofNat n)) = .ofNat (n ^ count) := by
    have hall := Number.product_int (List.replicate count (n : Int))
    rw [List.map_replicate, List.prod_replicate] at hall
    rw [Number.ofNat, Number.ofNat, hall, Int.natCast_pow]
  have hfills : (Number.ofNat data.length).same (.ofNat (n ^ count)) = true := by
    rw [hdata]
    exact Number.same_int_iff.mpr rfl
  simp [checkResult_eq, hown, hrank, hproduct, hfills]

/-- The turn of a generator has come: the axis that it reads is resolved to `n`, and the size
that its own axes are declared with has come to that number. -/
structure Generator.Ready (k n : Nat) (source node : Node) (env : Environment)
    (before : List ResolvedNode) : Prop where
  sound : env.Sound
  reads : ∃ shown, before[source.id]? = some shown ∧ shown.shape[k]? = some (.ofNat n)
  known : ∀ range, source.view.shown[k]? = some range → range.length.Integral ∧
    ∃ lower : Bindings, lower.Below env.bindings ∧ range.length.CountsTo lower n

namespace Graph.Generates

variable [Unbounded] {g : Graph} {gen : Generator} {k n : Nat} {source node : Node}
  {env : Environment} {before : List ResolvedNode}

/-- When the walk comes to the node, the length is known. -/
theorem ready (hg : g.WellFormed) (hgen : g.Generates gen k source node)
    {options : ResolveOptions} (h : g.walkTo options node.id = .ok (env, before)) :
    ∃ n, Generator.Ready k n source node env before := by
  obtain ⟨initial, hinitial, hwalk⟩ := bind_eq_ok.mp h
  obtain ⟨hgrows, walked, rfl, hwalked⟩ := walk_ok hwalk
  have hsound := hgrows.sound (Environment.ofBindings_sound hinitial)
  obtain ⟨range, hrange, _⟩ := hgen.view_eq
  have hsource : (g.nodes.take node.id)[source.id]? = some source := by
    rw [List.getElem?_take_of_lt hgen.earlier]
    exact hgen.source_at
  have hlt : source.id < before.length :=
    hwalked.length_eq ▸ (List.getElem?_eq_some_iff.mp hsource).1
  obtain ⟨_, held, view, hheld, hview, hshows⟩ := (forall₂_iff_getElem?.mp hwalked).2 source.id
    source _ hsource (List.getElem?_eq_getElem hlt)
  obtain ⟨hwell, hintegral⟩ := hg.view_ok (List.mem_of_getElem? hgen.source_at)
  have hbelow := hheld.below
  obtain ⟨n, hn, hcounts⟩ :=
    View.counts_of_resolve hwell hintegral (hbelow.integral hsound.integral) hview hrange
  refine ⟨n, hsound, ⟨before[source.id], List.getElem?_eq_getElem hlt, ?_⟩, fun other hother => ?_⟩
  · rw [hshows.shape_eq, hn]
  · obtain rfl := Option.some.inj (hrange.symm.trans hother)
    have hlength := (AxisRange.length_means
      (hintegral.of_mem_shown (List.mem_of_getElem? hrange))).integral
    exact ⟨hlength, held.bindings, hbelow, hcounts⟩

omit [Unbounded] in
/-- The computation is given the reference tensor, as it is resolved. -/
theorem inputs_ok (hgen : g.Generates gen k source node) {shown : ResolvedNode}
    (hshown : before[source.id]? = some shown) (name : String) :
    functionInputs name node before = .ok [shown.asInput] := by
  rw [functionInputs, hgen.inputs_eq]
  simp [hshown]

variable (hgen : g.Generates gen k source node)
  (hready : Generator.Ready k n source node env before)
  (hroom : n ^ gen.rank ≤ Payload.maxHeld)

include hgen hready hroom

/-- **The computation of a generator** returns what has been declared, so nothing is bound. -/
theorem invoke_yields :
    Yields (· = (env, some (gen.data n))) (invokeFunction node before env).outcome := by
  obtain ⟨shown, hshown, hn⟩ := hready.reads
  obtain ⟨range, hrange, hview⟩ := hgen.view_eq
  obtain ⟨hlength, lower, hbelow, hcounts⟩ := hready.known range hrange
  generalize hname : node.name.getD "function" = name
  have hinputs := hgen.inputs_ok hshown name
  have hread : shown.asInput.shape[k]? = some (.ofNat n) := hn
  have hreturned : Size.Integral (.literal (.ofNat n)) := ⟨n, rfl⟩
  have hview' := View.resolve_uniform hreturned hready.sound.integral (n := n) rfl gen.rank
  have hrun : runPayload name node (gen.payload k) [shown.asInput] env =
      .ok (⟨some (gen.data n), .ofNat node.id,
        .contiguous (List.replicate gen.rank (.literal (.ofNat n)))⟩,
        List.replicate gen.rank (.ofNat n)) :=
    runPayload_eq_ok.mpr ⟨(gen.run_eq_ok hread).mpr ⟨hroom, rfl⟩, _, hview', rfl⟩
  have hchecked := checkResult_fills name
    (.contiguous (List.replicate gen.rank (.literal (.ofNat n)))) hgen.rank_eq (gen.length_data n)
  have hdeclared : node.view.lengths = .ok (List.replicate gen.rank range.length) := by
    rw [hview, View.lengths_replicate hlength]
  have hbound := bindResults_known hlength hready.sound.integral hbelow hcounts name 0 gen.rank
  unfold invokeFunction
  simp only [hgen.payload_eq, hname, Run.outcome_bind, Run.outcome_liftM, Run.outcome_log,
    callSeen_outcome, Run.outcome_pure, hinputs, hrun, hchecked, hdeclared, ok_bind]
  refine hbound.bind fun env' _ henv' => ?_
  subst henv'
  exact rfl

/-- **The node of a generator** is resolved to the length that it has read, on all axes, and
filled with the data that is asked for. -/
theorem resolve_yields (obligations : List Obligation) (inputs : Entries Feed) :
    Yields (fun next => gen.Shows n next.2)
      (resolveNode obligations inputs node before env).outcome := by
  obtain ⟨range, hrange, hview⟩ := hgen.view_eq
  obtain ⟨hlength, lower, hbelow, hcounts⟩ := hready.known range hrange
  have hevaluated : evaluateNode inputs node before env = invokeFunction node before env := by
    rw [evaluateNode, hgen.kind_eq]
  unfold resolveNode
  simp only [Run.outcome_bind, Run.outcome_liftM, Run.outcome_pure, hevaluated]
  refine (hgen.invoke_yields hready hroom).bind fun computed _ hcomputed => ?_
  subst hcomputed
  refine (bindObligations_yields env _).bind fun env' _ hgrows => ?_
  have hsound := hgrows.sound hready.sound
  rw [hview]
  refine (View.resolve_known hlength hsound.integral (hbelow.trans hgrows.below) hcounts
    gen.rank).bind fun view _ hresolved => ?_
  subst hresolved
  exact ⟨rfl, gen.data n, rfl, gen.fills_data n⟩

omit hready hroom in
/-- In a resolution that succeeds there has been room, and the node has the length of the axis. -/
theorem of_resolve (hg : g.WellFormed) {options : ResolveOptions} {resolved : ResolvedGraph}
    (h : (g.resolve options).outcome = .ok resolved) :
    ∃ n shown made, resolved.nodes[source.id]? = some shown ∧
      shown.shape[k]? = some (.ofNat n) ∧ resolved.nodes[node.id]? = some made ∧
      gen.Shows n made := by
  obtain ⟨initial, final, hinitial, hwalk, _⟩ := Graph.resolve_parts h
  obtain ⟨env, last, made, hbefore, hmade, hplace, _⟩ := walk_at hwalk hgen.node_at
  have hreached : g.walkTo options node.id = .ok (env, resolved.nodes.take node.id) :=
    bind_eq_ok.mpr ⟨initial, hinitial, hbefore⟩
  obtain ⟨n, hready⟩ := hgen.ready hg hreached
  obtain ⟨shown, hshown, hn⟩ := hready.reads
  have hinputs := hgen.inputs_ok hshown (node.name.getD "function")
  obtain ⟨middle, data, _, hmiddle, _⟩ := resolveNode_eq_ok.mp hmade
  rw [evaluateNode, hgen.kind_eq] at hmiddle
  obtain ⟨payload, read, result, _, _, hpayload, hread, hrun, _⟩ := invokeFunction_ok hmiddle
  obtain rfl := Option.some.inj (hgen.payload_eq.symm.trans hpayload)
  obtain rfl := Except.ok.inj (hinputs.symm.trans hread)
  have hlength : shown.asInput.shape[k]? = some (.ofNat n) := hn
  have hroom := ((gen.run_eq_ok hlength).mp hrun).1
  rw [List.getElem?_take_of_lt hgen.earlier] at hshown
  exact ⟨n, shown, made, hshown, hn, hplace,
    (hgen.resolve_yields hready hroom g.obligations options.inputs).result hmade⟩

omit hready hroom in
/-- In any resolution that comes to the node, nothing but arithmetic can stop it there. -/
theorem walkTo_yields (hg : g.WellFormed) {options : ResolveOptions}
    (h : g.walkTo options node.id = .ok (env, before)) :
    ∃ n shown, before[source.id]? = some shown ∧ shown.shape[k]? = some (.ofNat n) ∧
      (n ^ gen.rank ≤ Payload.maxHeld →
        Yields (fun next => ∃ made, next.2 = before ++ [made] ∧ gen.Shows n made)
          (g.walkTo options (node.id + 1))) := by
  obtain ⟨n, hready⟩ := hgen.ready hg h
  obtain ⟨shown, hshown, hn⟩ := hready.reads
  refine ⟨n, shown, hshown, hn, fun hroom => ?_⟩
  rw [Graph.walkTo_succ hgen.node_at, h]
  refine (hgen.resolve_yields hready hroom g.obligations options.inputs).bind fun next _ hnext => ?_
  exact ⟨next.2, rfl, hnext⟩

end Graph.Generates

omit [Arithmetic] in
/-- The resolved node of an id is the one at that place. -/
theorem ResolvedGraph.view_eq_ok {resolved : ResolvedGraph} {id : Nat} {node : ResolvedNode}
    (h : resolved.nodes[id]? = some node) : resolved.view (.ofNat id) = .ok node := by
  simp [view, h]

end

/-! ## After any calls -/

/-- Whenever the graph is resolved with nothing rounded, what the generator has made agrees with
an axis of the tensor that it was given. -/
structure Generator.Agrees (gen : Generator) (g : Graph) (like made : Tensor) (k : Nat) :
    Prop where
  /-- In a resolution that succeeds, it shows the length that the axis has there. -/
  resolved : ∀ options resolved, (Exact fun _ => (g.resolve options).outcome) →
    (g.resolve options).outcome = .ok resolved → ∃ n source node,
      resolved.view like.id = .ok source ∧ source.shape[k]? = some (.ofNat n) ∧
        resolved.view made.id = .ok node ∧ gen.Shows n node
  /-- In any resolution that comes to its node the axis has a length, and if there is room for
  the data then nothing but a fault of arithmetic can stop the walk at the node. -/
  walked : ∀ options place env before, made.id = .ofNat place →
    (Exact fun _ => g.walkTo options place) → (Exact fun _ => g.walkTo options (place + 1)) →
    g.walkTo options place = .ok (env, before) → ∃ n source,
      (ResolvedGraph.mk env.bindings before).view like.id = .ok source ∧
        source.shape[k]? = some (.ofNat n) ∧
        (n ^ gen.rank ≤ Payload.maxHeld →
          Yields (fun next => ∃ node, next.2 = before ++ [node] ∧ gen.Shows n node)
            (g.walkTo options (place + 1)))

namespace Session

/-- **Generators agree with the axis that they are given.**  After any calls on a graph, a
generator succeeds on every tensor that has been issued and every axis of it, and agrees with
that axis whatever is called next and in whatever way the graph is resolved. -/
theorem generators_agree (gen : Generator) {id : Nat} {settings : GraphSettings}
    {commands : List Command} {s : Session} {place : Nat} {like : Tensor} {axis : Number} {k : Nat}
    (hgiven : ∀ command ∈ commands, ∀ size ∈ command.given, size.Made)
    (hs : (start id settings).run commands = s) (hlike : s.issued[place]? = some like)
    (haxis : Axis.position gen.operation axis like.rank = .ok k)
    (hrun : Exact fun _ => (start id settings).run commands)
    (hcall : Exact fun _ => s.extend (gen.command place axis)) :
    ∃ s' y, s.extend (gen.command place axis) = .ok s' ∧ s'.issued = s.issued ++ [y] ∧
      ∀ later, (∀ command ∈ later, command.Integral) → (Exact fun _ => s'.run later) →
        gen.Agrees (s'.run later).graph like y k := by
  have hdescribed := described_of_run hgiven hs hrun
  obtain ⟨s', y, source, node, hextend, hissued, hlikeId, hid, hlast⟩ :=
    @extend_generates .unbounded _ s hdescribed gen place like hlike axis k haxis
  refine ⟨s', y, hcall.trans hextend, hissued, fun later hlater hexact => ?_⟩
  have hlater' : s'.run later = @run .unbounded s' later := hexact
  obtain ⟨hwell, hgen⟩ := hlater' ▸ hlast later hlater
  generalize (s'.run later).graph = g at hwell hgen
  constructor
  · intro options resolved hresolve h
    obtain ⟨n, shown, made, hshown, hn, hmade, hshows⟩ :=
      @Graph.Generates.of_resolve .unbounded _ g gen k source node hgen hwell options resolved
        (hresolve.symm.trans h)
    exact ⟨n, shown, made, hlikeId ▸ ResolvedGraph.view_eq_ok hshown, hn,
      hid ▸ ResolvedGraph.view_eq_ok hmade, hshows⟩
  · intro options count env before hcount hhere hnext h
    obtain rfl : count = node.id := Int.ofNat.inj (Number.int.inj (hcount.symm.trans hid))
    obtain ⟨n, shown, hshown, hn, hyields⟩ :=
      @Graph.Generates.walkTo_yields .unbounded _ g gen k source node env before hgen hwell
        options (hhere.symm.trans h)
    refine ⟨n, shown, hlikeId ▸ ResolvedGraph.view_eq_ok hshown, hn, fun hroom => ?_⟩
    have hexact : g.walkTo options (node.id + 1) =
        @Graph.walkTo .unbounded g options (node.id + 1) := hnext
    rw [hexact]
    exact hyields hroom

/-- The rows of a matrix of three columns, without the first one. -/
def laterRows : List Command :=
  [.newTensor "x" [.dynamic "n", .constant 3], .slice 0 [.starting (.number 1)]]

/-- The session after these commands. -/
def laterBuilt : Session where
  graph :=
    { id := 0
      settings := ⟨"graph", true, none⟩
      nodes := [
        ⟨0, .input, [], [.dynamic "n", .constant 3], .contiguous [.symbol "n", .literal 3], [],
          some "x", none⟩,
        ⟨1, .slice, [0], [.anonymous, .constant 3],
          ⟨[⟨.literal 1, .symbol "n", .symbol "n", false⟩, .whole (.literal 3) false], [0, 1]⟩,
          [("ranges", .list [.text "[1, n)", .text "[0, 3)"])], none, none⟩]
      obligations := []
      journal := ["%0 = input [n, 3]", "%1 = slice [-, 3]"] }
  issued := [⟨0, [.dynamic "n", .constant 3], 0⟩, ⟨1, [.anonymous, .constant 3], 0⟩]

/-- The mask of the rows that are left. -/
def laterMask : Node where
  id := 2
  kind := .function
  inputs := [1]
  shape := [.anonymous, .anonymous]
  view := .contiguous (List.replicate 2 (.binary .add (.symbol "n") (.literal (.int (-1)))))
  attributes := []
  name := some "AttentionMask"
  payload := some (.causalMask 0)

/-- The session with the mask. -/
def laterMasked : Session where
  graph :=
    { laterBuilt.graph with
      nodes := laterBuilt.graph.nodes ++ [laterMask]
      journal := laterBuilt.graph.journal ++ ["%2 = function [-, -]"] }
  issued := laterBuilt.issued ++ [⟨2, [.anonymous, .anonymous], 0⟩]

/-- Three rows, the two that are left, and their mask. -/
def maskedRows : ResolvedGraph where
  bindings := [("n", 3)]
  nodes := [
    ⟨0, .input, [3, 3], [⟨0, 3, false⟩, ⟨0, 3, false⟩], [0, 1], none⟩,
    ⟨1, .slice, [2, 3], [⟨1, 3, false⟩, ⟨0, 3, false⟩], [0, 1], none⟩,
    ⟨2, .function, [2, 2], [⟨0, 2, false⟩, ⟨0, 2, false⟩], [0, 1],
      some [0, Number.negInfinity, 0, 0]⟩]

/-- The mask of the rows that are left, whose axis is given from the end. -/
theorem generators_agree_maskedRows :
    let s := (start 0 ⟨"graph", true, none⟩).run laterRows
    ∃ s' y, s.extend (.causalMask 1 (.int (-2))) = .ok s' ∧ s'.issued = s.issued ++ [y] ∧
      (s'.graph.resolve ⟨[("n", 3)], []⟩).outcome = .ok maskedRows ∧ ∃ n source node,
        maskedRows.view 1 = .ok source ∧ source.shape[0]? = some (.ofNat n) ∧
          maskedRows.view y.id = .ok node ∧ Generator.causalMask.Shows n node := by
  have hrun : (start 0 ⟨"graph", true, none⟩).run laterRows = laterBuilt := rfl
  have hextend : laterBuilt.extend (.causalMask 1 (.int (-2))) = .ok laterMasked := rfl
  have hresolved : (laterMasked.graph.resolve ⟨[("n", 3)], []⟩).outcome = .ok maskedRows := rfl
  rw [hrun]
  intro s
  have hgiven : ∀ command ∈ laterRows, ∀ size ∈ command.given, size.Made := by
    simp [laterRows, Command.given, RangeSpec.given, RangeSpec.bounds, Bound.given, Quantity.given]
  have haxis : Axis.position Generator.causalMask.operation (.int (-2)) 2 = .ok 0 := rfl
  have hlike : laterBuilt.issued[1]? = some ⟨1, [.anonymous, .constant 3], 0⟩ := rfl
  have hcall : Exact fun _ => laterBuilt.extend (.causalMask 1 (.int (-2))) :=
    .of_eq (.ok laterMasked) hextend rfl
  obtain ⟨s', y, hextend', hissued, hagrees⟩ :=
    generators_agree .causalMask hgiven hrun hlike haxis (.of_eq laterBuilt hrun rfl) hcall
  obtain rfl := Except.ok.inj (hextend'.symm.trans hextend)
  have hlater := hagrees [] (List.forall_mem_nil _) (.of_eq laterMasked rfl rfl)
  exact ⟨laterMasked, y, hextend, hissued, hresolved,
    hlater.resolved _ _ (.of_eq (.ok maskedRows) hresolved rfl) hresolved⟩

/-- A slice that ends nowhere is resolved, to an axis of undefined length.  Positions along that
axis cannot be made, so the walk fails at the node that is to hold them. -/
theorem generators_agree_fails :
    let s := (start 0 ⟨"graph", true, none⟩).run [.newTensor "x" [.constant 4],
      .slice 0 [.ending (.size (.literal (.undefined .fresh))) false]]
    ∃ s' before, s.extend (.arange 1 0) = .ok s' ∧
      s'.graph.walkTo ⟨[], []⟩ 2 = .ok (⟨[]⟩, before) ∧
      s'.graph.walkTo ⟨[], []⟩ 3 =
        .error (.threw "ARange" 2 (.size (.notInteger (.undefined .fresh)))) ∧
      (s'.graph.resolve ⟨[], []⟩).outcome =
        .error (.threw "ARange" 2 (.size (.notInteger (.undefined .fresh)))) :=
  ⟨_, _, rfl, rfl, rfl, rfl⟩

end Session

end ShapeGraph
