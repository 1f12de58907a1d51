import ShapeGraph.Proofs.Graph.Invariant
import ShapeGraph.Proofs.Graph.Workbench
import ShapeGraph.Proofs.Resolution.Turn

/-!
# Data fills its view

The data of a node is counted against the sizes that are fed or returned with it, but what
is shown of the node is its own view.  The two meet where the lengths of the view are unified
with those sizes: a size that has been unified with a number has that number for its value,
whatever is bound later.

* `Environment.unify_value` — what a size is unified with is its value;
* `bindAxes_values`, `bindResults_values` — so the lengths of a view have the values that are
  fed or returned;
* `Graph.Honours` — a resolved node has the sizes it is given, and data that fills them;
* `Session.data_fills` — every resolved node does.
-/

namespace ShapeGraph

open ShapeGraph.Numeric (Arithmetic Exact Number Unbounded)

/-! ## Numbers -/

namespace Numeric.Number

variable [Arithmetic] [Unbounded]

/-- Numbers that are integers multiply to the product of the integers. -/
theorem product_int (ns : List Int) : product (ns.map int) = int ns.prod := by
  have hfold : ∀ n, (ns.map int).foldl mul (int n) = int (n * ns.prod) := by
    induction ns with
    | nil => simp
    | cons m rest ih =>
        intro n
        rw [List.map_cons, List.foldl_cons, mul_int_int, ih, List.prod_cons, mul_assoc]
  exact (hfold 1).trans (by rw [one_mul])

/-- A count that equals the product of some sizes. -/
theorem count_eq_prod {count : Nat} {sizes : List Int}
    (h : (ofNat count).same (product (sizes.map int)) = true) : (count : Int) = sizes.prod := by
  rw [product_int] at h
  exact (int.inj (same_int_iff.mp h)).symm

end Numeric.Number

section

variable [Arithmetic] [Unbounded] {env env' final : Environment} {ρ : Valuation}

/-! ## What is unified -/

/-- **What a size is unified with is its value**, whatever is bound later. -/
theorem Environment.unify_value {size : Size} {value : Number} {relation : String}
    {source : Source} (hsize : size.Integral) (hρ : env'.bindings.Agrees ρ)
    (h : env.unify size value relation source = .ok env') : value = .int (size.value ρ) := by
  have hbefore := (unify_grows h).agrees hρ
  obtain ⟨pending, hpending, h⟩ := bind_eq_ok.mp h
  obtain ⟨hintegral, hvalue⟩ := Size.substitute_value hsize hbefore hpending
  rw [← hvalue]
  cases pending with
  | literal known =>
      obtain ⟨n, rfl⟩ := hintegral
      exact Number.same_int_iff.mp (ite_ok_eq_ok.mp h).1
  | symbol name => exact hρ name value (bind_ok h).1
  | binary op l r => cases h

/-- The lengths of an input have the values that are fed. -/
theorem bindAxes_values {name : String} {axis : Nat} {dims : Shape} {values : List Number}
    {lengths : List Size} (hlengths : ∀ s ∈ lengths, s.Integral)
    (hvalues : values.length = dims.length) (hcount : lengths.length = dims.length)
    (hρ : env'.bindings.Agrees ρ)
    (h : bindAxes name axis dims values lengths env = .ok env') :
    values = lengths.map fun s => .int (s.value ρ) := by
  induction dims generalizing axis values lengths env with
  | nil =>
      obtain rfl := List.length_eq_zero_iff.mp hvalues
      obtain rfl := List.length_eq_zero_iff.mp hcount
      rfl
  | cons dim dims ih =>
      obtain ⟨value, values, rfl⟩ := List.exists_cons_of_length_eq_add_one hvalues
      obtain ⟨length, lengths, rfl⟩ := List.exists_cons_of_length_eq_add_one hcount
      obtain ⟨hlength, hothers⟩ := List.forall_mem_cons.mp hlengths
      simp only [bindAxes, bind_eq_ok] at h
      obtain ⟨_, _, middle, hmiddle, hrest⟩ := h
      have hagrees := (bindAxes_grows hrest).agrees hρ
      rw [List.map_cons, Environment.unify_value hlength hagrees hmiddle,
        ih hothers (Nat.succ.inj hvalues) (Nat.succ.inj hcount) hrest]

/-- The lengths of a function have the values that are returned. -/
theorem bindResults_values {name : String} {axis : Nat} {values : List Number}
    {lengths : List Size} (hlengths : ∀ s ∈ lengths, s.Integral)
    (hcount : lengths.length = values.length) (hρ : env'.bindings.Agrees ρ)
    (h : bindResults name axis values lengths env = .ok env') :
    values = lengths.map fun s => .int (s.value ρ) := by
  induction values generalizing axis lengths env with
  | nil =>
      obtain rfl := List.length_eq_zero_iff.mp hcount
      rfl
  | cons value values ih =>
      obtain ⟨length, lengths, rfl⟩ := List.exists_cons_of_length_eq_add_one hcount
      obtain ⟨hlength, hothers⟩ := List.forall_mem_cons.mp hlengths
      simp only [bindResults, bind_eq_ok] at h
      obtain ⟨middle, hmiddle, hrest⟩ := h
      have hagrees := (bindResults_grows hrest).agrees hρ
      rw [List.map_cons, Environment.unify_value hlength hagrees hmiddle,
        ih hothers (Nat.succ.inj hcount) hrest]

/-! ## Nodes -/

omit [Arithmetic] [Unbounded] in
/-- The lengths of a view come to its extent, and there is one for each axis. -/
theorem View.HasLengths.numbers {v : View} {lengths : List Size} (h : v.HasLengths lengths)
    (hv : v.WellFormed) (ρ : Valuation) :
    (lengths.map fun s => Number.int (s.value ρ)) = (v.extent ρ).map .int ∧
      lengths.length = v.rank := by
  rw [← h.values ρ, List.map_map]
  refine ⟨rfl, ?_⟩
  rw [← hv.length_extent ρ, ← h.values ρ, List.length_map]

section

variable {node : Node} {data : Option (List Number)} (hv : node.view.WellFormed)
  (hi : node.view.Integral) (hrank : node.view.rank = node.shape.length)
  (hρ : env'.bindings.Agrees ρ)

include hv hi hrank hρ

/-- An input is fed with the extent of its view. -/
theorem bindInput_extent {feed : Feed} (h : bindInput node feed env = .ok (env', data)) :
    feed.shape = (node.view.extent ρ).map .int ∧ data = feed.data ∧
      ∀ held, data = some held → (held.length : Int) = (node.view.extent ρ).prod := by
  obtain ⟨hcount, ⟨lengths, hlengths, haxes⟩, hdata, hfills⟩ := bindInput_ok h
  have hmeant := View.lengths_ok hv hi hlengths
  obtain ⟨hnumbers, hlength⟩ := hmeant.numbers hv ρ
  have hshape : feed.shape = (node.view.extent ρ).map .int :=
    (bindAxes_values hmeant.integral hcount (hlength.trans hrank) hρ haxes).trans hnumbers
  refine ⟨hshape, hdata, fun held hheld => ?_⟩
  have hsame := hfills held hheld
  rw [hshape] at hsame
  exact Number.count_eq_prod hsame

/-- A computation returns the extent of the view of its node. -/
theorem invokeFunction_extent {resolved : List ResolvedNode}
    (h : (invokeFunction node resolved env).outcome = .ok (env', data)) :
    ∃ payload inputs result, node.payload = some payload ∧
      functionInputs (node.name.getD "function") node resolved = .ok inputs ∧
      runPayload (node.name.getD "function") node payload inputs env =
        .ok (result, (node.view.extent ρ).map .int) ∧
      data = result.data ∧
      ∀ held, data = some held → (held.length : Int) = (node.view.extent ρ).prod := by
  obtain ⟨payload, inputs, result, view, lengths, hpayload, hinputs, hrun, hview, hchecked,
    hlengths, hresults, hdata⟩ := invokeFunction_ok h
  obtain ⟨hcount, hfills⟩ := checkResult_ok hchecked
  have hmeant := View.lengths_ok hv hi hlengths
  obtain ⟨hnumbers, hlength⟩ := hmeant.numbers hv ρ
  have hshape : view.shape = (node.view.extent ρ).map .int :=
    (bindResults_values hmeant.integral (hlength.trans (hrank.trans hcount.symm)) hρ
      hresults).trans hnumbers
  refine ⟨payload, inputs, result, hpayload, hinputs,
    runPayload_eq_ok.mpr ⟨hrun, view, hview, hshape⟩, hdata, fun held hheld => ?_⟩
  have hsame := hfills held (hdata ▸ hheld)
  rw [hshape] at hsame
  exact Number.count_eq_prod hsame

omit [Arithmetic] [Unbounded] hi hρ in
/-- The data of a constant is one number, and so is its extent. -/
theorem constantData_extent (hscalar : node.shape = []) {held : List Number}
    (h : constantData node = some held) : (held.length : Int) = (node.view.extent ρ).prod := by
  have hextent : node.view.extent ρ = [] := by
    rw [← List.length_eq_zero_iff, hv.length_extent, hrank, hscalar]
    rfl
  unfold constantData at h
  split at h
  · obtain rfl := Option.some.inj h
    rw [hextent]
    rfl
  · cases h

/-- What a node contributes by itself goes with the extent of its view. -/
theorem evaluateNode_extent (hscalar : node.kind = .constant → node.shape = [])
    {inputs : Entries Feed} {resolved : List ResolvedNode}
    (h : (evaluateNode inputs node resolved env).outcome = .ok (env', data)) :
    (node.kind = .input → ∀ feed, inputs.get? (node.name.getD "") = some feed →
      feed.shape = (node.view.extent ρ).map .int ∧ data = feed.data) ∧
    ∀ held, data = some held → (held.length : Int) = (node.view.extent ρ).prod := by
  have hsame : ∀ {d : Option (List Number)},
      (pure (env, d) : Run _).outcome = .ok (env', data) → data = d := by
    intro d hd
    exact (Prod.mk.inj (Except.ok.inj hd)).2.symm
  unfold evaluateNode at h
  cases hkind : node.kind with
  | input =>
      simp only [hkind] at h
      cases hfeed : inputs.get? (node.name.getD "") with
      | none =>
          rw [hfeed] at h
          obtain rfl := hsame h
          exact ⟨nofun, nofun⟩
      | some feed =>
          rw [hfeed] at h
          obtain ⟨hshape, hdata, hfills⟩ := bindInput_extent hv hi hrank hρ h
          refine ⟨?_, hfills⟩
          rintro - _ ⟨rfl⟩
          exact ⟨hshape, hdata⟩
  | constant =>
      simp only [hkind] at h
      obtain rfl := hsame h
      exact ⟨nofun, fun held hheld => constantData_extent hv hrank (hscalar hkind) hheld⟩
  | function =>
      simp only [hkind] at h
      obtain ⟨_, _, _, _, _, _, _, hfills⟩ := invokeFunction_extent hv hi hrank hρ h
      exact ⟨nofun, hfills⟩
  | _ =>
      simp only [hkind] at h
      obtain rfl := hsame h
      exact ⟨nofun, nofun⟩

end

end

/-! ## Resolutions -/

section

variable [Arithmetic]

/-- What the computation of a node returns when the resolution comes to it, and the sizes
of the view that it returns. -/
def Graph.invocation (g : Graph) (options : ResolveOptions) (node : Node) (payload : Payload) :
    Except Fault (FunctionResult × List Number) := do
  let initial ← Environment.ofBindings options.bindings
  let (env, resolved) ←
    (walk g.obligations options.inputs (g.nodes.take node.id) [] initial).outcome
  let inputs ← functionInputs (node.name.getD "function") node resolved
  runPayload (node.name.getD "function") node payload inputs env

/-- A resolved node has the sizes that it is fed with or that its computation returns, and
data that fills its sizes. -/
structure Graph.Honours (g : Graph) (options : ResolveOptions) (node : Node)
    (shown : ResolvedNode) : Prop where
  fed : node.kind = .input → ∀ feed, options.inputs.get? (node.name.getD "") = some feed →
    shown.shape = feed.shape ∧ shown.data = feed.data
  computed : node.kind = .function → ∃ payload result sizes, node.payload = some payload ∧
    g.invocation options node payload = .ok (result, sizes) ∧
      shown.shape = sizes ∧ shown.data = result.data
  filled : ∀ data, shown.data = some data →
    ∃ sizes : List Int, shown.shape = sizes.map .int ∧ (data.length : Int) = sizes.prod

variable {g : Graph} {options : ResolveOptions} {resolved : ResolvedGraph}

/-- At its turn a node has the sizes that it is given, and data that fills them. -/
theorem Graph.Keeps.honours [Unbounded] {place : Nat} {node : Node} (hkeeps : g.Keeps place node)
    {initial before after final : Environment} {earlier : List ResolvedNode}
    {shown : ResolvedNode} {ρ : Valuation}
    (hinitial : Environment.ofBindings options.bindings = .ok initial)
    (hbefore : (walk g.obligations options.inputs (g.nodes.take place) [] initial).outcome =
      .ok (before, earlier))
    (hscalar : node.kind = .constant → node.shape = []) (hρ : final.bindings.Agrees ρ)
    (hgrows : after.Grows final)
    (h : (resolveNode g.obligations options.inputs node earlier before).outcome =
      .ok (after, shown)) : g.Honours options node shown := by
  obtain ⟨middle, data, view, hmiddle, hbinds, hview, rfl⟩ := resolveNode_eq_ok.mp h
  have hafter := hgrows.agrees hρ
  have hmiddle' := (bindObligations_grows hbinds).agrees hafter
  obtain ⟨rfl, _⟩ := View.resolve_value hkeeps.wellFormed hkeeps.integral hafter hview
  obtain ⟨hfed, hfilled⟩ := evaluateNode_extent hkeeps.wellFormed hkeeps.integral hkeeps.rank_eq
    hmiddle' hscalar hmiddle
  refine ⟨fun hkind feed hfeed => ?_, fun hkind => ?_, fun held hheld => ?_⟩
  · obtain ⟨hshape, hdata⟩ := hfed hkind feed hfeed
    exact ⟨hshape.symm, hdata⟩
  · have hinvoked : (invokeFunction node earlier before).outcome = .ok (middle, data) := by
      rwa [evaluateNode, hkind] at hmiddle
    obtain ⟨payload, inputs, result, hpayload, hinputs, hrun, hdata, _⟩ :=
      invokeFunction_extent hkeeps.wellFormed hkeeps.integral hkeeps.rank_eq hmiddle' hinvoked
    refine ⟨payload, result, _, hpayload, ?_, rfl, hdata⟩
    simp only [invocation, bind_eq_ok]
    exact ⟨initial, hinitial, (before, earlier), hkeeps.id_eq ▸ hbefore, inputs, hinputs, hrun⟩
  · exact ⟨_, rfl, hfilled held hheld⟩

/-- Every node that a resolution has resolved has the sizes that it is given, and data that
fills them. -/
theorem Graph.honours_of_resolve [Unbounded] (hg : g.WellFormed)
    (hscalar : ∀ node ∈ g.nodes, node.kind = .constant → node.shape = [])
    (h : (g.resolve options).outcome = .ok resolved) :
    List.Forall₂ (g.Honours options) g.nodes resolved.nodes := by
  obtain ⟨initial, final, hinitial, hwalk, _, _⟩ := resolve_parts h
  have hsound : final.Sound := (walk_ok hwalk).1.sound (Environment.ofBindings_sound hinitial)
  obtain ⟨_, walked, hwalked, hresolves⟩ := walk_ok hwalk
  have hlength : g.nodes.length = resolved.nodes.length := by
    rw [hwalked]
    exact hresolves.length_eq
  refine List.forall₂_iff_get.mpr ⟨hlength, fun place hplace hplace' => ?_⟩
  have hnode : g.nodes[place]? = some g.nodes[place] := List.getElem?_eq_getElem hplace
  obtain ⟨before, after, shown, hbefore, hshown, hat, hgrows, _⟩ := walk_at hwalk hnode
  obtain rfl : resolved.nodes[place] = shown :=
    Option.some.inj ((List.getElem?_eq_getElem hplace').symm.trans hat)
  exact (hg.keeps place _ hnode).honours hinitial hbefore (hscalar _ (List.getElem_mem hplace))
    (hsound.integral.agrees_completed fun _ => 0) hgrows hshown

end

namespace Session

variable {id : Nat} {settings : GraphSettings} {commands : List Command} {s : Session}
  {options : ResolveOptions} {resolved : ResolvedGraph}

/-- **Data fills its view.**  After any commands, failing ones included, and a successful
resolution, an input that was fed has exactly the sizes of its feed, a function node exactly
those of the view that its computation has returned, and the data of a node, wherever it is
from, has as many items as the sizes of the node ask for.  Nothing is rounded, neither in the
resolution nor in what the computations are given. -/
theorem data_fills (hcommands : ∀ command ∈ commands, command.Integral)
    (hbuild : Exact fun _ => (start id settings).run commands)
    (hs : (start id settings).run commands = s)
    (hresolve : Exact fun _ => (s.graph.resolve options).outcome)
    (hinvocations : ∀ node ∈ s.graph.nodes, ∀ payload, node.payload = some payload →
      Exact fun _ => s.graph.invocation options node payload)
    (h : (s.graph.resolve options).outcome = .ok resolved) :
    List.Forall₂ (s.graph.Honours options) s.graph.nodes resolved.nodes := by
  have hbuilt : @run Arithmetic.unbounded (start id settings) commands = s := hbuild.symm.trans hs
  have hwell := (@run_wellFormed Arithmetic.unbounded _ _ _
    (start_wellFormed id settings) hcommands).1
  rw [hbuilt] at hwell
  have hnamed : s.graph.NamedBut [] := hs ▸ run_named (start_named id settings) commands
  have hhonours := @Graph.honours_of_resolve Arithmetic.unbounded _ _ _ _ hwell.graph
    (fun node hnode => (hnamed.named node hnode List.not_mem_nil).scalar) (hresolve.symm.trans h)
  refine ((List.forall₂_and_left _ _).mpr ⟨fun _ hnode => hnode, hhonours⟩).imp ?_
  rintro node shown ⟨hnode, hfed, hcomputed, hfilled⟩
  refine ⟨hfed, fun hkind => ?_, hfilled⟩
  obtain ⟨payload, result, sizes, hpayload, hinvoked, hshown⟩ := hcomputed hkind
  have hexact : s.graph.invocation options node payload =
      @Graph.invocation Arithmetic.unbounded s.graph options node payload :=
    hinvocations node hnode payload hpayload
  exact ⟨payload, result, sizes, hpayload, hexact.trans hinvoked, hshown⟩

/-- An input, a constant and the positions along an axis of the input. -/
def counting : List Command :=
  [.newTensor "x" [.dynamic "n", .constant 2], .constant 7, .arange 0 0]

/-- The session after these commands: the positions declare the length of the axis. -/
def counted : Session where
  graph :=
    { id := 0
      settings := ⟨"graph", true, none⟩
      nodes := [
        ⟨0, .input, [], [.dynamic "n", .constant 2], .contiguous [.symbol "n", .literal 2], [],
          some "x", none⟩,
        ⟨1, .constant, [], [], .contiguous [], [("value", .number 7)], none, none⟩,
        ⟨2, .function, [0], [.dynamic "n"], .contiguous [.symbol "n"], [], some "ARange",
          some (.arange 0)⟩]
      obligations := []
      journal := ["%0 = input [n, 2]", "%1 = constant []", "%2 = function [n]"] }
  issued := [⟨0, [.dynamic "n", .constant 2], 0⟩, ⟨1, [], 0⟩, ⟨2, [.dynamic "n"], 0⟩]

/-- The input is fed with three rows. -/
def fedRows : ResolveOptions :=
  ⟨[], [("x", ⟨[3, 2], some [1, 2, 3, 4, 5, 6]⟩)]⟩

/-- Its resolution, all of whose nodes carry data. -/
def countedSizes : ResolvedGraph where
  bindings := [("n", 3)]
  nodes := [
    ⟨0, .input, [3, 2], [⟨0, 3, false⟩, ⟨0, 2, false⟩], [0, 1], some [1, 2, 3, 4, 5, 6]⟩,
    ⟨1, .constant, [], [], [], some [7]⟩,
    ⟨2, .function, [3], [⟨0, 3, false⟩], [0], some [0, 1, 2]⟩]

/-- The input, the constant and the positions are resolved to data that fills them. -/
theorem data_fills_counted :
    (start 0 ⟨"graph", true, none⟩).run counting = counted ∧
      (counted.graph.resolve fedRows).outcome = .ok countedSizes ∧
      List.Forall₂ (counted.graph.Honours fedRows) counted.graph.nodes countedSizes.nodes := by
  have hbuilt : (start 0 ⟨"graph", true, none⟩).run counting = counted := rfl
  have hresolved : (counted.graph.resolve fedRows).outcome = .ok countedSizes := rfl
  refine ⟨hbuilt, hresolved, data_fills (by simp [counting, Command.Integral])
    (.of_eq counted rfl rfl) hbuilt (.of_eq _ hresolved rfl) ?_ hresolved⟩
  simp only [counted, List.forall_mem_cons]
  refine ⟨nofun, nofun, ?_, List.forall_mem_nil _⟩
  rintro _ ⟨rfl⟩
  exact .of_eq (.ok (⟨some [0, 1, 2], 2, .contiguous [.literal 3]⟩, [3])) rfl rfl

end Session

end ShapeGraph
