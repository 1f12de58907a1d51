import ShapeGraph.Proofs.Resolution.Ahead

/-!
# Seeding a resolution with what it finds

A resolution can be run again with some of the bindings that it has ended with.  It
starts ahead of the first run and stays ahead of it to the end, where both have bound
the same.  So it comes to the same nodes and the same bindings, if in another order.

* `Graph.Meets` — the sizes of which this supposes that none divides by zero;
* `ResolvedGraph.Agrees` — the same nodes and the same bindings;
* `Graph.resolve_seeded` — the seeded resolution comes to the same, in
  double-precision arithmetic where that is exact.
-/

namespace ShapeGraph

open ShapeGraph.Numeric (Arithmetic Exact Number Unbounded)

/-- The sizes that a resolution meets: those of the views of the nodes and of the recorded
equalities, and those of the views that host computations return. -/
inductive Graph.Meets (g : Graph) (resolved : List ResolvedNode) : Size → Prop
  | shown {node : Node} {s : Size} (hnode : node ∈ g.nodes)
      (hs : s ∈ node.view.axes.flatMap AxisRange.sizes) : Meets g resolved s
  | recorded {o : Obligation} {s : Size} (ho : o ∈ g.obligations)
      (hs : s = o.equality.left ∨ s = o.equality.right) : Meets g resolved s
  | returned {node : Node} {view : View} {s : Size} (hnode : node ∈ g.nodes)
      (hkind : node.kind = .function) (hview : node.Returns resolved view)
      (hs : s ∈ view.axes.flatMap AxisRange.sizes) : Meets g resolved s

/-- A view is regular if all the sizes in it are. -/
theorem View.regular_of_sizes [Arithmetic] {bindings : Bindings} {v : View}
    (h : ∀ s ∈ v.axes.flatMap AxisRange.sizes, s.Regular bindings) : v.Regular bindings := by
  intro range hr
  have hsize : ∀ s ∈ range.sizes, s.Regular bindings := fun s hs =>
    h s (List.mem_flatMap.mpr ⟨range, hr, hs⟩)
  exact ⟨hsize range.start (by simp [AxisRange.sizes]),
    hsize range.stop (by simp [AxisRange.sizes])⟩

/-- Every view that a resolution resolves is regular under its final bindings, and every
recorded equality is fulfilled. -/
structure Graph.Regular [Arithmetic] (g : Graph) (resolved : List ResolvedNode)
    (bindings : Bindings) : Prop where
  views : ∀ node ∈ g.nodes, node.view.Regular bindings
  returned : ∀ node ∈ g.nodes, node.kind = .function →
    ∀ view, node.Returns resolved view → view.Regular bindings
  equalities : ∀ o ∈ g.obligations, o.equality.Fulfilled bindings

/-- A resolution that comes to the same as another one: the same nodes, and the same
bindings in whatever order. -/
structure ResolvedGraph.Agrees (again resolved : ResolvedGraph) : Prop where
  nodes : again.nodes = resolved.nodes
  bindings : ∀ name, again.bindings.get? name = resolved.bindings.get? name

section

variable [Arithmetic] [Unbounded] {g : Graph} {options : ResolveOptions}
  {resolved : ResolvedGraph} {nodes : List ResolvedNode}

/-- What is met is regular under the final bindings, and the equalities that have been
checked are fulfilled. -/
theorem Graph.regular_of_check {bindings : Bindings} (hb : bindings.Integral)
    (hregular : ∀ s, g.Meets nodes s → s.Regular bindings)
    (hchecked : (checkObligations bindings g.obligations).outcome = .ok ()) :
    g.Regular nodes bindings where
  views node hnode := View.regular_of_sizes fun s hs => hregular s (.shown hnode hs)
  returned node hnode hkind view hview :=
    View.regular_of_sizes fun s hs => hregular s (.returned hnode hkind hview hs)
  equalities o ho := by
    have hleft := hregular o.equality.left (.recorded ho (.inl rfl))
    have hright := hregular o.equality.right (.recorded ho (.inr rfl))
    obtain ⟨l, r, hl, hr, hsame⟩ := checkObligations_ok hchecked o ho
    have hρ := hb.agrees_completed fun _ => 0
    obtain rfl := Size.evaluate_value hleft.integral hρ hl
    obtain rfl := Size.evaluate_value hright.integral hρ hr
    rw [Number.same_int, decide_eq_true_iff] at hsame
    exact ⟨hleft, hright, _, hl, hsame ▸ hr⟩

/-- A seeded resolution comes to the same, and what a resolution shows of every node is
what the final bindings make of its view. -/
theorem Graph.seeded_of_unbounded (hcheck : g.settings.checkObligations = true)
    (h : (g.resolve options).outcome = .ok resolved)
    (hregular : ∀ s, g.Meets resolved.nodes s → s.Regular resolved.bindings)
    {found seeded : Bindings}
    (hfound : ∀ entry ∈ found, resolved.bindings.get? entry.1 = some entry.2)
    (hseeded : ∀ entry, entry ∈ seeded ↔ entry ∈ options.bindings ∨ entry ∈ found) :
    (∃ again, (g.resolve { options with bindings := seeded }).outcome = .ok again ∧
      again.Agrees resolved) ∧
    List.Forall₂ (fun node shown => ∃ view, node.view.resolve resolved.bindings = .ok view ∧
      shown.Shows view) g.nodes resolved.nodes := by
  obtain ⟨initial, final, hinitial, hwalk, hbindings, hchecked⟩ := resolve_parts h
  obtain ⟨hgrows, walked, hwhole, hwalked⟩ := walk_ok hwalk
  have hsound : final.Sound := hgrows.sound (Environment.ofBindings_sound hinitial)
  rw [hbindings] at hregular hfound hchecked ⊢
  have hg := regular_of_check hsound.integral hregular (hchecked hcheck)
  refine ⟨?_, ?_⟩
  · -- the second run starts ahead of the first one, and stays ahead
    have hallowed : ∀ entry ∈ seeded, final.bindings.get? entry.1 = some entry.2 := by
      intro entry hentry
      rcases (hseeded entry).mp hentry with hgiven | hmem
      · exact hgrows.below _ _ (Environment.get?_of_bindAll hinitial entry hgiven)
      · exact hfound entry hmem
    obtain ⟨ahead, hahead, hstart⟩ := Environment.ofBindings_between hsound hinitial
      (fun entry hentry => (hseeded entry).mpr (.inl hentry)) hallowed
    obtain ⟨last, hlast, hend⟩ :=
      walk_between hstart hg.equalities hg.views hg.returned hwalk (Bindings.Below.refl _)
    refine ⟨⟨last.bindings, resolved.nodes⟩, ?_, rfl, fun name => ?_⟩
    · simp only [resolve, Run.outcome_bind_eq_ok, Run.outcome_liftM]
      refine ⟨ahead, hahead, (last, resolved.nodes), hlast, (), logBindings_outcome _, ?_⟩
      rw [if_pos hcheck, Run.outcome_bind_eq_ok]
      exact ⟨(), checkObligations_fulfilled hend hg.equalities, rfl⟩
    · rw [hbindings]
      exact hend.above.antisymm hend.below name
  · rw [show resolved.nodes = walked from hwhole]
    refine ((List.forall₂_and_left _ _).mpr ⟨hg.views, hwalked⟩).imp ?_
    rintro node shown ⟨hview, _, env, view, henv, hresolved, hshows⟩
    exact ⟨view, View.resolve_later (.at_end henv.below hsound) hview hresolved, hshows⟩

end

namespace Graph

variable {g : Graph} {options : ResolveOptions} {resolved : ResolvedGraph}

/-- **Seeding a resolution with what it has found changes nothing.**  If a resolution with
checked equalities succeeds then it succeeds as well with some of its final bindings given
from the start, and comes to the same nodes and the same bindings.  So every node shows
what the final bindings make of its view.  All sizes that are met are made of integers,
no divisor in them comes to zero under the final bindings, and nothing is rounded. -/
theorem resolve_seeded {found seeded : Bindings} (hcheck : g.settings.checkObligations = true)
    (hintegral : ∀ s, g.Meets resolved.nodes s → s.Integral)
    (hdivisors : ∀ s, g.Meets resolved.nodes s → ∀ d ∈ s.divisors,
      (Exact fun _ => d.evaluate resolved.bindings) ∧ d.evaluate resolved.bindings ≠ .ok 0)
    (hfirst : Exact fun _ => (g.resolve options).outcome)
    (hsecond : Exact fun _ => (g.resolve { options with bindings := seeded }).outcome)
    (hviews : ∀ node ∈ g.nodes, Exact fun _ => node.view.resolve resolved.bindings)
    (hfound : ∀ entry ∈ found, resolved.bindings.get? entry.1 = some entry.2)
    (hseeded : ∀ entry, entry ∈ seeded ↔ entry ∈ options.bindings ∨ entry ∈ found)
    (h : (g.resolve options).outcome = .ok resolved) :
    (∃ again, (g.resolve { options with bindings := seeded }).outcome = .ok again ∧
      again.Agrees resolved) ∧
    List.Forall₂ (fun node shown => ∃ view, node.view.resolve resolved.bindings = .ok view ∧
      shown.Shows view) g.nodes resolved.nodes := by
  have hregular : ∀ s, g.Meets resolved.nodes s →
      @Size.Regular Arithmetic.unbounded resolved.bindings s := by
    intro s hs
    refine @Size.Regular.mk Arithmetic.unbounded _ _ (hintegral s hs) fun d hd hzero => ?_
    obtain ⟨hexact, hne⟩ := hdivisors s hs d hd
    exact hne (hexact.trans hzero)
  obtain ⟨⟨again, hagain, hagrees⟩, hshown⟩ :=
    @seeded_of_unbounded Arithmetic.unbounded _ g options resolved hcheck (hfirst.symm.trans h)
      hregular found seeded hfound hseeded
  refine ⟨⟨again, hsecond.trans hagain, hagrees⟩, ?_⟩
  refine ((List.forall₂_and_left _ _).mpr ⟨hviews, hshown⟩).imp ?_
  rintro node shown ⟨hexact, view, hview, hshows⟩
  exact ⟨view, hexact.trans hview, hshows⟩

/-- An input with a count of pairs of its rows: the number of rows is doubled by an
equality, and halved by a host computation. -/
def pairing : Graph where
  id := 0
  settings := ⟨"graph", true, none⟩
  nodes := [
    ⟨0, .input, [], [.dynamic "n", .constant 4], .contiguous [.symbol "n", .literal 4], [],
      some "x", none⟩,
    ⟨1, .function, [0], [.dynamic "k"], .contiguous [.symbol "k"], [], some "pairs",
      some (.host fun _ id =>
        .ok ⟨none, .ofNat id, .contiguous [.binary .div (.symbol "m") (.literal 2)]⟩)⟩]
  obligations := [⟨0, "realize", "axis 0", .binary .mul (.symbol "n") (.literal 2), .symbol "m"⟩]
  journal := []

/-- Its resolution with an input of three rows. -/
def pairingSizes : ResolvedGraph where
  bindings := [("n", 3), ("m", 6), ("k", 3)]
  nodes := [
    ⟨0, .input, [3, 4], [⟨0, 3, false⟩, ⟨0, 4, false⟩], [0, 1], none⟩,
    ⟨1, .function, [3], [⟨0, 3, false⟩], [0], none⟩]

/-- The sizes that its resolution meets. -/
def pairingTerms : List Size :=
  [.zero, .symbol "n", .literal 4, .symbol "k", .binary .mul (.symbol "n") (.literal 2),
    .symbol "m", .binary .div (.symbol "m") (.literal 2)]

/-- The sizes that are met are those of the input and the pairs of its rows, and what these are
compared with. -/
theorem pairing_meets {s : Size} (h : pairing.Meets pairingSizes.nodes s) : s ∈ pairingTerms := by
  have hlisted : ∀ {axes : List AxisRange}, axes.flatMap AxisRange.sizes ⊆ pairingTerms →
      s ∈ axes.flatMap AxisRange.sizes → s ∈ pairingTerms := fun hsub hs => hsub hs
  cases h with
  | shown hnode hs =>
      rcases List.mem_pair.mp hnode with rfl | rfl
      · exact hlisted (by decide) hs
      · exact hlisted (by decide) hs
  | recorded ho hs =>
      obtain rfl := List.mem_singleton.mp ho
      rcases hs with rfl | rfl
      · decide
      · decide
  | returned hnode hkind hview hs =>
      obtain ⟨run, inputs, result, hpayload, _, hrun, rfl⟩ := hview
      rcases List.mem_pair.mp hnode with rfl | rfl
      · cases hkind
      · cases hpayload
        cases hrun
        exact hlisted (by decide) hs

/-- Fed with three rows of four, the pairing is resolved alike whether or not the number of rows
is given beforehand. -/
theorem resolve_seeded_pairing :
    (pairing.resolve ⟨[], [("x", ⟨[3, 4], none⟩)]⟩).outcome = .ok pairingSizes ∧
      (∃ again, (pairing.resolve ⟨[("k", 3)], [("x", ⟨[3, 4], none⟩)]⟩).outcome = .ok again ∧
        again.Agrees pairingSizes) ∧
      List.Forall₂ (fun node shown => ∃ view,
        node.view.resolve pairingSizes.bindings = .ok view ∧ shown.Shows view)
          pairing.nodes pairingSizes.nodes := by
  have hresolved : (pairing.resolve ⟨[], [("x", ⟨[3, 4], none⟩)]⟩).outcome =
      .ok pairingSizes := rfl
  have hintegral : ∀ s ∈ pairingTerms, s.Integral := by
    simp only [pairingTerms, List.forall_mem_cons]
    exact ⟨⟨0, rfl⟩, trivial, ⟨4, rfl⟩, trivial, ⟨trivial, 2, rfl⟩, trivial, ⟨trivial, 2, rfl⟩,
      by simp⟩
  have hdivisors : ∀ s ∈ pairingTerms, ∀ d ∈ s.divisors, d = .literal 2 := by
    simp [pairingTerms, Size.divisors, Size.zero]
  have htwo : ∀ d : Size, d = .literal 2 →
      (Exact fun _ => d.evaluate pairingSizes.bindings) ∧
        d.evaluate pairingSizes.bindings ≠ .ok 0 := by
    rintro d rfl
    refine ⟨.of_eq (.ok 2) rfl rfl, fun hzero => ?_⟩
    have hsame := Except.ok.inj (Size.evaluate_eq_ok.mp hzero)
    simp only [Size.literal.injEq] at hsame
    exact absurd hsame (by decide)
  have hviews : ∀ node ∈ pairing.nodes,
      Exact fun _ => node.view.resolve pairingSizes.bindings := by
    intro node hnode
    rcases List.mem_pair.mp hnode with rfl | rfl
    · exact .of_eq (.ok ⟨[3, 4], [⟨0, 3, false⟩, ⟨0, 4, false⟩], [0, 1]⟩) rfl rfl
    · exact .of_eq (.ok ⟨[3], [⟨0, 3, false⟩], [0]⟩) rfl rfl
  have hfound : ∀ entry ∈ [("k", (3 : Number))],
      pairingSizes.bindings.get? entry.1 = some entry.2 :=
    List.forall_mem_singleton.mpr rfl
  refine ⟨hresolved, resolve_seeded rfl (fun s hs => hintegral s (pairing_meets hs))
    (fun s hs d hd => htwo d (hdivisors s (pairing_meets hs) d hd))
    (.of_eq _ hresolved rfl)
    (.of_eq (.ok { pairingSizes with bindings := [("k", 3), ("n", 3), ("m", 6)] }) rfl rfl)
    hviews hfound ?_ hresolved⟩
  simp

end Graph

end ShapeGraph
