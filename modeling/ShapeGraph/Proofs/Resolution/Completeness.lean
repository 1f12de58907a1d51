import ShapeGraph.Proofs.Graph.Trace
import ShapeGraph.Proofs.Resolution.Turn

/-!
# What equalities bind in the end

An equality with one side known binds the other side if that is a bare symbol.  Equalities
between operands, and between a length and an axis that it is expanded to, are recorded on
a later node than those that their lengths come from, and a declared size is known once its
function has run; so at the turn of such an equality a side is known.  Not so where a
tensor is given another shape: that is recorded on its own node, whose view may have to
wait for another equality of the node.  Each equality is read once, so the order matters.

* `Reading.Served.bound` — an equality that is read when a side is known has its symbols bound;
* `Graph.Turn.settled` — one that relabels no axis is settled on both sides in the end;
* `Session.symbols_bound` — so bare symbols are bound, and the check misses none.
-/

namespace ShapeGraph

open ShapeGraph.Numeric (Arithmetic Exact Number Unbounded)

section

variable [Arithmetic] {env env' final : Environment} {obligations : List Obligation}

/-- A literal is settled, and a bare symbol is once it has been bound. -/
theorem Size.Atomic.settled {s t : Size} (hs : s.Atomic) {lower upper : Bindings}
    (hbelow : lower.Below upper) (h : s.substitute lower = .ok t)
    (hbound : ∀ name, t = .symbol name → upper.Bound name) : s.Settled upper := by
  cases s with
  | literal v => exact settled_literal v
  | binary op l r => exact hs.elim
  | symbol name =>
      rw [substitute_symbol] at h
      cases hheld : lower.get? name with
      | some v => exact settled_symbol.mpr ⟨v, hbelow name v hheld⟩
      | none =>
          rw [hheld] at h
          exact settled_symbol.mpr (hbound name (Except.ok.inj h).symm)

/-- An equality settles its right side if that is atomic and the left side is settled. -/
theorem bindEquality_settles_right {e : Equality} (h : bindEquality env e = .ok env')
    (hleft : e.left.Settled env.bindings) (hright : e.right.Atomic) :
    e.right.Settled env'.bindings := by
  have hbelow := (bindEquality_grows h).below
  simp only [bindEquality, bind_eq_ok] at h
  obtain ⟨left, hl, right, hr, h⟩ := h
  obtain ⟨l, rfl⟩ := hleft left hl
  refine hright.settled hbelow hr ?_
  rintro name rfl
  exact ⟨l, (Environment.bind_ok h).1⟩

/-- An equality settles its left side if that is atomic and the right side is settled. -/
theorem bindEquality_settles_left {e : Equality} (h : bindEquality env e = .ok env')
    (hright : e.right.Settled env.bindings) (hleft : e.left.Atomic) :
    e.left.Settled env'.bindings := by
  have hbelow := (bindEquality_grows h).below
  simp only [bindEquality, bind_eq_ok] at h
  obtain ⟨left, hl, right, hr, h⟩ := h
  obtain ⟨r, rfl⟩ := hright right hr
  refine hleft.settled hbelow hl ?_
  rintro name rfl
  exact ⟨r, (Environment.bind_ok h).1⟩

/-- The check finds no symbol missing if both sides of every equality are settled. -/
theorem checkObligations_ne_unresolved {bindings : Bindings}
    (h : ∀ o ∈ obligations,
      o.equality.left.Settled bindings ∧ o.equality.right.Settled bindings)
    (u : Size) (names : List String) :
    (checkObligations bindings obligations).outcome ≠ .error (.size (.unresolved u names)) := by
  induction obligations with
  | nil => exact fun hnil => nomatch hnil
  | cons o rest ih =>
      obtain ⟨⟨hleft, hright⟩, hrest⟩ := List.forall_mem_cons.mp h
      simp only [checkObligations, Run.outcome_bind, Run.outcome_liftM]
      cases hl : o.equality.left.evaluate bindings with
      | error fault =>
          rintro ⟨rfl⟩
          exact hleft.evaluate_ne_unresolved u names hl
      | ok l =>
          cases hr : o.equality.right.evaluate bindings with
          | error fault =>
              rintro ⟨rfl⟩
              exact hright.evaluate_ne_unresolved u names hr
          | ok r =>
              show (if l.same r then _ else _ : Run Unit).outcome ≠ _
              split
              · exact ih hrest
              · rintro ⟨⟩

end

/-- A side that is a bare symbol is bound. -/
def Equality.Bound (bindings : Bindings) (e : Equality) : Prop :=
  ∀ name, e.left = .symbol name ∨ e.right = .symbol name → bindings.Bound name

/-- An equality has its bare symbols bound if a side is known when it is read. -/
theorem Reading.Served.bound [Arithmetic] {turn after : Environment} {o : Obligation}
    (h : (Reading.of turn o).Served) (hbinds : bindEquality turn o.equality = .ok after) :
    o.equality.Bound after.bindings := by
  have hlater : ∀ name, turn.bindings.Bound name → after.bindings.Bound name := by
    rintro name ⟨value, hvalue⟩
    exact ⟨value, (bindEquality_grows hbinds).below name value hvalue⟩
  have hknown : ∀ {size : Size} {l : Number}, size.substitute turn.bindings = .ok (.literal l) →
      size.Settled turn.bindings :=
    fun hsize _ ht => ⟨_, Except.ok.inj (ht.symm.trans hsize)⟩
  rintro name hname
  rcases h with ⟨l, hleft⟩ | ⟨r, hright⟩
  · have hl := hknown hleft
    rcases hname with hname | hname
    · exact hlater name (Size.settled_symbol.mp (hname ▸ hl))
    · have hr := bindEquality_settles_right hbinds hl (hname ▸ trivial)
      exact Size.settled_symbol.mp (hname ▸ hr)
  · have hr := hknown hright
    rcases hname with hname | hname
    · have hl := bindEquality_settles_left hbinds hr (hname ▸ trivial)
      exact Size.settled_symbol.mp (hname ▸ hl)
    · exact hlater name (Size.settled_symbol.mp (hname ▸ hr))

/-- An equality is settled on its left side, and on its right side too, unless that is a symbol
that has been put on an axis and is not bound. -/
structure Equality.Settles [Arithmetic] (bindings : Bindings) (e : Equality) : Prop where
  left : e.left.Settled bindings
  right : (e.operation = "realize" → ∀ name, e.right = .symbol name → bindings.Bound name) →
    e.right.Settled bindings

/-- An equality that relabels no axis has its bare symbols bound once it is settled. -/
theorem Equality.Settles.bound [Arithmetic] {e : Equality} {bindings : Bindings}
    (h : e.Settles bindings) (hlasting : e.operation ≠ "realize") : e.Bound bindings := by
  rintro name (hname | hname)
  · exact Size.settled_symbol.mp (hname ▸ h.left)
  · have hright := h.right fun hrelabels => absurd hrelabels hlasting
    exact Size.settled_symbol.mp (hname ▸ hright)

/-- The same graph, whose equalities are not checked in the end. -/
def Graph.unchecked (g : Graph) : Graph :=
  { g with settings := { g.settings with checkObligations := false } }

/-- What equalities have bound in the end: the bare symbols of those that relabel no axis, the
size of every axis that is relabelled, and the name that is put on it if one of the two is
known when the equality is read. -/
structure Graph.Binds (g : Graph) (readings : List Reading) (bindings : Bindings) : Prop where
  lasting : ∀ o ∈ g.obligations, o.equality.operation ≠ "realize" → o.equality.Bound bindings
  relabelled : ∀ o ∈ g.obligations, ∀ name, o.equality.left = .symbol name → bindings.Bound name
  read : ∀ o ∈ g.obligations, ∃ reading ∈ readings, reading.obligation = o
  served : ∀ reading ∈ readings, reading.Served →
    reading.obligation.equality.Bound bindings

section

variable [Arithmetic] [Unbounded] {g : Graph} {options : ResolveOptions} {resolved : ResolvedGraph}

/-- After its turn an equality is settled in the end. -/
theorem Graph.Turn.settled {o : Obligation} {place : Nat} {final turn : Environment}
    (h : g.Turn o place final turn) (hg : g.WellFormed) (ho : o ∈ g.obligations)
    (horigin : o.equality.Origin g place)
    (hviews : ∀ node ∈ g.nodes, node.view.Settled final.bindings) (hsound : final.Sound) :
    o.equality.Settles final.bindings := by
  obtain ⟨hearlier, hown, after, hbinds, hends⟩ := h
  obtain ⟨hleft, hright⟩ := hg.obligations o ho
  have hfinal := hsound.integral
  have hafter := hends.below
  have hturn := (bindEquality_grows hbinds).below.trans hafter
  have hintegral := hturn.integral hfinal
  cases horigin with
  | operands left right =>
      have hl := left turn.bindings hintegral hearlier
      have hr := right turn.bindings hintegral hearlier
      exact ⟨hl.later hleft hfinal hturn, fun _ => hr.later hright hfinal hturn⟩
  | expanded left right =>
      have hl := left turn.bindings hintegral hearlier
      have hr := bindEquality_settles_right hbinds hl right
      exact ⟨hl.later hleft hfinal hturn, fun _ => hr.later hright hfinal hafter⟩
  | declared hnode kind left right =>
      have hr := hown _ hnode kind _ right
      have hl := bindEquality_settles_left hbinds hr left
      exact ⟨hl.later hleft hfinal hafter, fun _ => hr.later hright hfinal hturn⟩
  | relabelled hnode operation left right =>
      -- the node itself is resolved only after this turn, so its view helps in the end only
      have hmem := List.mem_of_getElem? hnode
      refine ⟨(hviews _ hmem).axisLengths (hg.view_ok hmem).2 hfinal _ left, fun hbound => ?_⟩
      cases hside : o.equality.right with
      | literal v => exact Size.settled_literal v
      | binary op a b =>
          rw [hside] at right
          exact right.elim
      | symbol name => exact Size.settled_symbol.mpr (hbound operation name hside)

omit [Unbounded] in
/-- Once the walk is over, only the check can fail. -/
theorem Graph.check_of_error {initial final : Environment} {nodes : List ResolvedNode}
    (hinitial : Environment.ofBindings options.bindings = .ok initial)
    (hwalk : (walk g.obligations options.inputs g.nodes [] initial).outcome = .ok (final, nodes))
    {fault : Fault} (h : (g.resolve options).outcome = .error fault) :
    (checkObligations final.bindings g.obligations).outcome = .error fault := by
  rw [resolve_of_walk hinitial hwalk] at h
  by_cases hcheck : g.settings.checkObligations = true
  · rw [if_pos hcheck] at h
    exact (bind_eq_error.mp h).resolve_right (by simp)
  · rw [if_neg hcheck] at h
    cases h

/-- After a walk over all nodes every equality has been read, and is settled. -/
theorem Graph.settled_of_turns (hg : g.WellFormed) (htraced : g.Traced)
    {initial final : Environment} {nodes : List ResolvedNode} (hsound : final.Sound)
    (hwalk : (walk g.obligations options.inputs g.nodes [] initial).outcome = .ok (final, nodes)) :
    ∀ o ∈ g.obligations, o.equality.Settles final.bindings ∧
      ∃ reading ∈ readWalk g.obligations options.inputs g.nodes [] initial,
        reading.obligation = o := by
  intro o ho
  have hviews := settled_of_walk (fun _ hnode => hg.view_ok hnode) hwalk hsound.integral (.refl _)
  obtain ⟨place, hplace⟩ := htraced o ho
  obtain ⟨turn, hturn, hread⟩ := walk_turn hg hsound hwalk ho hplace.node_eq hplace.place_lt
  exact ⟨hturn.settled hg ho hplace.origin hviews hsound, _, hread, rfl⟩

/-- **After a walk over all nodes** equalities have bound all that they can, and where every
bare symbol is bound, none is found missing. -/
theorem Graph.binds_of_unchecked (hg : g.WellFormed) (htraced : g.Traced)
    (h : (g.unchecked.resolve options).outcome = .ok resolved) :
    g.Binds (g.readings options) resolved.bindings ∧
    ((∀ o ∈ g.obligations, o.equality.Bound resolved.bindings) →
      ∀ u names, (g.resolve options).outcome ≠ .error (.size (.unresolved u names))) := by
  obtain ⟨initial, final, hinitial, hwalk, hbindings, _⟩ := resolve_parts h
  have hwalk : (walk g.obligations options.inputs g.nodes [] initial).outcome =
      .ok (final, resolved.nodes) := hwalk
  have hsound : final.Sound := (walk_ok hwalk).1.sound (Environment.ofBindings_sound hinitial)
  have hreadings : g.readings options =
      readWalk g.obligations options.inputs g.nodes [] initial := by
    rw [readings, hinitial]
  have hsettles := settled_of_turns hg htraced hsound hwalk
  rw [hbindings, hreadings]
  refine ⟨⟨?_, ?_, ?_, ?_⟩, ?_⟩
  · intro o ho hlasting
    exact (hsettles o ho).1.bound hlasting
  · intro o ho name hname
    exact Size.settled_symbol.mp (hname ▸ (hsettles o ho).1.left)
  · intro o ho
    exact (hsettles o ho).2
  · intro reading hreading hserved name hname
    obtain ⟨turn, after, hread, hbinds, hgrows⟩ := readWalk_turn hwalk reading hreading
    rw [hread] at hserved
    obtain ⟨value, hvalue⟩ := hserved.bound hbinds name hname
    exact ⟨value, hgrows.below name value hvalue⟩
  · intro hbound u names hfault
    have hall : ∀ o ∈ g.obligations, o.equality.left.Settled final.bindings ∧
        o.equality.right.Settled final.bindings := by
      intro o ho
      obtain ⟨⟨hleft, hright⟩, _⟩ := hsettles o ho
      exact ⟨hleft, hright fun _ name hname => hbound o ho name (.inr hname)⟩
    exact checkObligations_ne_unresolved hall u names (check_of_error hinitial hwalk hfault)

end

namespace Session

variable {id : Nat} {settings : GraphSettings} {commands : List Command} {s : Session}
  {options : ResolveOptions} {resolved : ResolvedGraph}

/-- **What is equated with a known size is bound**, but for one kind of equality.  After any
commands, failing ones included, and a resolution of all nodes, an equality that relabels no
axis has its bare symbols bound.  Where an axis is relabelled, its size is bound, and so is
the name that is put on it if the size, or the name, is known when the equality is read.
If every equality has its bare symbols bound then the check misses none. -/
theorem symbols_bound (hcommands : ∀ command ∈ commands, command.Integral)
    (hbuild : Exact fun _ => (start id settings).run commands)
    (hs : (start id settings).run commands = s)
    (hwalk : Exact fun _ => (s.graph.unchecked.resolve options).outcome)
    (hcheck : Exact fun _ => (s.graph.resolve options).outcome)
    (hreadings : Exact fun _ => s.graph.readings options)
    (h : (s.graph.unchecked.resolve options).outcome = .ok resolved) :
    s.graph.Binds (s.graph.readings options) resolved.bindings ∧
    ((∀ o ∈ s.graph.obligations, o.equality.Bound resolved.bindings) →
      ∀ u names, (s.graph.resolve options).outcome ≠ .error (.size (.unresolved u names))) := by
  have hstart := start_wellFormed id settings
  have hbuilt : @run Arithmetic.unbounded (start id settings) commands = s := hbuild.symm.trans hs
  have hwell := (@run_wellFormed Arithmetic.unbounded _ _ _ hstart hcommands).1
  have htraced := @run_traced Arithmetic.unbounded _ _ _ hstart hcommands
    (@start_traced Arithmetic.unbounded id settings)
  rw [hbuilt] at hwell htraced
  have hread : @Graph.readings Arithmetic.unbounded s.graph options =
      s.graph.readings options := hreadings.symm
  obtain ⟨hbinds, hmissing⟩ := @Graph.binds_of_unchecked Arithmetic.unbounded _ s.graph options
    resolved hwell.graph htraced (hwalk.symm.trans h)
  rw [hread] at hbinds
  refine ⟨hbinds, fun hall u names hfault => ?_⟩
  exact hmissing hall u names (hcheck.symm.trans hfault)

/-- An input of unknown size that is given two names, one after the other. -/
def twoNames : List Command :=
  [.newTensor "x" [.anonymous], .realize 0 [.dynamic "a"], .realize 0 [.dynamic "b"]]

/-- The session after these commands: the size of the input equals both. -/
def renamed : Session where
  graph :=
    { id := 0
      settings := ⟨"graph", true, none⟩
      nodes := [⟨0, .input, [], [.anonymous], .contiguous [.symbol "%0.0"], [], some "x", none⟩]
      obligations := [⟨0, "realize", "axis 0", .symbol "%0.0", .symbol "a"⟩,
        ⟨0, "realize", "axis 0", .symbol "%0.0", .symbol "b"⟩]
      journal := ["%0 = input [-]", "obligation on %0: %0.0 == a (realize, axis 0)",
        "realize %0 as [a]", "obligation on %0: %0.0 == b (realize, axis 0)",
        "realize %0 as [b]"] }
  issued := [⟨0, [.anonymous], 0⟩, ⟨0, [.dynamic "a"], 0⟩, ⟨0, [.dynamic "b"], 0⟩]

/-- Its resolution with an input of five rows, whose bindings are made in some order. -/
def renamedSizes (bindings : Bindings) : ResolvedGraph where
  bindings := bindings
  nodes := [⟨0, .input, [5], [⟨0, 5, false⟩], [0], none⟩]

/-- The first name is known, so the size is when the second one is read. -/
theorem symbols_bound_renamed :
    (start 0 ⟨"graph", true, none⟩).run twoNames = renamed ∧
      ∀ u names, (renamed.graph.resolve ⟨[("a", 5)], []⟩).outcome ≠
        .error (.size (.unresolved u names)) := by
  have hbuilt : (start 0 ⟨"graph", true, none⟩).run twoNames = renamed := rfl
  have hresolved : (renamed.graph.unchecked.resolve ⟨[("a", 5)], []⟩).outcome =
      .ok (renamedSizes [("a", 5), ("%0.0", 5), ("b", 5)]) := rfl
  have hchecked : (renamed.graph.resolve ⟨[("a", 5)], []⟩).outcome =
      .ok (renamedSizes [("a", 5), ("%0.0", 5), ("b", 5)]) := rfl
  have hreadings : renamed.graph.readings ⟨[("a", 5)], []⟩ =
      [⟨⟨0, "realize", "axis 0", .symbol "%0.0", .symbol "a"⟩, .ok (.symbol "%0.0"),
        .ok (.literal 5)⟩,
       ⟨⟨0, "realize", "axis 0", .symbol "%0.0", .symbol "b"⟩, .ok (.literal 5),
        .ok (.symbol "b")⟩] := rfl
  obtain ⟨hbinds, hmissing⟩ := symbols_bound (by simp [twoNames, Command.Integral])
    (.of_eq renamed rfl rfl) hbuilt (.of_eq _ hresolved rfl) (.of_eq _ hchecked rfl)
    (.of_eq _ hreadings rfl) hresolved
  refine ⟨hbuilt, hmissing fun o ho => ?_⟩
  obtain ⟨reading, hreading, rfl⟩ := hbinds.read o ho
  refine hbinds.served reading hreading ?_
  rw [hreadings] at hreading
  rcases List.mem_pair.mp hreading with rfl | rfl
  · exact .inr ⟨5, rfl⟩
  · exact .inl ⟨5, rfl⟩

/-- Where only the second name is known, the first one is read too early and never bound,
though the size that it is equated with is known once the node has been resolved. -/
theorem symbols_bound_fails :
    (start 0 ⟨"graph", true, none⟩).run twoNames = renamed ∧
      (renamed.graph.unchecked.resolve ⟨[("b", 5)], []⟩).outcome =
        .ok (renamedSizes [("b", 5), ("%0.0", 5)]) ∧
      (renamed.graph.resolve ⟨[("b", 5)], []⟩).outcome =
        .error (.size (.unresolved (.symbol "a") ["a"])) := by
  have hmissing : (Size.symbol "a").symbols = ["a"] := by
    simp [Size.symbols, Size.names, Text.sortNames, List.eraseDups_cons]
  rw [← hmissing]
  exact ⟨rfl, rfl, rfl⟩

end Session

end ShapeGraph
