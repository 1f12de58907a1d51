import ShapeGraph.Proofs.Graph.Session
import ShapeGraph.Proofs.Resolution.Joint
import ShapeGraph.Proofs.Resolution.Reading
import ShapeGraph.Proofs.Resolution.Seeding

/-!
# Equalities that are not checked

Switching the check off leaves out the last step of a resolution, but during the walk
equalities still bind symbols.  A symbol that is bound in this way may be fed later, and
then it has to be fed with the value that it has.  So a graph whose equalities are not
checked is resolved as if it had none exactly if what they bind goes together with what is
bound without them.

* `Reading.Allows` — an equality that binds nothing, or what is bound in the end;
* `walk_allowed` — a walk with such equalities ends with the nodes that it ends with
  without them;
* `readWalk_allows` — a walk that goes through has had such equalities only;
* `Graph.resolve_unchecked` — so a resolution comes to the nodes that it comes to without
  equalities just if they are such.
-/

namespace ShapeGraph

open ShapeGraph.Numeric (Arithmetic Exact Number Unbounded)
open Environment (Between)

/-- Both sides are read, and what is bound has that value in the end. -/
structure Reading.Allows (reading : Reading) (bindings : Bindings) : Prop where
  isRead : reading.IsRead
  binds : ∀ name value, reading.binds? = some (name, value) → bindings.get? name = some value

section

variable [Arithmetic] {final lower upper lower' : Environment}

/-- Equalities that are allowed bind nothing but what is bound in the end. -/
theorem bindObligations_allowed (hbetween : Between lower upper final)
    {obligations : List Obligation}
    (h : ∀ reading ∈ readObligations upper obligations, reading.Allows final.bindings) :
    ∃ upper', bindObligations upper obligations = .ok upper' ∧ Between lower upper' final := by
  induction obligations generalizing upper with
  | nil => exact ⟨upper, rfl, hbetween⟩
  | cons o rest ih =>
      obtain ⟨hthis, hothers⟩ := List.forall_mem_cons.mp h
      have hbinds : ∃ middle, bindEquality upper o.equality = .ok middle ∧
          Between lower middle final := by
        rw [bindEquality_of_read hthis.isRead]
        cases hentry : (Reading.of upper o).binds? with
        | none => exact ⟨upper, rfl, hbetween⟩
        | some entry => exact hbetween.bind_ahead (hthis.binds _ _ hentry)
      obtain ⟨middle, hmiddle, hahead⟩ := hbinds
      rw [hmiddle] at hothers
      obtain ⟨upper', hupper', hlast⟩ := ih hahead hothers
      exact ⟨upper', bind_eq_ok.mpr ⟨middle, hmiddle, hupper'⟩, hlast⟩

variable [Unbounded]

/-- A node is resolved to the same as without equalities. -/
theorem resolveNode_allowed (hbetween : Between lower upper final)
    {obligations : List Obligation} {inputs : Entries Feed} {node : Node}
    {resolved : List ResolvedNode} (hview : node.view.Regular final.bindings)
    (hreturned : node.kind = .function →
      ∀ view, node.Returns resolved view → view.Regular final.bindings)
    (hreadings : ∀ reading ∈ readNode obligations inputs node resolved upper,
      reading.Allows final.bindings) {next : ResolvedNode}
    (h : (resolveNode [] inputs node resolved lower).outcome = .ok (lower', next))
    (hfinal : lower'.bindings.Below final.bindings) :
    ∃ upper', (resolveNode obligations inputs node resolved upper).outcome = .ok (upper', next) ∧
      Between lower' upper' final := by
  obtain ⟨middle, data, view, hmiddle, hlast, hshown, rfl⟩ := resolveNode_eq_ok.mp h
  obtain rfl : middle = lower' := Except.ok.inj hlast
  obtain ⟨ahead, hahead, hmid⟩ := evaluateNode_between hbetween hview hreturned hmiddle hfinal
  rw [readNode, hahead] at hreadings
  obtain ⟨upper', hupper', hend⟩ := bindObligations_allowed hmid hreadings
  have hsame := View.resolve_later hend hview hshown
  exact ⟨upper', resolveNode_eq_ok.mpr ⟨ahead, data, view, hahead, hupper', hsame, rfl⟩, hend⟩

/-- **The walk with equalities that are allowed** ends with the nodes that it ends with
without them. -/
theorem walk_allowed (hbetween : Between lower upper final) {obligations : List Obligation}
    {inputs : Entries Feed} {nodes : List Node} {resolved result : List ResolvedNode}
    (hviews : ∀ node ∈ nodes, node.view.Regular final.bindings)
    (hreturned : ∀ node ∈ nodes, node.kind = .function →
      ∀ view, node.Returns result view → view.Regular final.bindings)
    (hreadings : ∀ reading ∈ readWalk obligations inputs nodes resolved upper,
      reading.Allows final.bindings)
    (h : (walk [] inputs nodes resolved lower).outcome = .ok (lower', result))
    (hfinal : lower'.bindings.Below final.bindings) :
    ∃ upper', (walk obligations inputs nodes resolved upper).outcome = .ok (upper', result) ∧
      Between lower' upper' final := by
  induction nodes generalizing resolved lower upper with
  | nil =>
      obtain ⟨rfl, rfl⟩ := Prod.mk.inj (Except.ok.inj h)
      exact ⟨upper, rfl, hbetween⟩
  | cons node rest ih =>
      obtain ⟨hview, hviews⟩ := List.forall_mem_cons.mp hviews
      obtain ⟨hthis, hothers⟩ := List.forall_mem_cons.mp hreturned
      obtain ⟨hread, hlater⟩ := List.forall_mem_append.mp hreadings
      simp only [walk, Run.outcome_bind_eq_ok] at h ⊢
      obtain ⟨⟨middle, next⟩, hnext, h⟩ := h
      obtain ⟨ahead, hahead, hmid⟩ := resolveNode_allowed hbetween hview
        (fun hkind view hreturns => hthis hkind view (hreturns.of_walk h)) hread hnext
        ((walk_ok h).1.below.trans hfinal)
      rw [hahead] at hlater
      obtain ⟨upper', hupper', hend⟩ := ih hmid hviews hothers hlater h
      exact ⟨upper', ⟨(ahead, next), hahead, hupper'⟩, hend⟩

/-! ## What goes through -/

omit [Unbounded] in
/-- An equality that has been bound is allowed by all that has been bound since. -/
theorem Reading.allows_of_bind {env env' : Environment} {o : Obligation}
    (h : bindEquality env o.equality = .ok env') (hfinal : env'.bindings.Below final.bindings) :
    (Reading.of env o).Allows final.bindings := by
  have hread : (Reading.of env o).IsRead := by
    simp only [bindEquality, bind_eq_ok] at h
    obtain ⟨left, hleft, right, hright, _⟩ := h
    exact ⟨left, right, hleft, hright⟩
  refine ⟨hread, fun name value hbinds => ?_⟩
  rw [bindEquality_of_read hread, hbinds] at h
  exact hfinal name value (Environment.bind_ok h).1

omit [Unbounded] in
/-- **A walk that goes through** has had no equalities but those that are allowed by what
is bound in the end. -/
theorem readWalk_allows {env env' : Environment} {obligations : List Obligation}
    {inputs : Entries Feed} {nodes : List Node} {resolved result : List ResolvedNode}
    (h : (walk obligations inputs nodes resolved env).outcome = .ok (env', result)) :
    ∀ reading ∈ readWalk obligations inputs nodes resolved env,
      reading.Allows env'.bindings := by
  intro reading hreading
  obtain ⟨turn, after, hread, hbinds, hgrows⟩ := readWalk_turn h reading hreading
  rw [hread]
  exact Reading.allows_of_bind hbinds hgrows.below

end

namespace Graph

/-- The same nodes without any recorded equality. -/
def unobliged (g : Graph) : Graph :=
  { g with obligations := [] }

end Graph

/-- What equalities bind goes together with what a resolution without them has bound: some
environment has all of it. -/
structure ResolvedGraph.Tolerates (resolved : ResolvedGraph) (readings : List Reading)
    (final : Environment) : Prop where
  sound : final.Sound
  below : resolved.bindings.Below final.bindings
  allowed : ∀ reading ∈ readings, reading.Allows final.bindings

namespace Graph

variable {g : Graph} {options : ResolveOptions} {resolved : ResolvedGraph} {final : Environment}

/-- What the equalities bind goes together with the rest, so they do not stop the walk. -/
theorem unchecked_of_tolerates [Arithmetic] [Unbounded]
    (hcheck : g.settings.checkObligations = false)
    (h : (g.unobliged.resolve options).outcome = .ok resolved)
    (hfinal : resolved.Tolerates (g.readings options) final)
    (hregular : ∀ s, g.unobliged.Meets resolved.nodes s → s.Regular final.bindings) :
    ∃ again, (g.resolve options).outcome = .ok again ∧ again.nodes = resolved.nodes := by
  obtain ⟨initial, last, hinitial, hwalk, hbindings, _⟩ := resolve_parts h
  have hgrows := (walk_ok hwalk).1
  have hbelow := hfinal.below
  rw [hbindings] at hbelow
  have hstart : Between initial initial final :=
    ⟨.refl _, hgrows.below.trans hbelow, hfinal.sound⟩
  have hreadings := hfinal.allowed
  rw [readings, hinitial] at hreadings
  obtain ⟨ahead, hahead, _⟩ := walk_allowed hstart
    (fun node hnode => View.regular_of_sizes fun s hs => hregular s (.shown hnode hs))
    (fun node hnode hkind view hview =>
      View.regular_of_sizes fun s hs => hregular s (.returned hnode hkind hview hs))
    hreadings hwalk hbelow
  refine ⟨⟨ahead.bindings, resolved.nodes⟩, ?_, rfl⟩
  rw [resolve_of_walk hinitial hahead, hcheck]
  rfl

/-- A resolution that comes to the same nodes has bound what is bound without equalities,
and what they bind. -/
theorem tolerates_of_resolve [Arithmetic] [Unbounded] {again : ResolvedGraph}
    (h : (g.unobliged.resolve options).outcome = .ok resolved)
    (hagain : (g.resolve options).outcome = .ok again) (hnodes : again.nodes = resolved.nodes)
    (hintegral : ∀ s, g.unobliged.Meets resolved.nodes s → s.Integral) :
    ∃ final, resolved.Tolerates (g.readings options) final := by
  obtain ⟨initial, last, hinitial, hwalk, hbindings, _⟩ := resolve_parts h
  obtain ⟨initial', final, hinitial', hwalk', _⟩ := resolve_parts hagain
  obtain rfl := Except.ok.inj (hinitial.symm.trans hinitial')
  rw [hnodes] at hwalk'
  have hsound := Environment.ofBindings_sound hinitial
  have hbelow := walk_joint (.refl _) hsound
    (fun node hnode => View.integral_of_sizes fun s hs => hintegral s (.shown hnode hs))
    (fun node hnode hkind view hview =>
      View.integral_of_sizes fun s hs => hintegral s (.returned hnode hkind hview hs))
    hwalk hwalk'
  refine ⟨final, (walk_ok hwalk').1.sound hsound, hbindings ▸ hbelow, ?_⟩
  rw [readings, hinitial]
  exact readWalk_allows hwalk'

/-- **Equalities that are not checked** make no difference to a resolution that succeeds
without them exactly if what they bind goes together with what is bound without them.
Then the resolution succeeds with the same nodes, whether the equalities hold or not.
Sizes are made of integers, no divisor in them comes to zero, and nothing is rounded. -/
theorem resolve_unchecked (hcheck : g.settings.checkObligations = false)
    (hintegral : ∀ s, g.unobliged.Meets resolved.nodes s → s.Integral)
    (hdivisors : ∀ final, resolved.Tolerates (g.readings options) final →
      ∀ s, g.unobliged.Meets resolved.nodes s → ∀ d ∈ s.divisors,
        (Exact fun _ => d.evaluate final.bindings) ∧ d.evaluate final.bindings ≠ .ok 0)
    (hplain : Exact fun _ => (g.unobliged.resolve options).outcome)
    (hagain : Exact fun _ => (g.resolve options).outcome)
    (hreadings : Exact fun _ => g.readings options)
    (h : (g.unobliged.resolve options).outcome = .ok resolved) :
    (∃ again, (g.resolve options).outcome = .ok again ∧ again.nodes = resolved.nodes) ↔
      ∃ final, resolved.Tolerates (g.readings options) final := by
  have hread : @readings Arithmetic.unbounded g options = g.readings options := hreadings.symm
  constructor
  · rintro ⟨again, hsuccess, hnodes⟩
    have htolerates := @tolerates_of_resolve g options resolved Arithmetic.unbounded _ again
      (hplain.symm.trans h) (hagain.symm.trans hsuccess) hnodes hintegral
    rwa [hread] at htolerates
  · rintro ⟨final, hfinal⟩
    have hregular : ∀ s, g.unobliged.Meets resolved.nodes s →
        @Size.Regular Arithmetic.unbounded final.bindings s := by
      intro s hs
      refine @Size.Regular.mk Arithmetic.unbounded _ _ (hintegral s hs) fun d hd hzero => ?_
      obtain ⟨hexact, hne⟩ := hdivisors final hfinal s hs d hd
      exact hne (hexact.trans hzero)
    obtain ⟨again, hsuccess, hnodes⟩ := @unchecked_of_tolerates g options resolved final
      Arithmetic.unbounded _ hcheck (hplain.symm.trans h) (hread ▸ hfinal) hregular
    exact ⟨again, hagain.trans hsuccess, hnodes⟩

/-- Two inputs, the second of which has the size that the first one is realized as; the
equality is recorded on the given node. -/
def realized (node : Number) (journal : List String) : Graph where
  id := 0
  settings := ⟨"graph", false, none⟩
  nodes := [
    ⟨0, .input, [], [.dynamic "seq"], .contiguous [.symbol "seq"], [], some "x", none⟩,
    ⟨1, .input, [], [.dynamic "len"], .contiguous [.symbol "len"], [], some "y", none⟩]
  obligations := [⟨node, "realize", "axis 0", .symbol "seq", .symbol "len"⟩]
  journal := journal

/-- Inputs of five and of three rows. -/
def unequalFeeds : ResolveOptions :=
  ⟨[], [("x", ⟨[5], none⟩), ("y", ⟨[3], none⟩)]⟩

/-- What they are resolved to. -/
def unequalSizes : ResolvedGraph where
  bindings := [("seq", 5), ("len", 3)]
  nodes := [⟨0, .input, [5], [⟨0, 5, false⟩], [0], none⟩,
    ⟨1, .input, [3], [⟨0, 3, false⟩], [0], none⟩]

/-- No size that is met divides, and all of them are sizes of integers. -/
theorem realized_meets {node : Number} {journal : List String} {s : Size}
    (h : (realized node journal).unobliged.Meets unequalSizes.nodes s) :
    s.Integral ∧ s.divisors = [] := by
  have hlisted : s ∈ [Size.zero, .symbol "seq", .symbol "len"] := by
    cases h with
    | shown hnode hs =>
        rcases List.mem_pair.mp hnode with rfl | rfl
        · revert hs
          decide +revert
        · revert hs
          decide +revert
    | recorded ho hs => cases ho
    | returned hnode hkind hview hs =>
        rcases List.mem_pair.mp hnode with rfl | rfl
        · cases hkind
        · cases hkind
  simp only [List.mem_cons, List.not_mem_nil, or_false] at hlisted
  rcases hlisted with rfl | rfl | rfl
  · exact ⟨⟨0, rfl⟩, rfl⟩
  · exact ⟨trivial, rfl⟩
  · exact ⟨trivial, rfl⟩

/-- An equality on the second input finds both sizes known, and that it does not hold makes
no difference. -/
theorem resolve_unchecked_second :
    ∃ again, ((realized 1 []).resolve unequalFeeds).outcome = .ok again ∧
      again.nodes = unequalSizes.nodes := by
  have hplain : ((realized 1 []).unobliged.resolve unequalFeeds).outcome = .ok unequalSizes := rfl
  have hagain : ((realized 1 []).resolve unequalFeeds).outcome = .ok unequalSizes := rfl
  have hreadings : (realized 1 []).readings unequalFeeds =
      [⟨⟨1, "realize", "axis 0", .symbol "seq", .symbol "len"⟩, .ok (.literal 5),
        .ok (.literal 3)⟩] := rfl
  have hknown : Environment.ofBindings [("seq", 5), ("len", 3)] =
      .ok ⟨[⟨"seq", 5, .explicit⟩, ⟨"len", 3, .explicit⟩]⟩ := rfl
  have hfinal : unequalSizes.Tolerates ((realized 1 []).readings unequalFeeds)
      ⟨[⟨"seq", 5, .explicit⟩, ⟨"len", 3, .explicit⟩]⟩ := by
    refine ⟨Environment.ofBindings_sound hknown, .refl _, ?_⟩
    rw [hreadings, List.forall_mem_singleton]
    exact ⟨⟨_, _, rfl, rfl⟩, fun _ _ hbinds => nomatch hbinds⟩
  have hsame := resolve_unchecked rfl (fun s hs => (realized_meets hs).1)
    (fun _ _ s hs d hd => absurd hd (by simp [(realized_meets hs).2]))
    (.of_eq _ hplain rfl) (.of_eq _ hagain rfl) (.of_eq _ hreadings rfl) hplain
  exact hsame.mpr ⟨_, hfinal⟩

/-- An equality on the first input binds the size of the second one before it is fed, and
the feed is refused though it is accepted without the equality. -/
theorem resolve_unchecked_fails :
    ∃ g, ((Session.start 0 ⟨"graph", false, none⟩).run [.newTensor "x" [.dynamic "seq"],
        .realize 0 [.dynamic "len"], .newTensor "y" [.dynamic "len"]]).graph = g ∧
      g.settings.checkObligations = false ∧
      (g.unobliged.resolve unequalFeeds).outcome = .ok unequalSizes ∧
      (g.resolve unequalFeeds).outcome =
        .error (.mismatch (.size "input 'y' axis 0" 5 3 (.symbol "len"))) :=
  ⟨realized 0 ["%0 = input [seq]", "obligation on %0: seq == len (realize, axis 0)",
    "realize %0 as [len]", "%1 = input [len]"], rfl, rfl, rfl, rfl⟩

end Graph

end ShapeGraph
