import ShapeGraph.Proofs.Resolution.Ahead
import ShapeGraph.Proofs.View.Reachable

/-!
# Runs that both go through

Of two runs over the same nodes let one know all that the other one knows.  If both go
through then it stays so to the end: what the one that knows less binds is bound by the
other one as well, or was bound there before, and to the same value.  No divisor has to be
looked at for this, as the run that knows more would have stopped at one that is zero.

* `unify_joint` — a size that both unify with one number;
* `bindInput_joint`, `invokeFunction_joint` — inputs and host computations;
* `walk_joint` — all nodes, where only the run that knows more has equalities.
-/

namespace ShapeGraph

open ShapeGraph.Numeric (Arithmetic Number Unbounded)

/-- A valuation that agrees with later bindings agrees with earlier ones. -/
theorem Bindings.Below.agrees {lower upper : Bindings} (h : lower.Below upper) {ρ : Valuation}
    (hρ : upper.Agrees ρ) : lower.Agrees ρ :=
  fun name v hv => hρ name v (h name v hv)

section

variable [Arithmetic] [Unbounded] {lower upper lower' upper' : Environment}

/-- A size that both runs unify with one number. -/
theorem Environment.unify_joint (hbelow : lower.bindings.Below upper.bindings)
    (hsound : upper.Sound) {size : Size} (hsize : size.Integral) {value : Number}
    {relation : String} {source : Source}
    (h : lower.unify size value relation source = .ok lower')
    (h' : upper.unify size value relation source = .ok upper') :
    lower'.bindings.Below upper'.bindings := by
  have hkeeps := hbelow.trans (unify_grows h').below
  obtain ⟨pending, hpending, h⟩ := bind_eq_ok.mp h
  obtain ⟨later, hlater, h'⟩ := bind_eq_ok.mp h'
  have hstage := Size.substitute_later hsize hsound.integral hbelow hpending hlater
  cases pending with
  | literal known =>
      obtain ⟨_, rfl⟩ := ite_ok_eq_ok.mp h
      exact hkeeps
  | binary op l r => cases h
  | symbol name =>
      -- the symbol is bound in the other run already, or now
      have hvalue : upper'.bindings.get? name = some value := by
        rw [Size.substitute_symbol] at hstage
        cases hheld : upper.bindings.get? name with
        | none =>
            rw [hheld] at hstage
            obtain rfl := Except.ok.inj hstage
            exact (bind_ok h').1
        | some known =>
            rw [hheld] at hstage
            obtain rfl := Except.ok.inj hstage
            obtain ⟨hsame, rfl⟩ := ite_ok_eq_ok.mp h'
            obtain ⟨n, rfl⟩ := hsound.integral name known hheld
            obtain ⟨m, rfl⟩ := bind_integral h
            rw [Number.same_int, decide_eq_true_iff] at hsame
            rw [hheld, hsame]
      obtain ⟨hthis, hothers⟩ := bind_ok h
      intro other v hv
      by_cases hother : other = name
      · subst hother
        exact hvalue.trans (hthis.symm.trans hv)
      · rw [hothers other hother] at hv
        exact hkeeps other v hv

/-! ## Views -/

omit [Arithmetic] [Unbounded] in
/-- The ranges of a view of integers are ranges of integers. -/
theorem View.Integral.of_ranges {v : View} (hv : v.Integral) {ranges : List AxisRange}
    (h : v.ranges = .ok ranges) : ∀ range ∈ ranges, range.Integral :=
  fun range hr => hv range (View.mem_axes_of_ranges h range hr)

omit [Arithmetic] [Unbounded] in
/-- A view is one of integers if all the sizes in it are. -/
theorem View.integral_of_sizes {v : View}
    (h : ∀ s ∈ v.axes.flatMap AxisRange.sizes, s.Integral) : v.Integral := by
  intro range hr
  have hsize : ∀ s ∈ range.sizes, s.Integral := fun s hs =>
    h s (List.mem_flatMap.mpr ⟨range, hr, hs⟩)
  exact ⟨hsize range.start (by simp [AxisRange.sizes]),
    hsize range.stop (by simp [AxisRange.sizes]), hsize range.size (by simp [AxisRange.sizes])⟩

/-- The lengths of a view of integers are sizes of integers. -/
theorem View.Integral.of_lengths {v : View} (hv : v.Integral) {lengths : List Size}
    (h : v.lengths = .ok lengths) : ∀ s ∈ lengths, s.Integral := by
  obtain ⟨ranges, hranges, h⟩ := bind_eq_ok.mp h
  obtain rfl := Except.ok.inj h
  intro s hs
  obtain ⟨range, hr, rfl⟩ := List.mem_map.mp hs
  exact (AxisRange.length_means (hv.of_ranges hranges range hr)).integral

/-- A view that both runs resolve is resolved to the same. -/
theorem View.resolve_joint {first second : Bindings} (hbelow : first.Below second)
    (hsecond : second.Integral) {v : View} (hv : v.Integral) {shown shown' : ResolvedView}
    (h : v.resolve first = .ok shown) (h' : v.resolve second = .ok shown') : shown = shown' := by
  have hρ := hsecond.agrees_completed fun _ => 0
  obtain ⟨ranges, hranges, h⟩ := bind_eq_ok.mp h
  obtain ⟨ranges', hranges', h'⟩ := bind_eq_ok.mp h'
  obtain rfl := Except.ok.inj (hranges.symm.trans hranges')
  obtain ⟨concrete, hconcrete, h⟩ := bind_eq_ok.mp h
  obtain ⟨concrete', hconcrete', h'⟩ := bind_eq_ok.mp h'
  obtain ⟨rfl, _⟩ := resolveFrom_value (hv.of_ranges hranges) (hbelow.agrees hρ) hconcrete
  obtain ⟨rfl, _⟩ := resolveFrom_value (hv.of_ranges hranges) hρ hconcrete'
  exact Except.ok.inj (h.symm.trans h')

/-! ## Inputs -/

/-- What the axes of a feed bind is bound alike where more is bound. -/
theorem bindAxes_joint (hbelow : lower.bindings.Below upper.bindings) (hsound : upper.Sound)
    {name : String} {axis : Nat} {dims : Shape} {values : List Number} {lengths : List Size}
    (hlengths : ∀ s ∈ lengths, s.Integral)
    (h : bindAxes name axis dims values lengths lower = .ok lower')
    (h' : bindAxes name axis dims values lengths upper = .ok upper') :
    lower'.bindings.Below upper'.bindings := by
  induction dims generalizing axis values lengths lower upper with
  | nil =>
      obtain rfl := Except.ok.inj h
      obtain rfl := Except.ok.inj h'
      exact hbelow
  | cons dim dims ih =>
      cases values with
      | nil =>
          obtain rfl := Except.ok.inj h
          obtain rfl := Except.ok.inj h'
          exact hbelow
      | cons value values =>
          cases lengths with
          | nil =>
              obtain rfl := Except.ok.inj h
              obtain rfl := Except.ok.inj h'
              exact hbelow
          | cons length lengths =>
              obtain ⟨hlength, hothers⟩ := List.forall_mem_cons.mp hlengths
              simp only [bindAxes, bind_eq_ok] at h h'
              obtain ⟨_, _, middle, hmiddle, h⟩ := h
              obtain ⟨_, _, middle', hmiddle', h'⟩ := h'
              have hnext := Environment.unify_joint hbelow hsound hlength hmiddle hmiddle'
              exact ih hnext ((Environment.unify_grows hmiddle').sound hsound) hothers h h'

/-- What a feed binds is bound alike where more is bound. -/
theorem bindInput_joint (hbelow : lower.bindings.Below upper.bindings) (hsound : upper.Sound)
    {node : Node} {feed : Feed} (hview : node.view.Integral) {data data' : Option (List Number)}
    (h : bindInput node feed lower = .ok (lower', data))
    (h' : bindInput node feed upper = .ok (upper', data')) :
    lower'.bindings.Below upper'.bindings := by
  obtain ⟨_, ⟨lengths, hlengths, h⟩, _⟩ := bindInput_ok h
  obtain ⟨_, ⟨lengths', hlengths', h'⟩, _⟩ := bindInput_ok h'
  obtain rfl := Except.ok.inj (hlengths.symm.trans hlengths')
  exact bindAxes_joint hbelow hsound (hview.of_lengths hlengths) h h'

/-! ## Host computations -/

theorem bindResults_joint (hbelow : lower.bindings.Below upper.bindings) (hsound : upper.Sound)
    {name : String} {axis : Nat} {values : List Number} {lengths : List Size}
    (hlengths : ∀ s ∈ lengths, s.Integral)
    (h : bindResults name axis values lengths lower = .ok lower')
    (h' : bindResults name axis values lengths upper = .ok upper') :
    lower'.bindings.Below upper'.bindings := by
  induction values generalizing axis lengths lower upper with
  | nil =>
      obtain rfl := Except.ok.inj h
      obtain rfl := Except.ok.inj h'
      exact hbelow
  | cons value values ih =>
      cases lengths with
      | nil =>
          obtain rfl := Except.ok.inj h
          obtain rfl := Except.ok.inj h'
          exact hbelow
      | cons length lengths =>
          obtain ⟨hlength, hothers⟩ := List.forall_mem_cons.mp hlengths
          simp only [bindResults, bind_eq_ok] at h h'
          obtain ⟨middle, hmiddle, h⟩ := h
          obtain ⟨middle', hmiddle', h'⟩ := h'
          have hnext := Environment.unify_joint hbelow hsound hlength hmiddle hmiddle'
          exact ih hnext ((Environment.unify_grows hmiddle').sound hsound) hothers h h'

/-- The sizes that both runs declare are unified with one and the same result. -/
theorem invokeFunction_joint (hbelow : lower.bindings.Below upper.bindings) (hsound : upper.Sound)
    {node : Node} {resolved : List ResolvedNode} (hview : node.view.Integral)
    (hreturned : ∀ view, node.Returns resolved view → view.Integral)
    {data data' : Option (List Number)}
    (h : (invokeFunction node resolved lower).outcome = .ok (lower', data))
    (h' : (invokeFunction node resolved upper).outcome = .ok (upper', data')) :
    lower'.bindings.Below upper'.bindings := by
  obtain ⟨payload, inputs, result, view, declared, hpayload, hinputs, hrun, hresolved, _,
    hdeclared, h, _⟩ := invokeFunction_ok h
  obtain ⟨payload', inputs', result', view', declared', hpayload', hinputs', hrun', hresolved', _,
    hdeclared', h', _⟩ := invokeFunction_ok h'
  obtain rfl := Option.some.inj (hpayload.symm.trans hpayload')
  obtain rfl := Except.ok.inj (hinputs.symm.trans hinputs')
  obtain rfl := Except.ok.inj (hrun.symm.trans hrun')
  obtain rfl := Except.ok.inj (hdeclared.symm.trans hdeclared')
  have hresult : result.view.Integral := by
    rcases Node.run_view hpayload hinputs hrun with hhost | ⟨numbers, hnumbers⟩
    · exact hreturned _ hhost
    · exact (View.ofQuantities_sound (by simp [Quantity.Integral]) hnumbers).2
  obtain rfl := View.resolve_joint hbelow hsound.integral hresult hresolved hresolved'
  exact bindResults_joint hbelow hsound (hview.of_lengths hdeclared) h h'

/-! ## The walk -/

/-- What a node contributes is bound alike where more is bound. -/
theorem evaluateNode_joint (hbelow : lower.bindings.Below upper.bindings) (hsound : upper.Sound)
    {inputs : Entries Feed} {node : Node} {resolved : List ResolvedNode}
    (hview : node.view.Integral) (hreturned : node.kind = .function →
      ∀ view, node.Returns resolved view → view.Integral) {data data' : Option (List Number)}
    (h : (evaluateNode inputs node resolved lower).outcome = .ok (lower', data))
    (h' : (evaluateNode inputs node resolved upper).outcome = .ok (upper', data')) :
    lower'.bindings.Below upper'.bindings := by
  have hsame : ∀ {d d' : Option (List Number)},
      (pure (lower, d) : Run _).outcome = .ok (lower', data) →
      (pure (upper, d') : Run _).outcome = .ok (upper', data') →
        lower'.bindings.Below upper'.bindings := by
    intro d d' hd hd'
    obtain ⟨rfl, _⟩ := Prod.mk.inj (Except.ok.inj hd)
    obtain ⟨rfl, _⟩ := Prod.mk.inj (Except.ok.inj hd')
    exact hbelow
  unfold evaluateNode at h h'
  cases hkind : node.kind with
  | input =>
      simp only [hkind] at h h'
      cases hfeed : inputs.get? (node.name.getD "") with
      | none =>
          rw [hfeed] at h h'
          exact hsame h h'
      | some feed =>
          rw [hfeed] at h h'
          exact bindInput_joint hbelow hsound hview h h'
  | constant =>
      simp only [hkind] at h h'
      exact hsame h h'
  | function =>
      simp only [hkind] at h h'
      exact invokeFunction_joint hbelow hsound hview (hreturned hkind) h h'
  | _ =>
      simp only [hkind] at h h'
      exact hsame h h'

/-- One node, which only the run that knows more has equalities on. -/
theorem resolveNode_joint (hbelow : lower.bindings.Below upper.bindings) (hsound : upper.Sound)
    {obligations : List Obligation} {inputs : Entries Feed} {node : Node}
    {resolved : List ResolvedNode} (hview : node.view.Integral)
    (hreturned : node.kind = .function →
      ∀ view, node.Returns resolved view → view.Integral) {next next' : ResolvedNode}
    (h : (resolveNode [] inputs node resolved lower).outcome = .ok (lower', next))
    (h' : (resolveNode obligations inputs node resolved upper).outcome = .ok (upper', next')) :
    lower'.bindings.Below upper'.bindings := by
  obtain ⟨middle, _, _, hmiddle, hlast, _, _⟩ := resolveNode_eq_ok.mp h
  obtain ⟨_, _, _, hmiddle', hlast', _, _⟩ := resolveNode_eq_ok.mp h'
  obtain rfl : middle = lower' := Except.ok.inj hlast
  exact (evaluateNode_joint hbelow hsound hview hreturned hmiddle hmiddle').trans
    (bindObligations_grows hlast').below

/-- **Two walks that both go through**, to the same nodes: what the one without equalities
has bound the other one has bound as well. -/
theorem walk_joint (hbelow : lower.bindings.Below upper.bindings) (hsound : upper.Sound)
    {obligations : List Obligation} {inputs : Entries Feed} {nodes : List Node}
    {resolved result : List ResolvedNode} (hviews : ∀ node ∈ nodes, node.view.Integral)
    (hreturned : ∀ node ∈ nodes, node.kind = .function →
      ∀ view, node.Returns result view → view.Integral)
    (h : (walk [] inputs nodes resolved lower).outcome = .ok (lower', result))
    (h' : (walk obligations inputs nodes resolved upper).outcome = .ok (upper', result)) :
    lower'.bindings.Below upper'.bindings := by
  induction nodes generalizing resolved lower upper with
  | nil =>
      obtain ⟨rfl, _⟩ := Prod.mk.inj (Except.ok.inj h)
      obtain ⟨rfl, _⟩ := Prod.mk.inj (Except.ok.inj h')
      exact hbelow
  | cons node rest ih =>
      obtain ⟨hview, hviews⟩ := List.forall_mem_cons.mp hviews
      obtain ⟨hthis, hothers⟩ := List.forall_mem_cons.mp hreturned
      simp only [walk, Run.outcome_bind_eq_ok] at h h'
      obtain ⟨⟨middle, next⟩, hnext, h⟩ := h
      obtain ⟨⟨middle', next'⟩, hnext', h'⟩ := h'
      -- both have resolved the node to the same, as they end with the same nodes
      obtain rfl : next = next' := by
        obtain ⟨_, walked, hwalked, _⟩ := walk_ok h
        obtain ⟨_, walked', hwalked', _⟩ := walk_ok h'
        have hsame : next = next' ∧ walked = walked' := by
          simpa [List.append_assoc] using hwalked.symm.trans hwalked'
        exact hsame.1
      have hmiddle := resolveNode_joint hbelow hsound hview
        (fun hkind view hreturns => hthis hkind view (hreturns.of_walk h)) hnext hnext'
      exact ih hmiddle ((resolveNode_ok hnext').1.sound hsound) hviews hothers h h'

end

end ShapeGraph
