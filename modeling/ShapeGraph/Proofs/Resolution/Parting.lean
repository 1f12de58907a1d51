import ShapeGraph.Proofs.Graph.Joining
import ShapeGraph.Proofs.Resolution.Widening

/-!
# Joins taken apart

A tensor that has been joined along an axis is cut on it at the length of the first operand.
Nothing of this is seen in the graph: the length is an expression, the ends of the parts are
minima and differences that are never simplified, and the second operand agrees with the
first one off the axis only because that is recorded.  It is seen once the graph is resolved:
every range shown is then in order, so no length is negative, and the recorded equalities
hold.

* `Command.front`, `Command.back` — the two slices;
* `Joins.parts_succeed` — they are accepted if the graph resolves at all;
* `Joins.parts_shown` — what they show is what was joined;
* `Session.concat_parted` — so slicing undoes joining.
-/

namespace ShapeGraph

open ShapeGraph.Numeric (Arithmetic Exact Number Unbounded)

/-- Two nodes are parts of a third one: they have the shapes of two others, and on the axis
the ranges of both meet and cover that of the third. -/
structure ResolvedNode.Parted (axis : Nat) (first second whole front back : ResolvedNode) :
    Prop where
  front_shape : front.shape = first.shape
  back_shape : back.shape = second.shape
  ranges : ∃ m n : Int, front.ranges[axis]? = some ⟨0, .int m, false⟩ ∧
    back.ranges[axis]? = some ⟨.int m, .int n, false⟩ ∧
    whole.ranges[axis]? = some ⟨0, .int n, false⟩

/-- The extent of a range can be read off its resolved bounds. -/
theorem AxisRange.extent_of_concrete {range : AxisRange} {ρ : Valuation} {m n : Int}
    {broadcast : Bool} (h : range.concrete ρ = ⟨.int m, .int n, broadcast⟩) :
    range.extent ρ = n - m := by
  have hstart : range.start.value ρ = m := Number.int.inj (congrArg ConcreteRange.start h)
  have hstop : range.stop.value ρ = n := Number.int.inj (congrArg ConcreteRange.stop h)
  rw [extent, hstart, hstop]

/-- The shape of a resolved node is the extent of the view that it shows. -/
theorem ResolvedNode.shape_of_shown {node : ResolvedNode} {view : View} {ρ : Valuation}
    (h : node.shown = view.concrete ρ) : node.shape = (view.extent ρ).map .int :=
  congrArg ResolvedView.shape h

/-- The ranges of a resolved node are those of the view that it shows. -/
theorem ResolvedNode.range_of_shown {node : ResolvedNode} {view : View} {ρ : Valuation}
    (h : node.shown = view.concrete ρ) (axis : Nat) :
    node.ranges[axis]? = view.shown[axis]?.map (AxisRange.concrete ρ) := by
  rw [← List.getElem?_map]
  exact congrArg (fun shown => shown.ranges[axis]?) h

/-- The call that keeps of one axis what is before a length. -/
def Command.front (place axis rank : Nat) (length : Size) : Command :=
  .slice place (RangeSpec.only axis rank (.ending (.size length) false))

/-- The call that keeps of one axis what is from a length on. -/
def Command.back (place axis rank : Nat) (length : Size) : Command :=
  .slice place (RangeSpec.only axis rank (.starting (.size length)))

/-- The call that keeps the front is one on sizes of integers. -/
theorem Command.front_integral {place axis rank : Nat} {length : Size} (h : length.Integral) :
    (front place axis rank length).Integral :=
  RangeSpec.only_integral ⟨trivial, h⟩

theorem Command.back_integral {place axis rank : Nat} {length : Size} (h : length.Integral) :
    (back place axis rank length).Integral :=
  RangeSpec.only_integral ⟨h, trivial⟩

namespace Session

variable {s s₁ s₂ s₃ : Session} {a b p q : Tensor} {x y : Node} {axis : Nat} {left right : Size}
  {sizes : List Size} {later : List Command} {options : ResolveOptions} {resolved : ResolvedGraph}
  {ρ : Valuation}

namespace Joins

variable (hj : s.Joins s₁ a b x y axis left right sizes)

include hj

/-- On the axis the storage is as long as both operands together. -/
theorem size_at : ∃ total, sizes[axis]? = some total ∧ total.Integral ∧
    ∀ ρ, total.value ρ = left.value ρ + right.value ρ := by
  have hat : ∀ ρ, sizes[axis]?.map (Size.value ρ) = some (left.value ρ + right.value ρ) := by
    intro ρ
    have hlt : axis < (x.view.extent ρ).length :=
      (List.getElem?_eq_some_iff.mp (hj.first_at ρ)).1
    rw [← List.getElem?_map, hj.values, List.getElem?_set_self hlt]
  obtain ⟨total, htotal, _⟩ := Option.map_eq_some_iff.mp (hat fun _ => 0)
  refine ⟨total, htotal, hj.sizes_integral total (List.mem_of_getElem? htotal), fun ρ => ?_⟩
  have hvalue := hat ρ
  rw [htotal] at hvalue
  exact Option.some.inj hvalue

/-- Storage shows the whole of each axis. -/
theorem shown_at {total : Size} (htotal : sizes[axis]? = some total) :
    (View.contiguous sizes).shown[axis]? = some (.whole total false) := by
  rw [View.shown_contiguous hj.sizes_integral, List.getElem?_map, htotal]
  rfl

/-- Later on, the handle of the join is an operand like any other. -/
theorem operand (hlater : s₂.Later s₁) : ∃ t z, s₂.issued[s.issued.length]? = some t ∧
    s₂.graph.Operand t z ∧ z.view = .contiguous sizes ∧ t.rank = a.rank := by
  obtain ⟨t, z, ht, hbehind, hview⟩ := hj.gains.handle
  have ht₂ := hlater.issued _ t ht
  have hop := (hlater.wellFormed.issued t (List.mem_of_getElem? ht₂)).operand_behind
    hlater.wellFormed.graph (hlater.extends_graph.behind hbehind)
  refine ⟨t, z, ht₂, hop, hview, ?_⟩
  have hlength : sizes.length = a.rank := by
    rw [← hj.first.length_extent fun _ => 0, ← List.length_map, hj.values, List.length_set]
  rw [← hop.rank_eq, hview, View.rank_contiguous, hlength]

end Joins

section

variable [Arithmetic] [Unbounded]

/-- The node behind a handle is shown, and none of its ranges is reversed. -/
theorem Later.behind_shown (h : s₁.Later s) (hbehind : s.graph.Behind a x)
    (hresolved : (s₁.graph.resolve options).outcome = .ok resolved)
    (hρ : resolved.bindings.Agrees ρ) :
    (∃ held, resolved.view a.id = .ok held ∧ held.shown = x.view.concrete ρ) ∧
      ∀ range ∈ x.view.shown, range.Proper ρ := by
  obtain ⟨_, place, hid, hnode⟩ := hbehind
  obtain ⟨⟨held, hheld, hshows⟩, hproper⟩ := (Graph.resolve_shows h.wellFormed.graph hresolved).2
    ρ hρ place x (h.extends_graph.nodes place x hnode)
  exact ⟨⟨held, hid ▸ hheld, hshows.shown_eq⟩, hproper⟩

namespace Joins

variable (hj : s.Joins s₁ a b x y axis left right sizes)

include hj

/-- Under the bindings of a resolution no length on the axis is negative. -/
theorem lengths_nonneg (hlater : s₂.Later s)
    (hresolved : (s₂.graph.resolve options).outcome = .ok resolved)
    (hρ : resolved.bindings.Agrees ρ) : 0 ≤ left.value ρ ∧ 0 ≤ right.value ρ := by
  have hnonneg : ∀ {view : View} {e : Int}, (∀ range ∈ view.shown, range.Proper ρ) →
      (view.extent ρ)[axis]? = some e → 0 ≤ e := by
    intro view e hproper he
    obtain ⟨range, hrange, rfl⟩ := List.mem_map.mp (List.mem_of_getElem? he)
    have hle := (hproper range hrange).start_le_stop
    rw [AxisRange.extent]
    omega
  exact ⟨hnonneg (hlater.behind_shown hj.first.behind hresolved hρ).2 (hj.first_at ρ),
    hnonneg (hlater.behind_shown hj.second.behind hresolved hρ).2 (hj.second_at ρ)⟩

/-- The axis takes both spans that the length of the first operand cuts it into. -/
theorem takes_parts {total : Size} (htotal : total.Integral)
    (hvalue : total.value ρ = left.value ρ + right.value ρ) (hleft : 0 ≤ left.value ρ)
    (hright : 0 ≤ right.value ρ) :
    (AxisRange.whole total false).Takes ⟨.zero, left⟩ ∧
      (AxisRange.whole total false).Takes ⟨left, (AxisRange.whole total false).length⟩ := by
  have hwhole := AxisRange.Integral.whole htotal false
  have hlength := AxisRange.length_means hwhole
  have hend : (AxisRange.whole total false).length.value ρ = total.value ρ := by
    rw [hlength.value_eq, AxisRange.extent_whole]
  constructor
  · apply AxisRange.takes_of_value hwhole Size.means_zero.integral hj.left_integral
    · exact Int.le_refl (Size.zero.value ρ)
    · exact hleft
    · show 0 + 0 ≤ min (0 + left.value ρ) (total.value ρ)
      omega
  · apply AxisRange.takes_of_value hwhole hj.left_integral hlength.integral hleft
    · show left.value ρ ≤ (AxisRange.whole total false).length.value ρ
      omega
    · show 0 + left.value ρ ≤
        min (0 + (AxisRange.whole total false).length.value ρ) (total.value ρ)
      omega

/-- What the two spans leave of the axis: the minimum at the end of the first one is the
length that it is cut at, and the second one starts there. -/
theorem concrete_parts {total : Size} (htotal : total.Integral)
    (hvalue : total.value ρ = left.value ρ + right.value ρ) (hright : 0 ≤ right.value ρ) :
    (View.narrow (.whole total false) ⟨.zero, left⟩).concrete ρ =
        ⟨0, .int (left.value ρ), false⟩ ∧
      (View.narrow (.whole total false) ⟨left, (AxisRange.whole total false).length⟩).concrete ρ =
        ⟨.int (left.value ρ), .int (left.value ρ + right.value ρ), false⟩ := by
  have hlength := AxisRange.length_means (.whole htotal false)
  have hend : (AxisRange.whole total false).length.value ρ = total.value ρ := by
    rw [hlength.value_eq, AxisRange.extent_whole]
  have hfront : min (left.value ρ) (total.value ρ) = left.value ρ := by omega
  constructor
  · rw [View.concrete_narrow_whole htotal Size.means_zero.integral hj.left_integral, hfront]
    rfl
  · rw [View.concrete_narrow_whole htotal hj.left_integral hlength.integral, hend, Int.min_self,
      hvalue]

/-- A slice of the axis alone succeeds, once the join is there, if the axis takes the span. -/
theorem slice_succeeds (hlater : s₂.Later s₁) (hsizes : ∀ size ∈ sizes, 0 ≤ size.value ρ)
    {total : Size} (htotal : sizes[axis]? = some total) {spec : RangeSpec} {span : Span}
    (hspan : spec.span (some (AxisRange.whole total false).length) defaultSentinel = .ok span)
    (htakes : (AxisRange.whole total false).Takes span) :
    ∃ s₃, s₂.extend (.slice s.issued.length (RangeSpec.only axis a.rank spec)) = .ok s₃ := by
  obtain ⟨t, z, ht, hop, hview, hrank⟩ := hj.operand hlater
  have hproper : ∀ range ∈ z.view.shown, range.Proper ρ := by
    rw [hview, View.shown_contiguous hj.sizes_integral, List.forall_mem_map]
    intro size hsize
    exact ⟨Int.le_refl 0, hsizes size hsize⟩
  have hrange : z.view.shown[axis]? = some (.whole total false) := by
    rw [hview, hj.shown_at htotal]
  rw [← hrank]
  exact extend_slice_only_succeeds ht hop hproper hrange hspan htakes

/-- **The two slices are accepted** if the graph resolves at all, which shows that no length
is negative. -/
theorem parts_succeed (hlater : s₂.Later s₁)
    (hresolved : (s₂.graph.resolve options).outcome = .ok resolved) :
    (∃ s₃, s₂.extend (.front s.issued.length axis a.rank left) = .ok s₃) ∧
      ∃ s₃, s₂.extend (.back s.issued.length axis a.rank left) = .ok s₃ := by
  have hρ := (Graph.resolve_shows hlater.wellFormed.graph hresolved).1.agrees_completed fun _ => 0
  obtain ⟨_, z, _, hop, hview, _⟩ := hj.operand hlater
  obtain ⟨hleft, hright⟩ := hj.lengths_nonneg (hlater.trans hj.gains.later) hresolved hρ
  obtain ⟨_, hproper⟩ := (Later.refl hlater.wellFormed).behind_shown hop.behind hresolved hρ
  rw [hview, View.shown_contiguous hj.sizes_integral, List.forall_mem_map] at hproper
  have hsizes := fun size hsize => (hproper size hsize).start_le_stop
  obtain ⟨total, htotal, htotali, hvalue⟩ := hj.size_at
  obtain ⟨hfront, hback⟩ := hj.takes_parts htotali (hvalue _) hleft hright
  exact ⟨hj.slice_succeeds hlater hsizes htotal rfl hfront,
    hj.slice_succeeds hlater hsizes htotal rfl hback⟩

/-- What a slice of the axis alone shows, once the join is there. -/
theorem slice_gains (hlater : s₂.Later s₁) {total : Size} (htotal : sizes[axis]? = some total)
    {spec : RangeSpec} (hspec : spec.Integral) {span : Span}
    (hspan : spec.span (some (AxisRange.whole total false).length) defaultSentinel = .ok span)
    (h : s₂.extend (.slice s.issued.length (RangeSpec.only axis a.rank spec)) = .ok s₃) :
    ∃ view, s₂.Gains s₃ view ∧
      view.shown[axis]? = some (View.narrow (.whole total false) span) ∧
      ∀ ρ, view.extent ρ = (x.view.extent ρ).set axis
        ((View.narrow (.whole total false) span).extent ρ) := by
  obtain ⟨t, z, ht, hop, hview, hrank⟩ := hj.operand hlater
  have hrange : z.view.shown[axis]? = some (.whole total false) := by
    rw [hview, hj.shown_at htotal]
  rw [← hrank] at h
  obtain ⟨view, hgains, hat, hextent⟩ :=
    extend_slice_only hlater.wellFormed ht hop.behind hspec hrange hspan h
  refine ⟨view, hgains, hat, fun ρ => ?_⟩
  rw [hextent, hview, View.extent_contiguous hj.sizes_integral, hj.values, List.set_set]

/-- A handle issued by such a slice is on a node that shows this, whatever comes later. -/
theorem slice_issued (hlater : ∀ command ∈ later, command.Integral) {total : Size}
    (htotal : sizes[axis]? = some total) {spec : RangeSpec} (hspec : spec.Integral) {span : Span}
    (hspan : spec.span (some (AxisRange.whole total false).length) defaultSentinel = .ok span)
    (h : s₁.Issues later (.slice s.issued.length (RangeSpec.only axis a.rank spec)) p) :
    ∃ node, (s₁.run later).graph.Behind p node ∧
      node.view.shown[axis]? = some (View.narrow (.whole total false) span) ∧
      ∀ ρ, node.view.extent ρ = (x.view.extent ρ).set axis
        ((View.narrow (.whole total false) span).extent ρ) := by
  obtain ⟨s₂, s₃, hbefore, hcall, hp, hafter⟩ := h.between hj.gains.wellFormed hlater
  obtain ⟨view, hgains, hat, hextent⟩ := hj.slice_gains hbefore htotal hspec hspan hcall
  obtain ⟨node, hbehind, rfl⟩ := hgains.behind hp
  exact ⟨node, hafter.extends_graph.behind hbehind, hat, hextent⟩

/-- The front has the extent of the first operand. -/
theorem front_issued (hlater : ∀ command ∈ later, command.Integral)
    (h : s₁.Issues later (.front s.issued.length axis a.rank left) p) :
    ∃ node, (s₁.run later).graph.Behind p node ∧ ∀ ρ, 0 ≤ right.value ρ →
      node.view.extent ρ = x.view.extent ρ ∧
      node.view.shown[axis]?.map (AxisRange.concrete ρ) =
        some ⟨0, .int (left.value ρ), false⟩ := by
  obtain ⟨total, htotal, htotali, hvalue⟩ := hj.size_at
  have hspec : (RangeSpec.ending (.size left) false).Integral := ⟨trivial, hj.left_integral⟩
  obtain ⟨node, hbehind, hat, hextent⟩ := hj.slice_issued hlater htotal hspec rfl h
  refine ⟨node, hbehind, fun ρ hright => ?_⟩
  obtain ⟨hfront, _⟩ := hj.concrete_parts htotali (hvalue ρ) hright
  obtain ⟨_, hget⟩ := List.getElem?_eq_some_iff.mp (hj.first_at ρ)
  have hkept : left.value ρ - 0 = left.value ρ := Int.sub_zero _
  constructor
  · rw [hextent, AxisRange.extent_of_concrete hfront]
    show (x.view.extent ρ).set axis (left.value ρ - 0) = _
    rw [hkept, ← hget, List.set_getElem_self]
  · rw [hat, Option.map_some, hfront]

/-- The back has the same extent but for the length of the second operand. -/
theorem back_issued (hlater : ∀ command ∈ later, command.Integral)
    (h : s₁.Issues later (.back s.issued.length axis a.rank left) p) :
    ∃ node, (s₁.run later).graph.Behind p node ∧ ∀ ρ, 0 ≤ right.value ρ →
      node.view.extent ρ = (x.view.extent ρ).set axis (right.value ρ) ∧
      node.view.shown[axis]?.map (AxisRange.concrete ρ) =
        some ⟨.int (left.value ρ), .int (left.value ρ + right.value ρ), false⟩ := by
  obtain ⟨total, htotal, htotali, hvalue⟩ := hj.size_at
  have hspec : (RangeSpec.starting (.size left)).Integral := ⟨hj.left_integral, trivial⟩
  obtain ⟨node, hbehind, hat, hextent⟩ := hj.slice_issued hlater htotal hspec rfl h
  refine ⟨node, hbehind, fun ρ hright => ?_⟩
  obtain ⟨_, hback⟩ := hj.concrete_parts htotali (hvalue ρ) hright
  have hlength : left.value ρ + right.value ρ - left.value ρ = right.value ρ := by omega
  constructor
  · rw [hextent, AxisRange.extent_of_concrete hback, hlength]
  · rw [hat, Option.map_some, hback]

/-- **The two slices show what was joined**, in every resolution in which the recorded
equalities are checked. -/
theorem parts_shown {joint : Tensor} (hjoint : s₁.issued.getLast? = some joint)
    (hlater : ∀ command ∈ later, command.Integral)
    (hp : s₁.Issues later (.front s.issued.length axis a.rank left) p)
    (hq : s₁.Issues later (.back s.issued.length axis a.rank left) q)
    (hcheck : (s₁.run later).graph.settings.checkObligations = true)
    (hresolved : ((s₁.run later).graph.resolve options).outcome = .ok resolved) :
    ∃ first second whole front back, resolved.view a.id = .ok first ∧
      resolved.view b.id = .ok second ∧ resolved.view joint.id = .ok whole ∧
      resolved.view p.id = .ok front ∧ resolved.view q.id = .ok back ∧
      ResolvedNode.Parted axis first second whole front back := by
  have hlater₁ := run_later hj.gains.wellFormed hlater
  have hlater₀ := hlater₁.trans hj.gains.later
  have hfinal := Later.refl hlater₁.wellFormed
  obtain ⟨hb, hall⟩ := Graph.resolve_ok hlater₁.wellFormed.graph hcheck hresolved
  obtain ⟨ρ, hρ⟩ : ∃ ρ, resolved.bindings.Agrees ρ := ⟨_, hb.agrees_completed fun _ => 0⟩
  obtain ⟨_, hright⟩ := hj.lengths_nonneg hlater₀ hresolved hρ
  -- the second operand agrees with the first one, as the recorded equalities hold
  have hagree := hj.agree ρ (hlater₁.extends_graph.holds ρ (hall ρ hρ).1)
  obtain ⟨z, hz, hview⟩ := hj.gains.behind hjoint
  obtain ⟨v, hv, hfront⟩ := hj.front_issued hlater hp
  obtain ⟨w, hw, hback⟩ := hj.back_issued hlater hq
  obtain ⟨hvextent, hvat⟩ := hfront ρ hright
  obtain ⟨hwextent, hwat⟩ := hback ρ hright
  obtain ⟨⟨first, hfirst, hxs⟩, _⟩ := hlater₀.behind_shown hj.first.behind hresolved hρ
  obtain ⟨⟨second, hsecond, hys⟩, _⟩ := hlater₀.behind_shown hj.second.behind hresolved hρ
  obtain ⟨⟨whole, hwhole, hzs⟩, _⟩ := hlater₁.behind_shown hz hresolved hρ
  obtain ⟨⟨front, hf, hvs⟩, _⟩ := hfinal.behind_shown hv hresolved hρ
  obtain ⟨⟨back, hbk, hws⟩, _⟩ := hfinal.behind_shown hw hresolved hρ
  obtain ⟨total, htotal, _, hvalue⟩ := hj.size_at
  refine ⟨first, second, whole, front, back, hfirst, hsecond, hwhole, hf, hbk, ?_, ?_,
    left.value ρ, left.value ρ + right.value ρ, ?_, ?_, ?_⟩
  · rw [ResolvedNode.shape_of_shown hvs, ResolvedNode.shape_of_shown hxs, hvextent]
  · rw [ResolvedNode.shape_of_shown hws, ResolvedNode.shape_of_shown hys, hwextent, hagree]
  · rw [ResolvedNode.range_of_shown hvs, hvat]
  · rw [ResolvedNode.range_of_shown hws, hwat]
  · rw [ResolvedNode.range_of_shown hzs, hview, hj.shown_at htotal, ← hvalue]
    rfl

end Joins

end

/-- **Slicing undoes joining.**  A tensor that has been joined along an axis, whatever calls
have come before, is cut on it at the tracked length of the first operand.  At any later
time both slices are accepted if the graph resolves; and wherever they have been called, in
every resolution with checked equalities they have the shapes of the two operands, and their
ranges on the axis meet and cover the whole of it. -/
theorem concat_parted {id : Nat} {settings : GraphSettings} {before later : List Command}
    {i j : Nat} {number : Number} {s s₁ s₂ : Session} {a b joint : Tensor} {axis : Nat}
    {lengths : List Size} {length : Size} {options : ResolveOptions} {resolved : ResolvedGraph}
    (hbefore : ∀ command ∈ before, command.Integral)
    (hlater : ∀ command ∈ later, command.Integral)
    (hcheck : settings.checkObligations = true) (hs : (start id settings).run before = s)
    (hi : s.issued[i]? = some a) (hj : s.issued[j]? = some b)
    (hjoin : s.extend (.concat i j number) = .ok s₁) (hjoint : s₁.issued.getLast? = some joint)
    (haxis : Axis.position "concat" number a.rank = .ok axis)
    (hlengths : s.graph.lengths a = .ok lengths) (hlength : lengths[axis]? = some length)
    (hs₂ : s₁.run later = s₂) (hresolved : (s₂.graph.resolve options).outcome = .ok resolved)
    (hrun : Exact fun _ => (start id settings).run before)
    (hcall : Exact fun _ => s.extend (.concat i j number))
    (hread : Exact fun _ => s.graph.lengths a) (hrun' : Exact fun _ => s₁.run later)
    (hresolve : Exact fun _ => (s₂.graph.resolve options).outcome) :
    ((Exact fun _ => s₂.extend (.front s.issued.length axis a.rank length)) →
      ∃ s₃, s₂.extend (.front s.issued.length axis a.rank length) = .ok s₃) ∧
    ((Exact fun _ => s₂.extend (.back s.issued.length axis a.rank length)) →
      ∃ s₃, s₂.extend (.back s.issued.length axis a.rank length) = .ok s₃) ∧
    ∀ p q, s₁.Issues later (.front s.issued.length axis a.rank length) p →
      s₁.Issues later (.back s.issued.length axis a.rank length) q →
      (Exact fun _ => s₁.Issues later (.front s.issued.length axis a.rank length) p) →
      (Exact fun _ => s₁.Issues later (.back s.issued.length axis a.rank length) q) →
        ∃ first second whole front back, resolved.view a.id = .ok first ∧
          resolved.view b.id = .ok second ∧ resolved.view joint.id = .ok whole ∧
          resolved.view p.id = .ok front ∧ resolved.view q.id = .ok back ∧
          ResolvedNode.Parted axis first second whole front back := by
  have hstart := @run_later Arithmetic.unbounded _ _ (start_wellFormed id settings) _ hbefore
  rw [show @run Arithmetic.unbounded (start id settings) before = s from hrun.symm.trans hs]
    at hstart
  obtain ⟨a', b', x, y, position, lengths', left, right, sizes, ha', hb', hposition, hleft, hl,
    hjoins⟩ := @extend_concat Arithmetic.unbounded _ _ _ hstart.wellFormed _ _ _
      (hcall.symm.trans hjoin)
  obtain rfl := Option.some.inj (hi.symm.trans ha')
  obtain rfl := Option.some.inj (hj.symm.trans hb')
  obtain rfl := Except.ok.inj (haxis.symm.trans hposition)
  obtain rfl := Except.ok.inj ((hread.symm.trans hlengths).symm.trans hleft)
  obtain rfl := Option.some.inj (hlength.symm.trans hl)
  have hs₂' : @run Arithmetic.unbounded s₁ later = s₂ := hrun'.symm.trans hs₂
  have hgrown := @run_later Arithmetic.unbounded _ _ hjoins.gains.wellFormed _ hlater
  have hresolved' := hresolve.symm.trans hresolved
  have hchecked : s₂.graph.settings.checkObligations = true := by
    rw [← hs₂', (hgrown.trans (hjoins.gains.later.trans hstart)).extends_graph.settings_eq]
    exact hcheck
  rw [hs₂'] at hgrown
  obtain ⟨hfront, hback⟩ := @Joins.parts_succeed _ _ _ _ _ _ _ _ _ _ _ _ _ Arithmetic.unbounded _
    hjoins hgrown hresolved'
  refine ⟨fun hexact => ?_, fun hexact => ?_, fun p q hp hq hexact hexact' => ?_⟩
  · obtain ⟨s₃, hs₃⟩ := hfront
    exact ⟨s₃, hexact.trans hs₃⟩
  · obtain ⟨s₃, hs₃⟩ := hback
    exact ⟨s₃, hexact.trans hs₃⟩
  · rw [← hs₂'] at hchecked hresolved'
    exact @Joins.parts_shown _ _ _ _ _ _ _ _ _ _ _ _ _ _ _ Arithmetic.unbounded _ hjoins _ hjoint
      hlater (hexact.mp hp) (hexact'.mp hq) hchecked hresolved'

/-- Two tables of four columns, of which the second does not say so. -/
def tables : Session where
  graph :=
    { id := 0
      settings := ⟨"graph", true, none⟩
      nodes := [
        ⟨0, .input, [], [.dynamic "n", .constant 4], .contiguous [.symbol "n", .literal 4], [],
          some "x", none⟩,
        ⟨1, .input, [], [.dynamic "m", .dynamic "k"], .contiguous [.symbol "m", .symbol "k"], [],
          some "y", none⟩]
      obligations := []
      journal := ["%0 = input [n, 4]", "%1 = input [m, k]"] }
  issued := [⟨0, [.dynamic "n", .constant 4], 0⟩, ⟨1, [.dynamic "m", .dynamic "k"], 0⟩]

/-- The rows of both. -/
def allRows : Size :=
  .binary .add (.symbol "n") (.symbol "m")

/-- The second table put below the first one. -/
def joined : Session where
  graph :=
    { tables.graph with
      nodes := tables.graph.nodes ++ [
        ⟨2, .concat, [0, 1], [.dynamic "-", .constant 4], .contiguous [allRows, .literal 4],
          [("axis", .number 0)], none, none⟩]
      obligations := [⟨2, "concat", "axis 1", .literal 4, .symbol "k"⟩]
      journal := tables.graph.journal ++
        ["%2 = concat [-, 4]", "obligation on %2: 4 == k (concat, axis 1)"] }
  issued := tables.issued ++ [⟨2, [.dynamic "-", .constant 4], 0⟩]

/-- The rows of some span of it, with all columns. -/
def rowsOf (start stop : Size) : View :=
  ⟨[⟨start, stop, allRows, false⟩, .whole (.literal 4) false], [0, 1]⟩

/-- The first table cut out of it again. -/
def headed : Session where
  graph :=
    { joined.graph with
      nodes := joined.graph.nodes ++ [
        ⟨3, .slice, [2], [.dynamic "-", .constant 4],
          rowsOf .zero (.binary .min (.symbol "n") allRows),
          [("ranges", .list [.text "[0, n)", .text "[0, 4)"])], none, none⟩]
      journal := joined.graph.journal ++ ["%3 = slice [-, 4]"] }
  issued := joined.issued ++ [⟨3, [.dynamic "-", .constant 4], 0⟩]

/-- And then the second one. -/
def parted : Session where
  graph :=
    { headed.graph with
      nodes := headed.graph.nodes ++ [
        ⟨4, .slice, [2], [.dynamic "-", .constant 4], rowsOf (.symbol "n") allRows,
          [("ranges", .list [.text "[n, (n + m))", .text "[0, 4)"])], none, none⟩]
      journal := headed.graph.journal ++ ["%4 = slice [-, 4]"] }
  issued := headed.issued ++ [⟨4, [.dynamic "-", .constant 4], 0⟩]

/-- With three rows in the first table and two in the second one. -/
def partedSizes : ResolvedGraph where
  bindings := [("n", 3), ("m", 2), ("k", 4)]
  nodes := [
    ⟨0, .input, [3, 4], [⟨0, 3, false⟩, ⟨0, 4, false⟩], [0, 1], none⟩,
    ⟨1, .input, [2, 4], [⟨0, 2, false⟩, ⟨0, 4, false⟩], [0, 1], none⟩,
    ⟨2, .concat, [5, 4], [⟨0, 5, false⟩, ⟨0, 4, false⟩], [0, 1], none⟩,
    ⟨3, .slice, [3, 4], [⟨0, 3, false⟩, ⟨0, 4, false⟩], [0, 1], none⟩,
    ⟨4, .slice, [2, 4], [⟨3, 5, false⟩, ⟨0, 4, false⟩], [0, 1], none⟩]

/-- The calls that cut the one and then the other. -/
def cuts : List Command :=
  [.front 2 0 2 (.symbol "n"), .back 2 0 2 (.symbol "n")]

/-- The two cuts have the shapes of the tables, and their rows meet and cover all rows. -/
theorem concat_parted_tables :
    joined.run cuts = parted ∧
      ∃ first second whole front back, partedSizes.view 0 = .ok first ∧
        partedSizes.view 1 = .ok second ∧ partedSizes.view 2 = .ok whole ∧
        partedSizes.view 3 = .ok front ∧ partedSizes.view 4 = .ok back ∧
        ResolvedNode.Parted 0 first second whole front back := by
  have hrun : (start 0 ⟨"graph", true, none⟩).run [.newTensor "x" [.dynamic "n", .constant 4],
      .newTensor "y" [.dynamic "m", .dynamic "k"]] = tables := rfl
  have hjoin : tables.extend (.concat 0 1 0) = .ok joined := rfl
  have hlengths : tables.graph.lengths ⟨0, [.dynamic "n", .constant 4], 0⟩ =
      .ok [.symbol "n", .literal 4] := rfl
  have hcuts : ∀ command ∈ cuts, command.Integral := by
    rw [cuts, List.forall_mem_cons, List.forall_mem_singleton]
    exact ⟨Command.front_integral trivial, Command.back_integral trivial⟩
  have hparted : joined.run cuts = parted := rfl
  have hresolved : (parted.graph.resolve
      ⟨[], [("x", ⟨[3, 4], none⟩), ("y", ⟨[2, 4], none⟩)]⟩).outcome = .ok partedSizes := rfl
  have hfront : joined.Issues cuts (.front 2 0 2 (.symbol "n"))
      ⟨3, [.dynamic "-", .constant 4], 0⟩ :=
    ⟨[], [.back 2 0 2 (.symbol "n")], headed, rfl, rfl, rfl⟩
  have hback : joined.Issues cuts (.back 2 0 2 (.symbol "n"))
      ⟨4, [.dynamic "-", .constant 4], 0⟩ :=
    ⟨[.front 2 0 2 (.symbol "n")], [], parted, rfl, rfl, rfl⟩
  obtain ⟨_, _, hshown⟩ := concat_parted (by simp [Command.Integral]) hcuts rfl hrun rfl rfl hjoin
    rfl rfl hlengths rfl hparted hresolved (.of_eq tables hrun rfl) (.of_eq _ hjoin rfl)
    (.of_eq _ hlengths rfl) (.of_eq parted hparted rfl) (.of_eq _ hresolved rfl)
  exact ⟨hparted, hshown _ _ hfront hback
    (.of_eq True (eq_true hfront) (eq_true ⟨[], _, headed, rfl, rfl, rfl⟩))
    (.of_eq True (eq_true hback)
      (eq_true ⟨[.front 2 0 2 (.symbol "n")], [], parted, rfl, rfl, rfl⟩))⟩

end Session

end ShapeGraph
