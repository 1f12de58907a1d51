import ShapeGraph.Proofs.Graph.Gain
import ShapeGraph.Proofs.Resolution.Sizes

/-!
# Expansions of single elements

Two elements of one axis of a tensor are sliced out of it, and each is expanded to the same
shape.  The slices differ in where the axis starts and in nothing else, so the expansions
are resolved to the same view exactly if the axis is repeated in both of them.

* `mapAxes_alike` — slices that differ on one axis only have spans that do;
* `Session.Gains.shows` — what a call has gained is shown by a resolved node;
* `Session.WellFormed.elements_alike` — the views of two elements;
* `Session.WellFormed.elements_same_iff`, `Session.widening_forgets` — when their
  expansions cannot be told apart.
-/

namespace ShapeGraph

open ShapeGraph.Numeric (Arithmetic Exact Number Unbounded)

/-! ## Elements of an axis -/

/-- The range that keeps a single element of an axis. -/
def RangeSpec.element (i : Int) : RangeSpec :=
  .within (.number (.int i)) (.number (.int (i + 1))) false

/-- The span of a single element. -/
def Span.element (i : Int) : Span :=
  ⟨.literal (.int i), .literal (.int (i + 1))⟩

section

variable [Arithmetic]

/-- The range of a single element comes to the span of that element. -/
theorem RangeSpec.span_element {i : Int} {size : Option Size} {sentinel : Number} {span : Span}
    (h : (element i).span size sentinel = .ok span) :
    span = .element i := by
  simp only [RangeSpec.span, bind_eq_ok, pure_eq_ok] at h
  obtain ⟨start, hstart, stop, hstop, rfl⟩ := h
  have hstart : Size.ofNumber (.int i) = .ok start := hstart
  have hstop : Size.ofNumber (.int (i + 1)) = .ok stop := hstop
  simp only [Size.ofNumber, ite_ok_eq_ok] at hstart hstop
  obtain ⟨_, rfl⟩ := hstart
  obtain ⟨_, rfl⟩ := hstop
  rfl

/-- Specifications that differ on one axis only have spans that differ there only. -/
theorem mapAxes_alike {sentinel : Number} {dims : Shape} {specs others : List RangeSpec}
    {lengths : List Size} {first second : SliceMapping} (hcount : lengths.length = dims.length)
    (hfirst : mapAxes sentinel dims specs (lengths.map some) = .ok first)
    (hsecond : mapAxes sentinel dims others (lengths.map some) = .ok second) {axis : Nat}
    (hspecs : ∀ k ≠ axis, specs[k]? = others[k]?) :
    ∀ k ≠ axis, first.spans[k]? = second.spans[k]? := by
  intro k hk
  obtain ⟨hlength, hmapped⟩ := mapAxes_at hcount hfirst k
  obtain ⟨hlength', hmapped'⟩ := mapAxes_at hcount hsecond k
  cases hheld : lengths[k]? with
  | none =>
      have hle := List.getElem?_eq_none_iff.mp hheld
      rw [List.getElem?_eq_none (by omega), List.getElem?_eq_none (by omega)]
  | some length =>
      obtain ⟨span, hspan, hmeant⟩ := hmapped length hheld
      obtain ⟨span', hspan', hmeant'⟩ := hmapped' length hheld
      rw [hspecs k hk] at hmeant
      rw [hspan, hspan', Except.ok.inj (hmeant.symm.trans hmeant')]

/-- Different elements of a range start at different places. -/
theorem View.narrow_element_ne [Unbounded] {range : AxisRange} (h : range.Integral) {i j : Int}
    (hij : i ≠ j) (ρ : Valuation) :
    (narrow range (.element i)).concrete ρ ≠ (narrow range (.element j)).concrete ρ := by
  intro heq
  have hstart := Number.int.inj (congrArg ConcreteRange.start heq)
  have hsum := fun n : Int => (Size.add_means h.start.means (Size.means_int n)).value_eq ρ
  have hfirst : (narrow range (.element i)).start.value ρ = range.start.value ρ + i := hsum i
  have hsecond : (narrow range (.element j)).start.value ρ = range.start.value ρ + j := hsum j
  omega

end

/-! ## Two elements, expanded -/

/-- The view that a resolved node shows. -/
def ResolvedNode.shown (node : ResolvedNode) : ResolvedView :=
  ⟨node.shape, node.ranges, node.order⟩

/-- What a resolved node shows is the view that it has been resolved to. -/
theorem ResolvedNode.Shows.shown_eq {node : ResolvedNode} {view : ResolvedView}
    (h : node.Shows view) : node.shown = view := by
  rw [shown, h.shape_eq, h.ranges_eq, h.order_eq]

namespace Session

section

variable [Arithmetic] [Unbounded] {s s' s'' : Session}

/-- What has been gained is shown by the resolved node of its place, whatever comes later. -/
theorem Gains.shows {view : View} (h : s.Gains s' view) (hs'' : s''.WellFormed)
    (hext : s''.graph.Extends s'.graph) {options : ResolveOptions} {resolved : ResolvedGraph}
    (hresolved : (s''.graph.resolve options).outcome = .ok resolved) {ρ : Valuation}
    (hρ : resolved.bindings.Agrees ρ) : ∃ x, resolved.view (.ofNat s.graph.size) = .ok x ∧
      x.shown = view.concrete ρ := by
  obtain ⟨_, node, _, _, hnode, rfl⟩ := h.issued
  obtain ⟨⟨x, hx, hshows⟩, _⟩ :=
    (Graph.resolve_shows hs''.graph hresolved).2 ρ hρ _ node (hext.nodes _ node hnode)
  exact ⟨x, hx, hshows.shown_eq⟩

/-- Two elements of one axis of a tensor, each sliced out of it and then expanded. -/
def elements (s : Session) (place : Nat) (specs : List RangeSpec) (axis : Nat) (i j : Int)
    (target : Shape) : List Command :=
  [.slice place (specs.set axis (.element i)), .slice place (specs.set axis (.element j)),
    .expandTo s.issued.length target, .expandTo (s.issued.length + 1) target]

omit [Arithmetic] [Unbounded] in
/-- A range of a single element is one of integers, like the others. -/
theorem element_integral {specs : List RangeSpec} (hspecs : ∀ spec ∈ specs, spec.Integral)
    (axis : Nat) (i : Int) : ∀ spec ∈ specs.set axis (.element i), spec.Integral := by
  intro spec hspec
  rcases List.mem_or_eq_of_mem_set hspec with hold | rfl
  · exact hspecs spec hold
  · exact ⟨trivial, trivial⟩

omit [Unbounded] in
/-- A slice that keeps a single element of an axis narrows the axis to it. -/
theorem slice_element {t : Tensor} {node : Node} (hop : s.graph.Operand t node)
    {specs : List RangeSpec} {axis : Nat} (haxis : axis < specs.length) {i : Int}
    {mapping : SliceMapping} {view : View} (hmapping : mapAxes defaultSentinel t.shape
      (specs.set axis (.element i)) ((node.view.shown.map AxisRange.length).map some) =
        .ok mapping) (hview : node.view.slice mapping.spans = .ok view) {range : AxisRange}
    (hrange : node.view.shown[axis]? = some range) :
    view.shown[axis]? = some (View.narrow range (.element i)) := by
  obtain ⟨span, hmeant, hshown⟩ := slice_shown hop hmapping hview hrange
  rw [List.getElem?_set_self haxis, Option.getD_some] at hmeant
  rw [hshown, RangeSpec.span_element hmeant]

/-- Two elements of an axis have views that are alike but for that axis, where they are
narrowed to different elements of one range. -/
theorem WellFormed.elements_alike (hs : s.WellFormed) {place : Nat} {t : Tensor}
    (ht : s.issued[place]? = some t) {specs : List RangeSpec}
    (hspecs : ∀ spec ∈ specs, spec.Integral) {axis : Nat} (haxis : axis < specs.length)
    {i j : Int} (h : s.extend (.slice place (specs.set axis (.element i))) = .ok s')
    (h' : s'.extend (.slice place (specs.set axis (.element j))) = .ok s'') :
    ∃ node range v w, s.graph.Operand t node ∧ node.view.shown[axis]? = some range ∧
      v.rank = t.rank ∧ v.AlikeBut axis w ∧
      v.shown[axis]? = some (View.narrow range (.element i)) ∧
      w.shown[axis]? = some (View.narrow range (.element j)) ∧ s.Gains s' v ∧ s'.Gains s'' w := by
  obtain ⟨t₁, node, first, v, ht₁, hop, hcount, hfirst, _, hv, hgain⟩ :=
    extend_slice hs (element_integral hspecs axis i) h
  obtain rfl := Option.some.inj (ht.symm.trans ht₁)
  obtain ⟨t₂, node₂, second, w, ht₂, hop₂, _, hsecond, _, hw, hgain₂⟩ :=
    extend_slice hgain.wellFormed (element_integral hspecs axis j) h'
  obtain ⟨rfl, rfl⟩ := hgain.unchanged ht hop.behind ht₂ hop₂.behind
  have hlength : node₂.view.shown.length = t₂.rank := hop.wellFormed.length_shown.trans hop.rank_eq
  have hlt : axis < node₂.view.shown.length := by
    rw [List.length_set] at hcount
    omega
  have hrange := List.getElem?_eq_getElem hlt
  have halike := mapAxes_alike ((List.length_map _).trans hlength) hfirst hsecond fun k hk => by
    rw [List.getElem?_set_ne (Ne.symm hk), List.getElem?_set_ne (Ne.symm hk)]
  exact ⟨node₂, _, v, w, hop, hrange, (View.slice_ok hop.wellFormed hv).2.1.trans hop.rank_eq,
    View.slice_alike hop.wellFormed hv hw halike, slice_element hop haxis hfirst hv hrange,
    slice_element hop₂ haxis hsecond hw hrange, hgain, hgain₂⟩

/-- **Expansions of two elements of an axis** are resolved to the same view just if both
repeat the axis. -/
theorem WellFormed.elements_same_iff (hs : s.WellFormed) {place : Nat} {t : Tensor}
    (ht : s.issued[place]? = some t) {specs : List RangeSpec}
    (hspecs : ∀ spec ∈ specs, spec.Integral) {axis : Nat} (haxis : axis < specs.length)
    (hread : ∀ view range, s.graph.view t = .ok view → view.axisAt axis = .ok range →
      range.broadcast = false) {i j : Int} (hij : i ≠ j) {target : Shape}
    (h : s.build (s.elements place specs axis i j target) = .ok s') {options : ResolveOptions}
    {resolved : ResolvedGraph} (hresolved : (s'.graph.resolve options).outcome = .ok resolved) :
    ∃ x y, resolved.view (.ofNat (s.graph.size + 2)) = .ok x ∧
      resolved.view (.ofNat (s.graph.size + 3)) = .ok y ∧
      (x.shown = y.shown ↔ x.shown.Repeats (target.length - t.rank + axis) ∧
        y.shown.Repeats (target.length - t.rank + axis)) := by
  simp only [elements, build, bind_eq_ok] at h
  obtain ⟨s₁, hs₁, s₂, hs₂, s₃, hs₃, s₄, hs₄, h⟩ := h
  obtain rfl := Except.ok.inj h
  obtain ⟨node, range, v, w, hop, hrange, hrank, halike, hv, hw, hgain₁, hgain₂⟩ :=
    hs.elements_alike ht hspecs haxis hs₁ hs₂
  obtain ⟨t₃, first, a, ht₃, hop₃, ha, hgain₃⟩ := extend_expandTo hgain₂.wellFormed hs₃
  obtain ⟨t₄, second, b, ht₄, hop₄, hb, hgain₄⟩ := extend_expandTo hgain₃.wellFormed hs₄
  -- the operands of the expansions are the two slices
  obtain ⟨_, _, hhandle, hbehind, rfl⟩ := hgain₁.handle
  obtain ⟨rfl, rfl⟩ := hgain₂.unchanged hhandle hbehind ht₃ hop₃.behind
  obtain ⟨_, _, hhandle', hbehind', rfl⟩ := hgain₂.handle
  rw [hgain₁.length_issued] at hhandle'
  obtain ⟨rfl, rfl⟩ := hgain₃.unchanged hhandle' hbehind' ht₄ hop₄.behind
  have hunread : range.broadcast = false :=
    hread node.view _ hop.behind.view_eq ((View.axisAt_eq_ok hop.wellFormed).mpr hrange)
  have hρ := (Graph.resolve_shows hgain₄.wellFormed.graph hresolved).1.agrees_completed fun _ => 0
  have hdiffer := View.narrow_element_ne (hop.integral.of_mem_shown (List.mem_of_getElem? hrange))
    hij (resolved.bindings.completed fun _ => 0)
  have hsame := ha.same_iff hop₃.wellFormed hop₃.integral hop₄.wellFormed hop₄.integral halike
    hv hw hunread hunread hdiffer hb
  obtain ⟨x, hx, hxa⟩ := hgain₃.shows hgain₄.wellFormed hgain₄.extends_graph hresolved hρ
  obtain ⟨y, hy, hyb⟩ := hgain₄.shows hgain₄.wellFormed (.refl _) hresolved hρ
  rw [hgain₂.size_eq, hgain₁.size_eq] at hx
  rw [hgain₃.size_eq, hgain₂.size_eq, hgain₁.size_eq] at hy
  refine ⟨x, y, hx, hy, ?_⟩
  rw [hxa, hyb, ← hrank]
  exact hsame

end

/-- **Widening forgets the element that is widened.**  Repeating an axis of length one
makes the same view of views that differ only in where that axis starts; and two
different elements of an axis, each sliced out of one tensor and expanded to one shape,
are resolved to the same view just if both expansions repeat the axis, so to different
views only where one of them leaves it as it is. -/
theorem widening_forgets {v w : View} {repeated : Nat} {number : Number} {size : Quantity}
    {extent : Size} {id : Nat} {settings : GraphSettings} {commands : List Command}
    {s s' : Session} {place axis : Nat} {t : Tensor} {specs : List RangeSpec} {i j : Int}
    {target : Shape} {options : ResolveOptions} {resolved : ResolvedGraph} :
    (v.Shifted repeated w → Axis.position "expand" number v.rank = .ok repeated →
      size.toSize = .ok extent → extent.Integral →
        ∃ u, v.broadcastAxis number size = .ok u ∧ w.broadcastAxis number size = .ok u ∧
          u.same u = true) ∧
    ((∀ command ∈ commands, command.Integral) → (∀ spec ∈ specs, spec.Integral) →
      (start id settings).run commands = s → s.issued[place]? = some t → axis < specs.length →
      (∀ view range, s.graph.view t = .ok view → view.axisAt axis = .ok range →
        range.broadcast = false) →
      i ≠ j → s.build (s.elements place specs axis i j target) = .ok s' →
      (s'.graph.resolve options).outcome = .ok resolved →
      (Exact fun _ => (start id settings).run commands) →
      (Exact fun _ => s.build (s.elements place specs axis i j target)) →
      (Exact fun _ => (s'.graph.resolve options).outcome) →
        ∃ x y, resolved.view (.ofNat (s.graph.size + 2)) = .ok x ∧
          resolved.view (.ofNat (s.graph.size + 3)) = .ok y ∧
          (x.shown = y.shown ↔ x.shown.Repeats (target.length - t.rank + axis) ∧
            y.shown.Repeats (target.length - t.rank + axis))) := by
  constructor
  · intro hshifted hposition hsize hextent
    exact hshifted.broadcastAxis_ok hposition hsize hextent
  · intro hcommands hspecs hs ht haxis hread hij hbuild hresolved hrun hcalls hresolve
    obtain ⟨hwell, _⟩ := @run_wellFormed Arithmetic.unbounded _ _ _
      (start_wellFormed id settings) hcommands
    have hstart : @run Arithmetic.unbounded (start id settings) commands = s := hrun.symm.trans hs
    rw [hstart] at hwell
    exact @WellFormed.elements_same_iff Arithmetic.unbounded _ _ _ hwell _ _ ht _ hspecs _ haxis
      hread _ _ hij _ (hcalls.symm.trans hbuild) _ _ (hresolve.symm.trans hresolved)

/-- An input of four rows. -/
def fourRows : Session where
  graph :=
    { id := 0
      settings := ⟨"graph", true, none⟩
      nodes := [⟨0, .input, [], [.constant 4], .contiguous [.literal 4], [], some "x", none⟩]
      obligations := []
      journal := ["%0 = input [4]"] }
  issued := [⟨0, [.constant 4], 0⟩]

/-- Rows one and three of it, expanded to a shape whose axis has the given ranges. -/
def twoRows (shape : Shape) (first second : AxisRange) : Session where
  graph :=
    { id := 0
      settings := ⟨"graph", true, none⟩
      nodes := [
        ⟨0, .input, [], [.constant 4], .contiguous [.literal 4], [], some "x", none⟩,
        ⟨1, .slice, [0], [.dynamic "-"], .rowOf4 1, [("ranges", .list [.text "[1, 2)"])], none,
          none⟩,
        ⟨2, .slice, [0], [.dynamic "-"], .rowOf4 3, [("ranges", .list [.text "[3, 4)"])], none,
          none⟩,
        ⟨3, .expand, [1], shape, ⟨[first], [0]⟩, [("target", .text shape.text)], none, none⟩,
        ⟨4, .expand, [2], shape, ⟨[second], [0]⟩, [("target", .text shape.text)], none, none⟩]
      obligations := []
      journal := ["%0 = input [4]", "%1 = slice [-]", "%2 = slice [-]",
        "%3 = expand " ++ shape.text, "%4 = expand " ++ shape.text] }
  issued := [⟨0, [.constant 4], 0⟩, ⟨1, [.dynamic "-"], 0⟩, ⟨2, [.dynamic "-"], 0⟩,
    ⟨3, shape, 0⟩, ⟨4, shape, 0⟩]

/-- What these are resolved to. -/
def twoRowSizes (size : Number) (first second : ConcreteRange) : ResolvedGraph where
  bindings := []
  nodes := [
    ⟨0, .input, [4], [⟨0, 4, false⟩], [0], none⟩,
    ⟨1, .slice, [1], [⟨1, 2, false⟩], [0], none⟩,
    ⟨2, .slice, [1], [⟨3, 4, false⟩], [0], none⟩,
    ⟨3, .expand, [size], [first], [0], none⟩,
    ⟨4, .expand, [size], [second], [0], none⟩]

/-- An input of four rows is the only node of its session. -/
theorem fourRows_run :
    (start 0 ⟨"graph", true, none⟩).run [.newTensor "x" [.constant 4]] = fourRows := rfl

/-- Repeated five times, rows one and three are the same view.  Expanded to length one,
which does not repeat them, they stay apart. -/
theorem widening_forgets_rows :
    (∃ u, (View.rowOf4 1).broadcastAxis 0 (.number 5) = .ok u ∧
      (View.rowOf4 3).broadcastAxis 0 (.number 5) = .ok u ∧ u.same u = true) ∧
    ∃ x y, (twoRowSizes 1 ⟨1, 2, false⟩ ⟨3, 4, false⟩).view 3 = .ok x ∧
      (twoRowSizes 1 ⟨1, 2, false⟩ ⟨3, 4, false⟩).view 4 = .ok y ∧ x.shown ≠ y.shown := by
  have hread : ∀ view range, fourRows.graph.view ⟨0, [.constant 4], 0⟩ = .ok view →
      view.axisAt 0 = .ok range → range.broadcast = false := by
    intro view range hview hrange
    obtain rfl := Except.ok.inj hview
    obtain rfl := Except.ok.inj hrange
    rfl
  have hbuild : fourRows.build (fourRows.elements 0 [.full] 0 1 3 [.constant 1]) =
      .ok (twoRows [.constant 1] ⟨.literal 1, .literal 2, .literal 4, false⟩
        ⟨.literal 3, .literal 4, .literal 4, false⟩) := rfl
  have hresolved : ((twoRows [.constant 1] ⟨.literal 1, .literal 2, .literal 4, false⟩
      ⟨.literal 3, .literal 4, .literal 4, false⟩).graph.resolve ⟨[], []⟩).outcome =
        .ok (twoRowSizes 1 ⟨1, 2, false⟩ ⟨3, 4, false⟩) := rfl
  obtain ⟨hviews, hnodes⟩ := @widening_forgets (.rowOf4 1) (.rowOf4 3) 0 0 (.number 5) (.literal 5)
    0 ⟨"graph", true, none⟩ [.newTensor "x" [.constant 4]] fourRows _ 0 0 ⟨0, [.constant 4], 0⟩
    [.full] 1 3 [.constant 1] ⟨[], []⟩ _
  obtain ⟨x, y, hx, hy, hsame⟩ := hnodes (by simp [Command.Integral])
    (by simp [RangeSpec.Integral, RangeSpec.bounds, Bound.Integral]) fourRows_run rfl
    (by decide) hread (by decide) hbuild hresolved
    (.of_eq fourRows rfl rfl) (.of_eq _ hbuild rfl) (.of_eq _ hresolved rfl)
  refine ⟨hviews View.shifted_rows rfl rfl ⟨5, rfl⟩, x, y, hx, hy, fun heq => ?_⟩
  obtain ⟨⟨range, hrange, hrepeats⟩, _⟩ := hsame.mp heq
  obtain rfl := Except.ok.inj hx
  obtain rfl := Option.some.inj hrange
  cases hrepeats

/-- Rows one and three cannot be told apart once they are repeated five times, by the views
themselves or by what their expansions are resolved to. -/
theorem widening_distinct_fails :
    ((View.rowOf4 1).Shifted 0 (View.rowOf4 3) ∧ View.rowOf4 1 ≠ View.rowOf4 3 ∧
      (View.rowOf4 1).broadcastAxis 0 (.number 5) =
        (View.rowOf4 3).broadcastAxis 0 (.number 5)) ∧
    ∃ s resolved x y,
      fourRows.build (fourRows.elements 0 [.full] 0 1 3 [.constant 5]) = .ok s ∧
      (s.graph.resolve ⟨[], []⟩).outcome = .ok resolved ∧ resolved.view 3 = .ok x ∧
      resolved.view 4 = .ok y ∧ x.shown = y.shown := by
  have hbuild : fourRows.build (fourRows.elements 0 [.full] 0 1 3 [.constant 5]) =
      .ok (twoRows [.constant 5] (.whole (.literal 5) true) (.whole (.literal 5) true)) := rfl
  have hresolved : ((twoRows [.constant 5] (.whole (.literal 5) true)
      (.whole (.literal 5) true)).graph.resolve ⟨[], []⟩).outcome =
        .ok (twoRowSizes 5 ⟨0, 5, true⟩ ⟨0, 5, true⟩) := rfl
  have hrepeated : (View.rowOf4 1).broadcastAxis 0 (.number 5) =
      .ok ⟨[.whole (.literal 5) true], [0]⟩ := rfl
  have hrepeated' : (View.rowOf4 3).broadcastAxis 0 (.number 5) =
      .ok ⟨[.whole (.literal 5) true], [0]⟩ := rfl
  exact ⟨⟨View.shifted_rows, by decide, hrepeated.trans hrepeated'.symm⟩, _, _, _, _, hbuild,
    hresolved, rfl, rfl, rfl⟩

end Session

end ShapeGraph
