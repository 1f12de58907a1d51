import ShapeGraph.Proofs.Graph.Description
import ShapeGraph.Proofs.Graph.Joining
import ShapeGraph.Proofs.View.Standing

/-!
# Slices that keep every axis whole

A slice whose specifications are all full keeps every dimension, and asks for each axis by the
span of its whole length.  On a view whose starts are literals no trace is left of that: the
slice is issued on a node of its own, with the same shape and with an equal view.  The ends may
be any terms, with offsets or bounds in them, as long as these are in normal form, and those
of a graph are.

* `mapSlice_full`, `Found.Slice.full` — what such a slice is made of;
* `Session.extend_full` — such a slice succeeds, and shows the view of its operand;
* `Session.slice_full` — after any calls, with nothing rounded.
-/

namespace ShapeGraph

open ShapeGraph.Numeric (Arithmetic Exact Number Unbounded)

/-- No undefined number is made anew in a range of integers. -/
theorem AxisRange.Integral.freshCount_eq {range : AxisRange} (h : range.Integral) :
    range.freshCount = 0 := by
  simp [freshCount, h.start.freshCount_eq, h.stop.freshCount_eq, h.size.freshCount_eq]

/-- Full specifications are full on every axis, listed there or not. -/
theorem RangeSpec.getD_replicate_full (count axis : Nat) :
    (List.replicate count RangeSpec.full)[axis]?.getD .full = .full := by
  rw [List.getElem?_replicate]
  split <;> rfl

section

variable [Arithmetic]

/-- **Full ranges** keep every dimension, and ask for each axis by the span of its whole
length. -/
theorem mapSlice_full {dims : Shape} {lengths : List Size} {count : Nat} {sentinel : Number}
    {mapping : SliceMapping} (hrank : lengths.length = dims.length)
    (h : mapSlice dims (List.replicate count .full) (lengths.map some) sentinel = .ok mapping) :
    mapping.shape = dims ∧ mapping.spans = lengths.map (Span.mk .zero) := by
  simp only [mapSlice, ite_error_eq_ok] at h
  obtain ⟨-, hmapped⟩ := h
  constructor
  · rw [mapAxes_shape hmapped]
    apply List.ext_getElem?
    intro axis
    rw [List.getElem?_mapIdx, RangeSpec.getD_replicate_full]
    cases dims[axis]? <;> rfl
  · apply List.ext_getElem?
    intro axis
    obtain ⟨hcount, hspans⟩ := mapAxes_at hrank hmapped axis
    rw [List.getElem?_map]
    cases hlength : lengths[axis]? with
    | none =>
        rw [List.getElem?_eq_none_iff, ← hcount] at hlength
        exact List.getElem?_eq_none hlength
    | some length =>
        obtain ⟨span, hspan, hfull⟩ := hspans length hlength
        rw [RangeSpec.getD_replicate_full, RangeSpec.span_full] at hfull
        rw [hspan, ← Except.ok.inj hfull]
        rfl

/-- A slice by full ranges is made of the shape and the view of its operand. -/
theorem Found.Slice.full [Unbounded] {g : Graph} {t : Tensor} {count : Nat}
    (found : Found.Slice g t (List.replicate count .full)) (hop : g.Operand t found.node)
    (hranges : ∀ range ∈ found.node.view.shown, range.Integral ∧ range.Normal ∧
      ∃ v, range.start = .literal v) :
    found.mapping.shape = t.shape ∧ found.view = found.node.view := by
  have hlengths : found.lengths = found.node.view.shown.map AxisRange.length :=
    View.eq_of_lengths hop.wellFormed found.lengths_eq
  have hrank : found.lengths.length = t.shape.length := by
    rw [hlengths, List.length_map, hop.wellFormed.length_shown]
    exact hop.rank_eq
  obtain ⟨hshape, hspans⟩ := mapSlice_full hrank found.mapping_eq
  have hview := found.view_eq
  rw [hspans, hlengths] at hview
  exact ⟨hshape, View.slice_eq_self hop.wellFormed hranges hview⟩

end

namespace Session

/-- **A slice by full ranges** succeeds on a view whose starts are literals and whose literal
lengths are not negative.  It issues a handle of the same shape on a node with that view. -/
theorem extend_full [Arithmetic] [Unbounded] {s : Session} (hs : s.Described) {place : Nat}
    {x : Tensor} {node : Node} {lengths : List Size} {count : Nat}
    (hx : s.issued[place]? = some x) (hnode : s.graph.Behind x node)
    (hstarts : ∀ range ∈ node.view.axes, ∃ v, range.start = .literal v)
    (hlengths : node.view.lengths = .ok lengths)
    (hsign : ∀ v, .literal v ∈ lengths → v.lt 0 = false) (hcount : count ≤ x.rank) :
    ∃ s' y node', s.extend (.slice place (List.replicate count .full)) = .ok s' ∧
      s'.issued = s.issued ++ [y] ∧ y.shape = x.shape ∧ s'.graph.Behind y node' ∧
      node'.view = node.view := by
  have hmem := List.mem_of_getElem? hx
  have hop := (hs.issued x hmem).operand_behind hs.graph hnode
  have hcheck : s.graph.check "slice" x = .ok node := Graph.check_eq_ok.mpr hnode
  have hshape := (hs.described x hmem).of_check hcheck
  obtain rfl := View.eq_of_lengths hop.wellFormed hlengths
  have hranges : ∀ range ∈ node.view.shown, range.Integral ∧ range.Normal ∧
      ∃ v, range.start = .literal v := by
    intro range hr
    have hcanonical := hshape.canonical range hr
    have hstart := hstarts range (hop.wellFormed.mem_shown.mp hr)
    exact ⟨hcanonical.integral, hcanonical.normal, hstart⟩
  obtain ⟨s', hextend⟩ :
      ∃ s', s.extend (.slice place (List.replicate count .full)) = .ok s' := by
    apply extend_slice_succeeds hx hop
    · rwa [List.length_replicate]
    · intro axis range hrange
      have hr := List.mem_of_getElem? hrange
      obtain ⟨hi, hn, hstart⟩ := hranges range hr
      rw [RangeSpec.getD_replicate_full]
      refine ⟨_, RangeSpec.span_full range.length defaultSentinel, ?_⟩
      apply View.takes_full_of_literal hi hn hstart
      intro v hv
      exact hsign v (Size.value?_eq_some.mp hv ▸ List.mem_map_of_mem hr)
  obtain ⟨t, found, inputs, ht, hs'⟩ :=
    extend_derives rfl (Build.slice_derives · (List.replicate count .full)) hextend
  obtain rfl := Option.some.inj (hx.symm.trans ht)
  obtain rfl := found.behind.unique hnode
  obtain ⟨hkept, hview⟩ := found.full hop hranges
  have hintegral : found.draft.view.Integral := by
    show found.view.Integral
    rw [hview]
    exact hop.integral
  rw [hs'] at hextend
  exact ⟨_, _, _, hextend, rfl, hkept, s.graph.append_behind inputs hintegral, hview⟩

/-- **A full-range slice is the identity on views.**  After any calls on a graph, a tensor whose
view has literal starts and no negative literal length can be sliced by full ranges, as many as
it has axes or fewer: the slice has the shape of the tensor, on a node with an equal view. -/
theorem slice_full {id : Nat} {settings : GraphSettings} {commands : List Command} {s : Session}
    {place : Nat} {x : Tensor} {node : Node} {lengths : List Size} {count : Nat}
    (hgiven : ∀ command ∈ commands, ∀ size ∈ command.given, size.Made)
    (hs : (start id settings).run commands = s) (hx : s.issued[place]? = some x)
    (hnode : s.graph.Behind x node)
    (hstarts : ∀ range ∈ node.view.axes, ∃ v, range.start = .literal v)
    (hlengths : node.view.lengths = .ok lengths)
    (hsign : ∀ v, .literal v ∈ lengths → v.lt 0 = false) (hcount : count ≤ x.rank)
    (hrun : Exact fun _ => (start id settings).run commands)
    (hread : Exact fun _ => node.view.lengths)
    (hcall : Exact fun _ => s.extend (.slice place (List.replicate count .full))) :
    ∃ s' y node', s.extend (.slice place (List.replicate count .full)) = .ok s' ∧
      s'.issued = s.issued ++ [y] ∧ y.shape = x.shape ∧ s'.graph.Behind y node' ∧
      node'.view.same node.view = true := by
  have hdescribed := described_of_run hgiven hs hrun
  obtain ⟨s', y, node', hextend, hissued, hshape, hbehind, hview⟩ := @extend_full .unbounded _ s
    hdescribed place x node lengths count hx hnode hstarts (hread.symm.trans hlengths) hsign hcount
  refine ⟨s', y, node', hcall.trans hextend, hissued, hshape, hbehind, ?_⟩
  have hintegral : node.view.Integral := by
    have hissued := hdescribed.issued x (List.mem_of_getElem? hx)
    exact (hissued.operand_behind hdescribed.graph hnode).integral
  rw [hview]
  exact View.same_self fun range hr => (hintegral range hr).freshCount_eq

/-- A matrix of six columns, and a window of it. -/
def windowBuilt : Session where
  graph :=
    { id := 0
      settings := ⟨"graph", true, none⟩
      nodes := [
        ⟨0, .input, [], [.dynamic "n", .constant 6], .contiguous [.symbol "n", .literal 6], [],
          some "x", none⟩,
        ⟨1, .slice, [0], [.anonymous, .anonymous],
          ⟨[⟨.literal 2, .symbol "n", .symbol "n", false⟩,
            ⟨.literal 1, .binary .min (.binary .add (.symbol "m") (.literal 4)) (.literal 6),
              .literal 6, false⟩], [0, 1]⟩,
          [("ranges", .list [.text "[2, n)", .text "[1, (m + 4))"])], none, none⟩]
      obligations := []
      journal := ["%0 = input [n, 6]", "%1 = slice [-, -]"] }
  issued := [⟨0, [.dynamic "n", .constant 6], 0⟩, ⟨1, [.anonymous, .anonymous], 0⟩]

/-- The window, sliced by full ranges. -/
def windowWhole : Node where
  id := 2
  kind := .slice
  inputs := [1]
  shape := [.anonymous, .anonymous]
  view := ⟨[⟨.literal 2, .symbol "n", .symbol "n", false⟩,
    ⟨.literal 1, .binary .min (.binary .add (.symbol "m") (.literal 4)) (.literal 6),
      .literal 6, false⟩], [0, 1]⟩
  attributes :=
    [("ranges", .list [.text "[0, (n - 2))", .text "[0, (min((m + 4), 6) - 1))"])]
  name := none
  payload := none

/-- The session with the slice. -/
def windowSliced : Session where
  graph :=
    { windowBuilt.graph with
      nodes := windowBuilt.graph.nodes ++ [windowWhole]
      journal := windowBuilt.graph.journal ++ ["%2 = slice [-, -]"] }
  issued := windowBuilt.issued ++ [⟨2, [.anonymous, .anonymous], 0⟩]

/-- Of a matrix the first two rows and the first column are left out, and of its columns no more
are kept than four after the `m` first ones.  The ends are `n` and `min(m + 4, 6)`, and full
ranges on one axis or both leave them as they are. -/
theorem slice_full_window :
    let commands : List Command := [.newTensor "x" [.dynamic "n", .constant 6],
      .slice 0 [.starting (.number 2),
        .within (.number 1) (.size (.binary .add (.symbol "m") (.literal 4))) false]]
    let s := (start 0 ⟨"graph", true, none⟩).run commands
    let stop : Size := .binary .min (.binary .add (.symbol "m") (.literal 4)) (.literal 6)
    ∃ x node, s.issued[1]? = some x ∧ s.graph.Behind x node ∧
      node.view.axes = [⟨.literal 2, .symbol "n", .symbol "n", false⟩,
        ⟨.literal 1, stop, .literal 6, false⟩] ∧
      ∀ count ≤ 2, ∃ s' y node', s.extend (.slice 1 (List.replicate count .full)) = .ok s' ∧
        s'.issued = s.issued ++ [y] ∧ y.shape = x.shape ∧ s'.graph.Behind y node' ∧
        node'.view.same node.view = true := by
  intro commands s stop
  let window : Size := .binary .add (.symbol "m") (.literal 4)
  have hmade : window.Made :=
    ⟨.binary .add (.symbol "m") (.number 4), ⟨trivial, trivial⟩, .of_eq _ rfl rfl, rfl⟩
  have hgiven : ∀ command ∈ commands, ∀ size ∈ command.given, size.Made := by
    intro command hcommand size hsize
    rcases List.mem_cons.mp hcommand with rfl | hcommand
    · cases hsize
    · obtain rfl := List.mem_singleton.mp hcommand
      obtain rfl : size = window := List.mem_singleton.mp hsize
      exact hmade
  have hbuilt : (start 0 ⟨"graph", true, none⟩).run commands = windowBuilt := rfl
  have hs : s = windowBuilt := hbuilt
  have hlengths : (View.mk [⟨.literal 2, .symbol "n", .symbol "n", false⟩,
      ⟨.literal 1, stop, .literal 6, false⟩] [0, 1]).lengths =
        .ok [.binary .add (.symbol "n") (.literal (.int (-2))),
          .binary .add stop (.literal (.int (-1)))] := rfl
  rw [hs]
  refine ⟨⟨1, [.anonymous, .anonymous], 0⟩, _, rfl, ⟨rfl, 1, rfl, rfl⟩, rfl,
    fun count hcount => ?_⟩
  have hcall : Exact fun _ => windowBuilt.extend (.slice 1 (List.replicate count .full)) := by
    obtain rfl | rfl | rfl : count = 0 ∨ count = 1 ∨ count = 2 := by omega
    all_goals exact .of_eq (.ok windowSliced) rfl rfl
  refine slice_full hgiven hbuilt rfl ⟨rfl, 1, rfl, rfl⟩ ?_ hlengths ?_ hcount
    (.of_eq windowBuilt hbuilt rfl) (.of_eq (.ok _) hlengths rfl) hcall
  · intro range hrange
    rcases List.mem_cons.mp hrange with rfl | hrange
    · exact ⟨2, rfl⟩
    · obtain rfl := List.mem_singleton.mp hrange
      exact ⟨1, rfl⟩
  · intro v hv
    simp at hv

end Session

end ShapeGraph
