import ShapeGraph.Proofs.Resolution.Sizes

/-!
# No view reads outside its storage

A view node has no storage of its own: it shows that of its first input, which
may be a view again.  At the bottom of such a stack stands a node that owns the
storage.  Bounds are clamped to those below them when a view is made, and are
known to be in order only once they are resolved.  After that every axis is seen
to stay within storage, however deep the stack is.

* `Graph.RootOf` — the node whose storage another one shows;
* `Graph.WellFormed.root` — every node has one, and lies within it;
* `ConcreteRange.InBounds` — what it takes for a range to stay within storage;
* `Session.views_in_storage` — after a successful resolution every range does.
-/

namespace ShapeGraph

open ShapeGraph.Numeric (Arithmetic Exact Number Unbounded)

namespace Graph

variable {g : Graph}

/-- A node shows the storage of its root: itself, or the root of the first input
of a view. -/
inductive RootOf (g : Graph) : Node → Node → Prop
  | own {node : Node} (hkind : node.kind.isView = false) : RootOf g node node
  | through {node input root : Node} {id : Nat} (hkind : node.kind.isView = true)
      (hid : node.inputs.head? = some id) (hinput : g.nodes[id]? = some input)
      (hroot : RootOf g input root) : RootOf g node root

/-- A root has storage of its own. -/
theorem RootOf.not_view {node root : Node} (h : g.RootOf node root) :
    root.kind.isView = false := by
  induction h with
  | own hkind => exact hkind
  | through _ _ _ _ ih => exact ih

/-- A node has one root. -/
theorem RootOf.unique {node root other : Node} (h : g.RootOf node root)
    (h' : g.RootOf node other) : root = other := by
  induction h with
  | own hkind =>
      cases h' with
      | own _ => rfl
      | through hkind' _ _ _ => exact absurd (hkind.symm.trans hkind') (by decide)
  | through hkind hid hinput _ ih =>
      cases h' with
      | own hkind' => exact absurd (hkind'.symm.trans hkind) (by decide)
      | through _ hid' hinput' hroot' =>
          obtain rfl := Option.some.inj (hid.symm.trans hid')
          obtain rfl := Option.some.inj (hinput.symm.trans hinput')
          exact ih hroot'

/-- Every node has a root, which owns the whole of its storage, and lies within
it. -/
theorem WellFormed.root (hg : g.WellFormed) (place : Nat) :
    ∀ node, g.nodes[place]? = some node → ∃ root ∈ g.nodes, g.RootOf node root ∧
      root.view.Laid ∧ node.view.Within root.view := by
  -- inputs stand before the node, so a stack of views has a bottom
  induction place using Nat.strongRecOn with
  | ind place ih =>
      intro node hnode
      have hkeeps := hg.keeps place node hnode
      have hstorage := hkeeps.storage
      unfold Stores at hstorage
      by_cases hkind : node.kind.isView = true
      · rw [if_pos hkind] at hstorage
        obtain ⟨id, input, hid, hinput, hwithin⟩ := hstorage
        have hlt : id < place := hkeeps.inputs_lt id (List.mem_of_head? hid)
        obtain ⟨root, hmem, hroot, hlaid, hbelow⟩ := ih id hlt input hinput
        exact ⟨root, hmem, .through hkind hid hinput hroot, hlaid, hwithin.trans hbelow⟩
      · rw [if_neg hkind] at hstorage
        have hown : node.kind.isView = false := by simpa using hkind
        exact ⟨node, List.mem_of_getElem? hnode, .own hown, hstorage, .refl node.view⟩

end Graph

/-- A range of a physical axis stays within storage of the given sizes: beyond its
axes there is only repetition, and on its axes what is not repeated lies between
their ends. -/
structure ConcreteRange.InBounds (range : ConcreteRange) (axis : Nat) (sizes : List Number) :
    Prop where
  beyond : sizes.length ≤ axis → range.broadcast = true
  inside : ∀ size, sizes[axis]? = some size → range.broadcast = false →
    ∃ start stop extent : Int, range.start = .int start ∧ range.stop = .int stop ∧
      size = .int extent ∧ 0 ≤ start ∧ start ≤ stop ∧ stop ≤ extent

/-- The ranges of a view that lies within whole storage stay within it, unless one
of them is reversed. -/
theorem View.Within.inBounds {v storage : View} (hwithin : v.Within storage) (hv : v.WellFormed)
    (hlaid : storage.Laid) {ρ : Valuation} (hproper : ∀ range ∈ v.shown, range.Proper ρ)
    {i p : Nat} {range : ConcreteRange} (hp : v.order[i]? = some p)
    (hrange : (v.concrete ρ).ranges[i]? = some range) :
    range.InBounds p (storage.concrete ρ).shape := by
  have hshown : (v.shown.map (AxisRange.concrete ρ))[i]? = some range := hrange
  rw [List.getElem?_map] at hshown
  obtain ⟨held, hheld, rfl⟩ := Option.map_eq_some_iff.mp hshown
  have haxis : v.axes[p]? = some held := by
    rw [View.shown, Axis.getElem?_picked hv.within, hp] at hheld
    exact hheld
  obtain ⟨hstart, hstop⟩ := hproper held (List.mem_of_getElem? hheld)
  rcases hwithin.laid hlaid haxis with hrepeated | ⟨whole, hwhole, hend⟩
  · refine ⟨fun _ => hrepeated, fun size _ hkept => ?_⟩
    exact absurd (hrepeated.symm.trans hkept) (by decide)
  · have hsize : (storage.concrete ρ).shape[p]? = some (.int (whole.extent ρ)) := by
      simp [View.concrete, View.extent, hwhole]
    refine ⟨fun hbeyond => ?_, fun size hheld _ => ?_⟩
    · have hlt := (List.getElem?_eq_some_iff.mp hsize).1
      omega
    · obtain rfl := Option.some.inj (hsize.symm.trans hheld)
      exact ⟨_, _, _, rfl, rfl, rfl, hstart, hstop, hend ρ⟩

/-- A node has just this root, and is resolved to ranges that stay within the sizes
that the root is resolved to. -/
structure Graph.ReadsWithin (g : Graph) (resolved : ResolvedGraph) (node root : Node) : Prop where
  root_iff : ∀ other, g.RootOf node other ↔ other = root
  inBounds : ∃ shown storage, resolved.view (.ofNat node.id) = .ok shown ∧
    resolved.view (.ofNat root.id) = .ok storage ∧ shown.order.length = shown.ranges.length ∧
    ∀ (i p : Nat) (range : ConcreteRange), shown.order[i]? = some p →
      shown.ranges[i]? = some range → range.InBounds p storage.shape

/-- Every node has a root in the graph, and is resolved to ranges within it. -/
theorem Graph.WellFormed.reads_within [Arithmetic] [Unbounded] {g : Graph} (hg : g.WellFormed)
    {options : ResolveOptions} {resolved : ResolvedGraph}
    (h : (g.resolve options).outcome = .ok resolved) :
    ∀ node ∈ g.nodes, ∃ root ∈ g.nodes, g.ReadsWithin resolved node root := by
  intro node hmem
  obtain ⟨place, hplace⟩ := List.mem_iff_getElem?.mp hmem
  obtain ⟨root, hrootmem, hroot, hlaid, hwithin⟩ := hg.root place node hplace
  obtain ⟨below, hbelow⟩ := List.mem_iff_getElem?.mp hrootmem
  obtain ⟨hb, hall⟩ := resolve_shows hg h
  have hρ := hb.agrees_completed fun _ => 0
  obtain ⟨⟨shown, hshown, hview⟩, hproper⟩ := hall _ hρ place node hplace
  obtain ⟨⟨storage, hstorage, hwhole⟩, _⟩ := hall _ hρ below root hbelow
  have hv := (hg.keeps place node hplace).wellFormed
  refine ⟨root, hrootmem, fun other => ⟨fun hother => hother.unique hroot, ?_⟩,
    shown, storage, ?_, ?_, ?_, fun i p range hp hrange => ?_⟩
  · rintro rfl
    exact hroot
  · rwa [(hg.keeps place node hplace).id_eq]
  · rwa [(hg.keeps below root hbelow).id_eq]
  · rw [hview.order_eq, hview.ranges_eq]
    simpa [View.concrete, View.rank] using hv.length_shown.symm
  · rw [hview.order_eq] at hp
    rw [hview.ranges_eq] at hrange
    rw [hwhole.shape_eq]
    exact hwithin.inBounds hv hlaid hproper hp hrange

namespace Session

variable {id : Nat} {settings : GraphSettings} {commands : List Command}
  {options : ResolveOptions} {resolved : ResolvedGraph}

/-- **No view reads outside the storage that owns it.**  After any commands, failing
ones included, and a successful resolution, every slice, permutation and expansion
comes down to one node that is none of these, and each of its ranges stays within
the resolved sizes of that node. -/
theorem views_in_storage (hcommands : ∀ command ∈ commands, command.Integral)
    (hbuild : Exact fun _ => (start id settings).run commands)
    (hresolve : Exact fun _ => (start id settings).resolution commands options)
    (h : (start id settings).resolution commands options = .ok resolved) :
    ∀ node ∈ ((start id settings).run commands).graph.nodes, node.kind.isView = true →
      ∃ root ∈ ((start id settings).run commands).graph.nodes, root.kind.isView = false ∧
        ((start id settings).run commands).graph.ReadsWithin resolved node root := by
  obtain ⟨hwell, _⟩ := @run_wellFormed Arithmetic.unbounded _ _ _
    (start_wellFormed id settings) hcommands
  have hbuilt : (start id settings).run commands =
      @run Arithmetic.unbounded (start id settings) commands := hbuild
  have hresolved : @resolution Arithmetic.unbounded (start id settings) commands options =
      .ok resolved := hresolve.symm.trans h
  rw [hbuilt]
  intro node hnode _
  obtain ⟨root, hmem, hreads⟩ :=
    @Graph.WellFormed.reads_within Arithmetic.unbounded _ _ hwell.graph _ _ hresolved node hnode
  exact ⟨root, hmem, ((hreads.root_iff root).mpr rfl).not_view, hreads⟩

/-- Views stacked on an input: rows from the second on, shown as columns and repeated. -/
def stacking : List Command :=
  [.newTensor "x" [.dynamic "n", .constant 4], .slice 0 [.within (.number 1) (.number 10) false],
    .permute 1 [1, 0], .expand 2 0 (.constant 5)]

/-- The rows that the slice keeps. -/
def stackedRows : AxisRange where
  start := .literal 1
  stop := .binary .min (.symbol "n") (.literal 10)
  size := .symbol "n"
  broadcast := false

/-- The session after these commands. -/
def stacked : Session where
  graph :=
    { id := 0
      settings := ⟨"graph", true, none⟩
      nodes := [
        ⟨0, .input, [], [.dynamic "n", .constant 4], .contiguous [.symbol "n", .literal 4], [],
          some "x", none⟩,
        ⟨1, .slice, [0], [.dynamic "-", .constant 4],
          ⟨[stackedRows, .whole (.literal 4) false], [0, 1]⟩,
          [("ranges", .list [.text "[1, 10)", .text "[0, 4)"])], none, none⟩,
        ⟨2, .permute, [1], [.constant 4, .dynamic "-"],
          ⟨[stackedRows, .whole (.literal 4) false], [1, 0]⟩,
          [("axes", .list [.number 1, .number 0])], none, none⟩,
        ⟨3, .expand, [2], [.constant 5, .constant 4, .dynamic "-"],
          ⟨[stackedRows, .whole (.literal 4) false, .whole (.literal 5) true], [2, 1, 0]⟩,
          [("axis", .number 0)], none, none⟩]
      obligations := []
      journal := ["%0 = input [n, 4]", "%1 = slice [-, 4]", "%2 = permute [4, -]",
        "%3 = expand [5, 4, -]"] }
  issued := [⟨0, [.dynamic "n", .constant 4], 0⟩, ⟨1, [.dynamic "-", .constant 4], 0⟩,
    ⟨2, [.constant 4, .dynamic "-"], 0⟩, ⟨3, [.constant 5, .constant 4, .dynamic "-"], 0⟩]

/-- Its resolution with an input of three rows: the slice ends where these do. -/
def stackedSizes : ResolvedGraph where
  bindings := [("n", 3)]
  nodes := [
    ⟨0, .input, [3, 4], [⟨0, 3, false⟩, ⟨0, 4, false⟩], [0, 1], none⟩,
    ⟨1, .slice, [2, 4], [⟨1, 3, false⟩, ⟨0, 4, false⟩], [0, 1], none⟩,
    ⟨2, .permute, [4, 2], [⟨0, 4, false⟩, ⟨1, 3, false⟩], [1, 0], none⟩,
    ⟨3, .expand, [5, 4, 2], [⟨0, 5, true⟩, ⟨0, 4, false⟩, ⟨1, 3, false⟩], [2, 1, 0], none⟩]

/-- The views that are stacked on an input read what it has, and no more. -/
theorem views_in_storage_stacked :
    (start 0 ⟨"graph", true, none⟩).resolution stacking ⟨[], [("x", ⟨[3, 4], none⟩)]⟩ =
        .ok stackedSizes ∧
      ∀ node ∈ ((start 0 ⟨"graph", true, none⟩).run stacking).graph.nodes,
        node.kind.isView = true →
        ∃ root ∈ ((start 0 ⟨"graph", true, none⟩).run stacking).graph.nodes,
          root.kind.isView = false ∧
            ((start 0 ⟨"graph", true, none⟩).run stacking).graph.ReadsWithin
              stackedSizes node root := by
  have hresolved : (start 0 ⟨"graph", true, none⟩).resolution stacking
      ⟨[], [("x", ⟨[3, 4], none⟩)]⟩ = .ok stackedSizes := rfl
  refine ⟨hresolved, views_in_storage ?_ (.of_eq stacked rfl rfl) (.of_eq _ hresolved rfl)
    hresolved⟩
  simp [stacking, Command.Integral, RangeSpec.Integral, RangeSpec.bounds, Bound.upper,
    Bound.Integral, Quantity.Integral]

end Session

end ShapeGraph
