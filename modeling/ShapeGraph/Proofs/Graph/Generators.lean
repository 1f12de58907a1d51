import Mathlib.Algebra.Group.Nat.Defs
import ShapeGraph.Proofs.Graph.Description
import ShapeGraph.Proofs.Graph.Gain

/-!
# What generators append

A generator is given a tensor and one of its axes.  It reads the length of the axis in the view
behind the tensor, and appends a host computation all of whose axes are declared to have that
length.  The dimension of the axis describes its length, so declaring the two together is never
refused.

The computation fills an array of as many entries as the length to the power of its rank.  The
positions are a list of whole numbers, exact in single precision up to `2 ^ 24`.  The entries of
the mask stand row by row, those of a row in the order of the columns.

* `Payload.positions_eq`, `Payload.maskEntries_at` — what the arrays hold;
* `Generator` — the two generators, with what each of them calls by its own name;
* `Generator.Fills` — the data that is asked of them, and `Generator.fills_data`, that it is there;
* `Generator.run_eq_ok` — when the computation goes through, and what it returns;
* `Graph.Generates`, `Session.extend_generates` — the node that a generator appends.
-/

namespace ShapeGraph

open ShapeGraph.Numeric (Arithmetic Number Unbounded)

/-! ## Arrays -/

/-- Entries that are listed row by row are found at the row times the width plus the column. -/
theorem getElem?_flatMap_rows {α : Type} (entry : Nat → Nat → α) (width : Nat) {rows : List Nat}
    {i row col : Nat} (hrow : rows[i]? = some row) (hcol : col < width) :
    (rows.flatMap fun row => (List.range width).map (entry row))[i * width + col]? =
      some (entry row col) := by
  induction rows generalizing i with
  | nil => simp at hrow
  | cons first rest ih =>
      have hlength : ((List.range width).map (entry first)).length = width := by simp
      rw [List.flatMap_cons]
      cases i with
      | zero =>
          obtain rfl : first = row := Option.some.inj hrow
          rw [List.getElem?_append_left (by omega)]
          simp [hcol]
      | succ i =>
          have hplace : (i + 1) * width + col = width + (i * width + col) := by
            rw [Nat.add_mul]
            omega
          rw [hplace, List.getElem?_append_right (by omega), hlength, Nat.add_sub_cancel_left]
          exact ih hrow

namespace Payload

/-- Whole numbers up to `2 ^ 24` are exact in single precision. -/
theorem positions_eq {n : Nat} (h : n ≤ 2 ^ 24) : positions n = (List.range n).map .ofNat := by
  refine List.map_congr_left fun i hi => ?_
  have hlt := List.mem_range.mp hi
  exact if_pos (by omega)

/-- There is one entry for each position. -/
theorem length_positions (n : Nat) : (positions n).length = n := by
  simp [positions]

/-- There is one entry for each row and column. -/
theorem length_maskEntries (n : Nat) : (maskEntries n).length = n * n := by
  simp [maskEntries, List.length_flatMap]

/-- Above the diagonal the mask holds the negative infinity, and zero everywhere else. -/
theorem maskEntries_at {n row col : Nat} (hrow : row < n) (hcol : col < n) :
    (maskEntries n)[row * n + col]? =
      some (if row < col then Number.negInfinity else 0) :=
  getElem?_flatMap_rows (fun row col => if row < col then Number.negInfinity else 0) n
    (List.getElem?_range hrow) hcol

/-- An array is as long as it is asked to be, if there is room for it. -/
theorem dataLength_eq_ok {n m : Nat} : dataLength (.ofNat n) = .ok m ↔ n ≤ maxHeld ∧ n = m := by
  have htruncated : (Number.ofNat n).truncate? = some n := Number.index?_ofNat n
  have hdefined : ¬ (Number.ofNat n).isUndefined = true := Bool.false_ne_true
  rw [dataLength, htruncated, if_neg hdefined]
  by_cases hroom : n ≤ maxHeld
  · simp [hroom]
  · by_cases hlength : n ≤ maxLength <;> simp [hroom, hlength]

end Payload

/-! ## The two generators -/

/-- The generators. -/
inductive Generator where
  | arange
  | causalMask

namespace Generator

/-- The name under which the axis is refused. -/
def operation : Generator → String
  | arange => "arange"
  | causalMask => "causalMask"

/-- The name of the node. -/
def name : Generator → String
  | arange => "ARange"
  | causalMask => "AttentionMask"

/-- The number of axes that are as long as the one that is read. -/
def rank : Generator → Nat
  | arange => 1
  | causalMask => 2

/-- The call of the generator on a tensor and one of its axes. -/
def command (gen : Generator) (like : Nat) (axis : Number) : Command :=
  match gen with
  | arange => .arange like axis
  | causalMask => .causalMask like axis

/-- The computation of the node. -/
def payload (gen : Generator) (axis : Nat) : Payload :=
  match gen with
  | arange => .arange axis
  | causalMask => .causalMask axis

/-- The data that is asked for: `n` positions, which are the numbers from zero on as long as
single precision has them; or a square of `n` rows, with the negative infinity where the column
is beyond the row and zero everywhere else. -/
def Fills (n : Nat) : Generator → List Number → Prop
  | arange, data => data.length = n ∧ (n ≤ 2 ^ 24 → data = (List.range n).map .ofNat)
  | causalMask, data => data.length = n * n ∧ ∀ row col, row < n → col < n →
    data[row * n + col]? = some (if row < col then Number.negInfinity else 0)

/-- The data that the computation returns. -/
def data (gen : Generator) (n : Nat) : List Number :=
  match gen with
  | arange => Payload.positions n
  | causalMask => Payload.maskEntries n

/-- The data that a generator returns is the data that is asked for. -/
theorem fills_data (gen : Generator) (n : Nat) : gen.Fills n (gen.data n) := by
  cases gen with
  | arange => exact ⟨Payload.length_positions n, Payload.positions_eq⟩
  | causalMask =>
      exact ⟨Payload.length_maskEntries n, fun row col hrow hcol =>
        Payload.maskEntries_at hrow hcol⟩

/-- A generator returns one entry for each place of the declared shape. -/
theorem length_data (gen : Generator) (n : Nat) : (gen.data n).length = n ^ gen.rank := by
  cases gen with
  | arange => rw [data, Payload.length_positions, rank, Nat.pow_one]
  | causalMask => rw [data, Payload.length_maskEntries, rank, Nat.pow_two]

section

variable [Arithmetic]

omit [Arithmetic] in
/-- Storage that has one length on all axes. -/
theorem ofQuantities_replicate {n : Nat} (h : n ≤ Payload.maxHeld) (count : Nat) :
    View.ofQuantities (List.replicate count (.number (.ofNat n))) =
      .ok (.contiguous (List.replicate count (.literal (.ofNat n)))) := by
  have hsafe : (Number.ofNat n).isSafe = true := by
    have hmax : Payload.maxHeld ≤ Numeric.maxSafe := by decide
    simp only [Number.isSafe, Number.ofNat, decide_eq_true_eq]
    omega
  have hsize : Quantity.toSize (.number (.ofNat n)) = .ok (.literal (.ofNat n)) := if_pos hsafe
  have hsizes : (List.replicate count (Quantity.number (.ofNat n))).mapM Quantity.toSize =
      .ok (List.replicate count (.literal (.ofNat n))) := by
    rw [mapM_eq_ok]
    induction count with
    | zero => exact .nil
    | succ count ih => exact .cons hsize ih
  rw [View.ofQuantities, hsizes]
  rfl

/-- **The computation goes through** if there is room for its data, and returns these with a
view whose axes all have the length that it has read. -/
theorem run_eq_ok [Unbounded] (gen : Generator) {input : FunctionInput} {k n id : Nat}
    (hlength : input.shape[k]? = some (.ofNat n)) {result : FunctionResult} :
    (gen.payload k).run [input] id = .ok result ↔ n ^ gen.rank ≤ Payload.maxHeld ∧
      result = ⟨some (gen.data n), .ofNat id,
        .contiguous (List.replicate gen.rank (.literal (.ofNat n)))⟩ := by
  have hread : Payload.referenceLength [input] k = .ok (.ofNat n) := by
    simp [Payload.referenceLength, hlength]
  have hsafe : Payload.maxHeld < Numeric.maxSafe := by decide
  cases gen with
  | arange =>
      have hmin : (Number.ofNat n).min (.ofNat Numeric.maxSafe) =
          .ofNat (min n Numeric.maxSafe) := by
        rw [Number.ofNat, Number.ofNat, Number.min_int]
        exact congrArg Number.int (by omega)
      simp only [payload, Payload.run, hread, hmin, bind_eq_ok, pure_eq_ok, Except.ok.injEq,
        exists_eq_left', Payload.dataLength_eq_ok, rank, Nat.pow_one]
      constructor
      · rintro ⟨count, ⟨hroom, rfl⟩, view, hview, rfl⟩
        have hle : n ≤ Payload.maxHeld := by omega
        have hcount : min n Numeric.maxSafe = n := by omega
        obtain rfl := Except.ok.inj ((ofQuantities_replicate hle 1).symm.trans hview)
        exact ⟨hle, by rw [hcount]; rfl⟩
      · rintro ⟨hroom, rfl⟩
        exact ⟨n, ⟨by omega, by omega⟩, _, ofQuantities_replicate hroom 1, rfl⟩
  | causalMask =>
      have hmul : (Number.ofNat n).mul (.ofNat n) = .ofNat (n * n) := by
        rw [Number.ofNat, Number.mul_int_int, Number.ofNat, Int.natCast_mul]
      simp only [payload, Payload.run, hread, hmul, bind_eq_ok, pure_eq_ok, Except.ok.injEq,
        exists_eq_left', Payload.dataLength_eq_ok, rank, Nat.pow_two]
      constructor
      · rintro ⟨_, ⟨hroom, _⟩, _, ⟨hle, rfl⟩, view, hview, rfl⟩
        obtain rfl := Except.ok.inj ((ofQuantities_replicate hle 2).symm.trans hview)
        exact ⟨hroom, rfl⟩
      · rintro ⟨hroom, rfl⟩
        have hle : n ≤ Payload.maxHeld := Nat.le_trans (Nat.le_mul_self n) hroom
        exact ⟨_, ⟨hroom, rfl⟩, n, ⟨hle, rfl⟩, _, ofQuantities_replicate hle 2, rfl⟩

end

end Generator

/-! ## Nodes of generators -/

/-- The node is that of a generator which has read an axis of the source: a host computation on
the source, all of whose axes are declared to be as long as that axis. -/
structure Graph.Generates [Arithmetic] (g : Graph) (gen : Generator) (k : Nat)
    (source node : Node) : Prop where
  source_at : g.nodes[source.id]? = some source
  node_at : g.nodes[node.id]? = some node
  earlier : source.id < node.id
  kind_eq : node.kind = .function
  inputs_eq : node.inputs = [source.id]
  payload_eq : node.payload = some (gen.payload k)
  rank_eq : node.shape.length = gen.rank
  view_eq : ∃ range, source.view.shown[k]? = some range ∧
    node.view = .contiguous (List.replicate gen.rank range.length)

section

variable [Arithmetic]

/-- A generator that has read an axis has still done so when the graph has grown. -/
theorem Graph.Extends.generates {g g' : Graph} (he : g'.Extends g) {gen : Generator} {k : Nat}
    {source node : Node} (h : g.Generates gen k source node) : g'.Generates gen k source node :=
  { h with
    source_at := he.nodes _ _ h.source_at
    node_at := he.nodes _ _ h.node_at }

/-- The same length may be declared for all axes if their dimension admits it. -/
theorem declaredSizes_replicate {dim : Dimension} {length : Size} (h : dim.Admits length)
    (id axis count : Nat) : ∃ equalities, declaredSizes id axis (List.replicate count dim)
      (List.replicate count (some (.size length))) =
        .ok (List.replicate count length, equalities) := by
  induction count generalizing axis with
  | zero => exact ⟨[], rfl⟩
  | succ count ih =>
      obtain ⟨others, hothers⟩ := ih (axis + 1)
      obtain ⟨own, hown⟩ := h.sized
      simp only [List.replicate_succ, declaredSizes, hown, List.head?_cons, Option.join_some,
        List.tail_cons, Quantity.toSize, hothers, bind_eq_ok, Except.ok.injEq, exists_eq_left']
      cases own with
      | none => exact ⟨others, rfl⟩
      | some size =>
          have hagrees := h.agrees size hown
          obtain ⟨first, hfirst⟩ := hagrees.requireEqual_ok (Dimension.fits_of_size hown).1
            "addFunction" (axisRelation axis)
          refine ⟨first ++ others, ?_⟩
          show (requireEqual "addFunction" (axisRelation axis) size length >>= _) = _
          rw [hfirst]
          rfl

omit [Arithmetic] in
/-- A host computation that finds all that it is made of is appended. -/
theorem Found.Function.perform {g : Graph} {tensors : List Tensor} {shape : Shape}
    {declared : Option (List (Option Quantity))} (found : Function g tensors shape declared)
    (name : String) (payload : Payload) {inputs : List Nat}
    (hinputs : (tensors.map NodeRef.tensor).mapM (g.inputId .function) = .ok inputs) :
    (Build.addFunction name tensors shape payload declared).perform g =
      (.ok (Build.handle g shape), g.append (found.draft name payload) inputs) := by
  have hshape : shape.check = .ok shape := check_eq_ok.mpr ⟨found.rank_le, rfl⟩
  have hdraft : Draft.start .function shape (.contiguous found.sizes) =
      .ok ⟨.function, shape, .contiguous found.sizes, [], [], none, none, []⟩ :=
    Draft.start_eq_ok.mpr ⟨found.rank_eq, rfl⟩
  have hkind : (found.draft name payload).inputs.mapM
      (g.inputId (found.draft name payload).kind) = .ok inputs := hinputs
  refine Build.perform_derive_ok ?_ hkind
  simp only [found.nodes_eq, hshape, found.count_eq, found.sizes_eq, hdraft, bind_eq_ok,
    pure_eq_ok, Except.ok.injEq, exists_eq_left']
  exact ⟨(), trivial, rfl⟩

namespace Generator

/-- The call of a generator on a tensor. -/
def call (gen : Generator) (like : Tensor) (axis : Number) : Build Tensor := do
  let (k, length, dim) ← Build.referenceAxis gen.operation like axis
  Build.addFunction gen.name [like] (List.replicate gen.rank dim) (gen.payload k)
    (length.map fun size => List.replicate gen.rank (some (.size size)))

/-- The command of a generator finds the tensor and calls the generator on it. -/
theorem step_command (gen : Generator) (issued : List Tensor) (place : Nat) (axis : Number) :
    (gen.command place axis).step issued =
      Command.operand issued place >>= fun like => gen.call like axis := by
  cases gen <;> rfl

variable {g : Graph} {like : Tensor} {source : Node} {axis : Number} {k : Nat}

/-- **What a generator reads**: the length of the axis, and a dimension that admits it. -/
theorem referenceAxis_ok (gen : Generator) (hlike : g.Described like)
    (hsource : g.Behind like source)
    (haxis : Axis.position gen.operation axis like.rank = .ok k) :
    ∃ range dim, source.view.shown[k]? = some range ∧ dim.Admits range.length ∧
      (Build.referenceAxis gen.operation like axis).perform g =
        (.ok (k, some range.length, dim), g) := by
  have hcheck : g.check "tracker" like = .ok source := Graph.check_eq_ok.mpr hsource
  have hshape := hlike.of_check hcheck
  have hlt : k < like.shape.length := Axis.position_lt haxis
  have hlt' : k < source.view.shown.length := hshape.shown.length_eq ▸ hlt
  have hdescribes := (List.forall₂_iff_get.mp hshape.shown).2 k hlt hlt'
  have hlengths : g.lengths like = .ok (source.view.shown.map AxisRange.length) := by
    simp [Graph.lengths, Graph.view, hcheck, View.lengths_eq hshape.wellFormed]
  have hcanonical := (hlike.lengths hlengths).canonical
  have hpinned := Size.pinned_of_integral fun s hs => (hcanonical s hs).integral
  refine ⟨source.view.shown[k], like.shape[k], List.getElem?_eq_getElem hlt', hdescribes.admits, ?_⟩
  have hdim : like.shape.dimAt (.ofNat k) = .ok like.shape[k] :=
    dimAt_eq_ok.mpr (List.getElem?_eq_getElem hlt)
  rw [Build.referenceAxis, Build.perform_read]
  simp [haxis, hlengths, hpinned, hdim, hlt']

/-- **A generator appends its node** on any tensor and any of its axes. -/
theorem call_ok (gen : Generator) (hlike : g.Described like) (hsource : g.Operand like source)
    (haxis : Axis.position gen.operation axis like.rank = .ok k) :
    ∃ y g' node, (gen.call like axis).perform g = (.ok y, g') ∧ y.id = .ofNat node.id ∧
      g'.Generates gen k source node := by
  obtain ⟨range, dim, hrange, hadmits, hread⟩ := gen.referenceAxis_ok hlike hsource.behind haxis
  obtain ⟨equalities, hsizes⟩ := declaredSizes_replicate hadmits g.size 0 gen.rank
  have hcheck : g.check "addFunction" like = .ok source := Graph.check_eq_ok.mpr hsource.behind
  have hrank : gen.rank ≤ Shape.maxRank := by cases gen <;> decide
  let found : Found.Function g [like] (List.replicate gen.rank dim)
      (some (List.replicate gen.rank (some (.size range.length)))) :=
    { nodes := [source]
      sizes := List.replicate gen.rank range.length
      equalities := equalities
      nodes_eq := mapM_eq_ok.mpr (.cons hcheck .nil)
      rank_le := by rwa [List.length_replicate]
      count_eq := if_pos (by rw [List.length_replicate, List.length_replicate])
      sizes_eq := hsizes
      rank_eq := by rw [View.rank_contiguous, List.length_replicate, List.length_replicate] }
  have hinputs : ([like].map NodeRef.tensor).mapM (g.inputId .function) = .ok [source.id] :=
    inputs_ok (.cons hsource.behind .nil)
  have hsettled : (found.draft gen.name (gen.payload k)).view.Integral :=
    View.contiguous_integral fun s hs =>
      List.eq_of_mem_replicate hs ▸ hadmits.canonical.integral
  have hnodes := g.append_extends (found.draft gen.name (gen.payload k)) [source.id]
  have hperform : (gen.call like axis).perform g =
      (.ok (Build.handle g (List.replicate gen.rank dim)),
        g.append (found.draft gen.name (gen.payload k)) [source.id]) := by
    rw [call, Build.perform_bind, hread]
    exact found.perform gen.name (gen.payload k) hinputs
  exact ⟨_, _, g.made (found.draft gen.name (gen.payload k)) [source.id], hperform, rfl,
    { source_at := hnodes.nodes _ _ hsource.at_id
      node_at := g.append_at _ _
      earlier := hsource.id_lt
      kind_eq := rfl
      inputs_eq := rfl
      payload_eq := rfl
      rank_eq := List.length_replicate
      view_eq := ⟨range, hrange, hsettled.settle_eq g.size⟩ }⟩

end Generator

omit [Arithmetic] in
/-- A handle names the node behind it. -/
theorem Graph.WellFormed.id_of_behind {g : Graph} (hg : g.WellFormed) {t : Tensor} {node : Node}
    (h : g.Behind t node) : t.id = .ofNat node.id := by
  obtain ⟨_, place, hid, hnode⟩ := h
  rw [hid, (hg.keeps place node hnode).id_eq]

/-- **A generator succeeds** on every tensor that has been issued and every axis of it, and what
it has made stays whatever is called next. -/
theorem Session.extend_generates [Unbounded] {s : Session} (hs : s.Described) (gen : Generator)
    {place : Nat} {like : Tensor} (hlike : s.issued[place]? = some like) {axis : Number} {k : Nat}
    (haxis : Axis.position gen.operation axis like.rank = .ok k) :
    ∃ s' y source node, s.extend (gen.command place axis) = .ok s' ∧
      s'.issued = s.issued ++ [y] ∧ like.id = .ofNat source.id ∧ y.id = .ofNat node.id ∧
      ∀ later, (∀ command ∈ later, command.Integral) → (s'.run later).graph.WellFormed ∧
        (s'.run later).graph.Generates gen k source node := by
  have hmem := List.mem_of_getElem? hlike
  obtain ⟨source, hsource, _⟩ := hs.described like hmem
  have hop := (hs.issued like hmem).operand_behind hs.graph hsource
  obtain ⟨y, g', node, hcall, hid, hgenerates⟩ := gen.call_ok (hs.described like hmem) hop haxis
  have hstep : ((gen.command place axis).step s.issued).perform s.graph = (.ok y, g') := by
    rw [gen.step_command, Command.operand, Build.perform_read_bind (a := like) (by rw [hlike])]
    exact hcall
  have hextend : s.extend (gen.command place axis) = .ok ⟨g', s.issued ++ [y]⟩ :=
    extend_eq_ok.mpr ⟨y, g', hstep, rfl⟩
  have hcommand : (gen.command place axis).Integral := by cases gen <;> exact trivial
  have hwell := (extend_later hs.toWellFormed hcommand hextend).wellFormed
  refine ⟨_, y, source, node, hextend, rfl, hs.graph.id_of_behind hsource, hid,
    fun later hlater => ?_⟩
  have hgrown := run_later hwell hlater
  exact ⟨hgrown.wellFormed.graph, hgrown.extends_graph.generates hgenerates⟩

end

end ShapeGraph
