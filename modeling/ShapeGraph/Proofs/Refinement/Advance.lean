import ShapeGraph.Proofs.Refinement.Operations

/-!
# Operations go through

One lemma for each operation: on handles and graphs that match it goes through on
the side of the sizes if it does on the side of the literals, and leaves handles
and graphs that match.

A reshape is special.  Whether a view is contiguous is a question about terms, and
can be answered differently on the two sides, so a node that lays out the input
may be appended on one side alone.  In either case there is a node to reshape
from, and nothing is recorded for it (`laid_out`).
-/

namespace ShapeGraph

open ShapeGraph.Numeric (Arithmetic Number Unbounded)

variable {known : String → Prop} {ρ : Valuation} {g g' : Graph} {t t' a a' b b' : Tensor}

/-! ## Leaves -/

/-- An input of sizes goes through if the input of their literals does. -/
theorem newTensor_advances (hg : GraphsMatch known ρ g g') (name : String) {shape shape' : Shape}
    (h : List.Forall₂ (DimensionsMatch known ρ) shape shape') :
    Advances known ρ g g' ((Build.newTensor name shape).perform g)
      ((Build.newTensor name shape').perform g') := by
  have hshapes : ShapesMatch shape shape' := h.imp fun _ _ hdim => hdim.matches_dim
  have hcheck : Follows (fun s s' => shape = s ∧ shape' = s') shape.check shape'.check :=
    .check (by rw [h.length_eq]; exact id) fun _ => .ok ⟨rfl, rfl⟩
  refine .derive hg (.bind hcheck ?_)
  rintro _ _ ⟨rfl, rfl⟩
  refine .bind (leafSizes_follows h _ _ 0) fun _ _ hsizes => ?_
  exact .bind (start_follows g (by simp) hshapes hsizes.contiguous) fun _ _ hd => .ok { hd with }

/-! ## Reordering and inserting -/

/-- A permutation goes through on either side or on neither. -/
theorem permute_advances (hg : GraphsMatch known ρ g g') (ht : HandlesMatch known ρ g g' t t')
    (axes : List Number) :
    Advances known ρ g g' ((Build.permute t axes).perform g)
      ((Build.permute t' axes).perform g') := by
  refine .derive hg (.bind (ht.check_follows _) fun _ _ hop => ?_)
  rw [ht.rank_eq]
  refine .bind (.self _) ?_
  rintro positions _ ⟨rfl, _⟩
  refine .bind (hop.shapes.pick_follows _) fun _ _ hshapes => ?_
  refine .bind (hop.views.permute_follows _) fun _ _ hview => ?_
  refine .bind (start_follows g (by simp) hshapes hview) fun _ _ hd => ?_
  exact .ok ((hd.ofTensors (.cons hop.behind .nil)).setAttribute _ _ _)

/-- An expansion along an axis goes through if that by the literal does. -/
theorem expand_advances (hg : GraphsMatch known ρ g g') (ht : HandlesMatch known ρ g g' t t')
    (axis : Number) {dim dim' : Dimension} (hdim : DimensionsMatch known ρ dim dim') :
    Advances known ρ g g' ((Build.expand t axis dim).perform g)
      ((Build.expand t' axis dim').perform g') := by
  refine .derive hg (.bind (ht.check_follows _) fun _ _ hop => ?_)
  rw [ht.rank_eq]
  refine .bind (.self _) ?_
  rintro position _ ⟨rfl, _⟩
  obtain ⟨size, hsize, hsize', hready, hnonneg⟩ := hdim.sizes
  rw [hsize, hsize']
  refine .ok_bind (.bind (hop.views.expand_follows _ hready hnonneg) fun _ _ hview => ?_)
  refine .bind (start_follows g (by simp) (hop.shapes.insertAt position hdim.matches_dim) hview)
    fun _ _ hd => ?_
  exact .ok ((hd.ofTensors (.cons hop.behind .nil)).setAttribute _ _ _)

/-! ## Reshapes -/

/-- What a reshape has derived before it lays out its input. -/
structure PlansMatch (known : String → Prop) (ρ : Valuation)
    (plan plan' : Bool × List (Dimension × Size) × List Equality) : Prop where
  axes : TargetsMatch known ρ plan.2.1 plan'.2.1
  equalities : EqualitiesMatch known ρ plan.2.2 plan'.2.2

/-- What is reshaped on both sides matches if the two targets do, from wherever it is laid out.
-/
theorem reshaped_match {source source' : Tensor} {node : Node} (hbehind : g.Behind source node)
    (target : List ReshapeEntry) {axes axes' : List (Dimension × Size)}
    (haxes : TargetsMatch known ρ axes axes') {equalities equalities' : List Equality}
    (he : EqualitiesMatch known ρ equalities equalities') :
    DraftsMatch known ρ g (reshaped source target axes equalities)
      (reshaped source' target axes' equalities') where
  kind := nofun
  kind_eq := rfl
  views := haxes.sizes.contiguous
  rank_eq := by simp [reshaped]
  shapes := haxes.shapes
  equalities := by rwa [Draft.equalities, Draft.equalities, reshaped, reshaped,
    Equality.map_pending, Equality.map_pending]
  inputs := ⟨_, inputs_ok (.cons hbehind .nil)⟩

/-! ## Computations -/

/-- Two operands of the same rank have the same rank on the other side. -/
theorem sameRank_follows (ha : HandlesMatch known ρ g g' a a') (hb : HandlesMatch known ρ g g' b b')
    (operation : String) :
    Follows (fun _ _ => True) (Shape.sameRank operation a.shape b.shape)
      (Shape.sameRank operation a'.shape b'.shape) := by
  intro _ h
  have hranks : a.shape.length = b.shape.length :=
    ha.rank_eq.trans ((sameRank_eq_ok.mp h).trans hb.rank_eq.symm)
  exact ⟨(), sameRank_eq_ok.mpr hranks, trivial⟩

section

variable [Arithmetic] [Unbounded]

/-- An operation on every element goes through with its operand, and computes nothing on hosts.
-/
theorem pointwise_advances (hg : GraphsMatch known ρ g g') (ht : HandlesMatch known ρ g g' t t')
    {kind : OpKind} (hkind : kind ≠ .function) :
    Advances known ρ g g' ((Build.pointwise kind t).perform g)
      ((Build.pointwise kind t').perform g') := by
  refine .derive hg (.bind (ht.check_follows _) fun _ _ hop => ?_)
  refine .bind hop.lengths_follows fun _ _ hl => ?_
  refine .bind (start_follows g hkind hop.shapes hl.1.contiguous) fun _ _ hd => ?_
  exact .ok (hd.ofTensors (.cons hop.behind .nil))

theorem scalar_advances (hg : GraphsMatch known ρ g g') (ht : HandlesMatch known ρ g g' t t')
    (op : ScalarOp) (value : Number) :
    Advances known ρ g g' ((Build.scalar op t value).perform g)
      ((Build.scalar op t' value).perform g') := by
  refine .derive hg (.bind (ht.check_follows _) fun _ _ hop => ?_)
  refine .bind hop.lengths_follows fun _ _ hl => ?_
  refine .bind (start_follows g (by simp) hop.shapes hl.1.contiguous) fun _ _ hd => ?_
  exact .ok ((hd.ofTensors (.cons hop.behind .nil)).setAttribute _ _ _)

theorem softmax_advances (hg : GraphsMatch known ρ g g') (ht : HandlesMatch known ρ g g' t t')
    (axis : Number) :
    Advances known ρ g g' ((Build.softmax t axis).perform g)
      ((Build.softmax t' axis).perform g') := by
  refine .derive hg (.bind (ht.check_follows _) fun _ _ hop => ?_)
  rw [ht.rank_eq]
  refine .bind (.self _) fun k _ _ => ?_
  refine .bind hop.lengths_follows fun _ _ hl => ?_
  refine .bind (start_follows g (by simp) hop.shapes hl.1.contiguous) fun _ _ hd => ?_
  exact .ok ((hd.ofTensors (.cons hop.behind .nil)).setAttribute _ _ _)

/-- A reduction goes through, along the same axis. -/
theorem reduce_advances (hg : GraphsMatch known ρ g g') (ht : HandlesMatch known ρ g g' t t')
    (op : ReduceOp) (axis : Number) :
    Advances known ρ g g' ((Build.reduce op t axis).perform g)
      ((Build.reduce op t' axis).perform g') := by
  refine .derive hg (.bind (ht.check_follows _) fun _ _ hop => ?_)
  rw [ht.rank_eq]
  refine .bind (.self _) ?_
  rintro k _ ⟨rfl, _⟩
  refine .bind hop.lengths_follows fun _ _ hl => ?_
  refine .bind (start_follows g (by simp) (hop.shapes.removeAt k) (hl.1.removeAt k).contiguous)
    fun _ _ hd => ?_
  exact .ok ((hd.ofTensors (.cons hop.behind .nil)).setAttribute _ _ _)

/-- An operation on two tensors goes through if it does on the literals, and what it records is
met. -/
theorem binary_advances (hg : GraphsMatch known ρ g g') (ha : HandlesMatch known ρ g g' a a')
    (hb : HandlesMatch known ρ g g' b b') (op : BinaryOp) :
    Advances known ρ g g' ((Build.binary op a b).perform g)
      ((Build.binary op a' b').perform g') := by
  refine .derive hg (.bind (ha.check_follows _) fun _ _ hopa => ?_)
  refine .bind (hb.check_follows _) fun _ _ hopb => ?_
  refine .bind (sameRank_follows ha hb _) fun _ _ _ => ?_
  refine .bind ha.lengths_follows fun _ _ hl => ?_
  refine .bind hb.lengths_follows fun _ _ hr => ?_
  refine .bind (pairEqualities_follows _ hl.1 hr.1 0) fun _ _ he => ?_
  refine .bind (start_follows g (by simp) hopa.shapes hl.1.contiguous) fun _ _ hd => ?_
  exact .ok ((hd.ofTensors (.cons hopa.behind (.cons hopb.behind .nil))).relying he)

/-- A product of matrices goes through if it does on the literals, and what it records is met.
-/
theorem matmul_advances (hg : GraphsMatch known ρ g g') (ha : HandlesMatch known ρ g g' a a')
    (hb : HandlesMatch known ρ g g' b b') :
    Advances known ρ g g' ((Build.matmul a b).perform g) ((Build.matmul a' b').perform g') := by
  refine .derive hg (.bind (ha.check_follows _) fun _ _ hopa => ?_)
  refine .bind (hb.check_follows _) fun _ _ hopb => ?_
  simp only [ha.rank_eq, hb.rank_eq]
  refine .check id fun _ => ?_
  refine .bind ha.lengths_follows fun _ _ hl => ?_
  refine .bind hb.lengths_follows fun _ _ hr => ?_
  refine .bind (hl.1.lengthAt_follows _ _) ?_
  rintro li _ ⟨⟨hli, rfl⟩, _⟩
  refine .bind (hr.1.lengthAt_follows _ _) ?_
  rintro ri _ ⟨⟨hri, rfl⟩, _⟩
  refine .bind (requireEqual_follows hli hri) fun _ _ hinner => ?_
  refine .ite_bind (fun _ => batchEqualities_follows hl.1 hr.1 0 _) (fun _ => .ok .nil)
    fun _ _ hbatch => ?_
  refine .bind (hopb.shapes.dimAt_follows _) fun _ _ hcolumn => ?_
  refine .bind (hr.1.lengthAt_follows _ _) fun _ _ hwidth => ?_
  refine .bind (start_follows g (by simp) (hopa.shapes.dropLast_append hcolumn)
    (hl.1.dropLast_append hwidth.1 hwidth.2).contiguous) fun _ _ hd => ?_
  exact .ok ((hd.ofTensors (.cons hopa.behind (.cons hopb.behind .nil))).relying
    (hinner.append hbatch))

/-! ## Slicing and joining -/

/-- A slice goes through if that by the literals of its bounds does. -/
theorem slice_advances (hg : GraphsMatch known ρ g g') (ht : HandlesMatch known ρ g g' t t')
    {specs specs' : List RangeSpec}
    (hspecs : List.Forall₂ (RangeSpec.Matches known ρ) specs specs') :
    Advances known ρ g g' ((Build.slice t specs).perform g)
      ((Build.slice t' specs').perform g') := by
  refine .derive hg (.bind (ht.check_follows _) fun _ _ hop => ?_)
  refine .bind hop.lengths_follows fun _ _ hl => ?_
  refine .bind (mapSlice_follows hop.shapes hspecs hl.1 hl.2.symm _) fun _ _ hm => ?_
  refine .bind (hop.views.slice_follows hm.spans) fun _ _ hview => ?_
  refine .bind (start_follows g (by simp) hm.shapes hview) fun _ _ hd => ?_
  exact .ok ((hd.ofTensors (.cons hop.behind .nil)).setAttribute _ _ _)

/-- A concatenation goes through if it does on the literals, and what it records is met. -/
theorem concat_advances (hg : GraphsMatch known ρ g g') (ha : HandlesMatch known ρ g g' a a')
    (hb : HandlesMatch known ρ g g' b b') (axis : Number) :
    Advances known ρ g g' ((Build.concat a b axis).perform g)
      ((Build.concat a' b' axis).perform g') := by
  refine .derive hg (.bind (ha.check_follows _) fun _ _ hopa => ?_)
  refine .bind (hb.check_follows _) fun _ _ hopb => ?_
  refine .bind (sameRank_follows ha hb _) fun _ _ _ => ?_
  rw [ha.rank_eq]
  refine .bind (.self _) ?_
  rintro k _ ⟨rfl, _⟩
  refine .bind ha.lengths_follows fun _ _ hl => ?_
  refine .bind hb.lengths_follows fun _ _ hr => ?_
  refine .bind (joinEqualities_follows k hl.1 hr.1 0) fun _ _ he => ?_
  refine .bind (hopa.shapes.dimAt_follows _) fun _ _ hda => ?_
  refine .bind (hopb.shapes.dimAt_follows _) fun _ _ hdb => ?_
  refine .bind (joinedDimension_follows hda hdb) fun _ _ hjoined => ?_
  refine .bind (joinedSizes_follows hl.1 hr.1 k) fun _ _ hsizes => ?_
  refine .bind (start_follows g (by simp) (hopa.shapes.set k hjoined) hsizes.contiguous)
    fun _ _ hd => ?_
  exact .ok (((hd.ofTensors (.cons hopa.behind (.cons hopb.behind .nil))).relying
    he).setAttribute _ _ _)

/-! ## Reshaping -/

/-- Whether a view is laid out first or not, there is a handle to reshape from, on
a graph that is ready and has recorded nothing more. -/
theorem laid_out (hg : g.Ready known ρ) {node : Node} (hbehind : g.Behind t node)
    (hview : node.view.Ready known ρ) (hrank : node.view.rank = t.rank) (whole : Bool) :
    ∃ source h held, (∀ next : Tensor → Build Tensor,
        (if whole then pure t >>= next else Build.contiguous t >>= next).perform g =
          (next source).perform h) ∧
      h.Extends g ∧ h.Ready known ρ ∧ h.obligations = g.obligations ∧ h.Behind source held := by
  cases whole with
  | true => exact ⟨t, g, node, fun _ => rfl, .refl g, hg, rfl, hbehind⟩
  | false =>
      let lengths := node.view.shown.map AxisRange.length
      have hlengths : node.view.lengths = .ok lengths := View.lengths_eq hview.wellFormed
      have hcount : lengths.length = t.rank := by
        rw [List.length_map, hview.wellFormed.length_shown, hrank]
      have hready : (View.contiguous lengths).Ready known ρ := hview.lengths.contiguous.ready
      have hlaid : (relaid t lengths).view.Integral := hready.integral
      refine ⟨_, g.append (relaid t lengths) [node.id], _, fun next => ?_,
        g.append_extends _ _, hg.append _ nofun hready nofun, ?_, g.append_behind _ hlaid⟩
      · simp only [Bool.false_eq_true, if_false]
        rw [Build.perform_bind, contiguous_ok hbehind hlengths hcount]
        rfl
      · exact List.append_nil _

/-- A reshape goes through if it does on the literals, though its operand may be laid out first
on one side and not on the other. -/
theorem reshape_advances (hg : GraphsMatch known ρ g g') (ht : HandlesMatch known ρ g g' t t')
    (target : List ReshapeEntry) :
    Advances known ρ g g' ((Build.reshape t target).perform g)
      ((Build.reshape t' target).perform g') := by
  have hread := ht
  obtain ⟨node, node', hop⟩ := ht
  refine .read (R := PlansMatch known ρ) ?_ ?_
  · refine .bind (hread.check_follows _) fun _ _ hop => ?_
    refine .bind hop.lengths_follows fun _ _ hl => ?_
    refine .bind (targetAxes_follows hop.shapes hl.1.pinned 0 target) fun _ _ haxes => ?_
    refine .bind (elementCount_follows hl.1.pinned haxes.sizes _ _) fun _ _ he => ?_
    exact .ok ⟨haxes, he⟩
  · rintro ⟨whole, axes, equalities⟩ ⟨whole', axes', equalities'⟩ ⟨haxes, he⟩
    have hview' : node'.view.Ready (Bindings.Bound []) ρ := hop.views.eq ▸ hop.views.ready.ground
    have hrank' : node'.view.rank = t'.rank := by
      rw [hop.views.eq, View.rank_ground, hop.rank_eq, hread.rank_eq]
    obtain ⟨source, h, held, hsource, hext, hh, _, hheld⟩ :=
      laid_out hg.ready hop.behind hop.views.ready hop.rank_eq whole
    obtain ⟨source', h', held', hsource', hext', hh', hsame, _⟩ :=
      laid_out hg.ready' hop.behind' hview' hrank' whole'
    simp only [reshape_plan, hsource, hsource']
    exact (Advances.derive ⟨hh, hh', hsame.trans hg.unrecorded⟩
      (.ok (reshaped_match hheld target haxes he))).later hext hext'

end

end ShapeGraph
