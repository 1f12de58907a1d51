import ShapeGraph.Proofs.Graph.Workbench
import ShapeGraph.Proofs.View.Permutation

/-!
# Permutations of tensors

A tensor is permuted by reordering the view of its node and its shape in the same way, on a
node of its own.  The views of a graph belong to their nodes, however the graph has been
built, so a tensor that is permuted and permuted back is on a node with the same view.

* `Graph.Owned`, `Workbench.run_owned` — the views of a graph under construction are owned;
* `Build.permute_eq_ok` — when a tensor can be permuted, and what that gives;
* `permutations_act` — permutations act on views, and are undone on tensors.
-/

namespace ShapeGraph

open ShapeGraph.Axis (invert invert_perm permutation permutation_of_perm permutation_perm picked)
open ShapeGraph.Numeric (Arithmetic Number)

/-! ## Views that belong to their nodes -/

/-- All views of a graph are owned. -/
def Graph.Owned (g : Graph) : Prop :=
  ∀ node ∈ g.nodes, node.view.Owned

namespace Graph

variable {fit : Graph → Draft → Prop} {recordable : List Equality → Prop} {g g' : Graph}

/-- A node that is appended owns its view. -/
theorem append_owned (hg : g.Owned) (draft : Draft) (inputs : List Nat) :
    (g.append draft inputs).Owned := by
  rw [Owned, append_nodes, List.forall_mem_append, List.forall_mem_singleton]
  exact ⟨hg, View.settle_owned draft.view g.size⟩

/-- Named operations settle what they append, so all views stay owned. -/
theorem Changes.owned (h : Changes fit recordable g g') (hg : g.Owned) : g'.Owned := by
  refine h.keep (P := Owned) hg fun hg hlast => ?_
  cases hlast with
  | append => exact append_owned hg _ _
  | record => exact hg

end Graph

namespace Workbench

variable [Arithmetic] {b : Workbench}

/-- Builders settle what they append as well. -/
theorem step_owned (hb : b.graph.Owned) (act : Act) : (b.step act).graph.Owned := by
  cases act with
  | call handles command =>
      exact (command.changes handles).owned hb
  | addOp kind shape view wellFormed =>
      simp only [step]
      split <;> exact hb
  | edit place edit => exact hb
  | finish place =>
      simp only [step]
      split
      · next builder _ =>
        rcases builder.finish_cases b.graph with ⟨-, inputs, -, hfinish⟩ | ⟨fault, hfinish⟩
        · rw [hfinish]
          exact Graph.append_owned hb _ _
        · rw [hfinish]
          exact hb
      · exact hb

/-- **Whatever is done**, the views of the graph are owned. -/
theorem run_owned (hb : b.graph.Owned) (acts : List Act) : (b.run acts).graph.Owned := by
  induction acts generalizing b with
  | nil => exact hb
  | cons act rest ih => exact ih (step_owned hb act)

end Workbench

/-! ## Permuting a tensor -/

namespace Build

/-- The draft of a tensor that is permuted. -/
def permuted (t : Tensor) (node : Node) (positions : List Nat) : Draft :=
  ⟨.permute, picked t.shape positions, node.view.reordered positions, [.tensor t],
    [("axes", .list ((positions.map Number.ofNat).map .number))], none, none, []⟩

variable {g g' : Graph} {t u : Tensor} {axes : List Number}

/-- What has been found for a permutation: the view of the node is reordered, and has to be of
the rank of the tensor. -/
theorem permuted_of_found (found : Found.Permutation g t axes) :
    found.node.view.rank = t.rank ∧ found.draft = permuted t found.node found.positions := by
  have hperm := permutation_perm found.positions_eq
  obtain ⟨others, hothers, hview⟩ := View.permute_eq_ok.mp found.view_eq
  have hrank : found.node.view.rank = t.rank := by
    rw [← Axis.length_of_permutation hothers, List.length_map, Axis.perm_length hperm]
  have hsame : others = found.positions := Axis.permutation_ofNat hothers
  have hshape : found.shape = picked t.shape found.positions :=
    (Axis.pick_eq_ok.mp found.shape_eq).2
  refine ⟨hrank, ?_⟩
  rw [Found.Permutation.draft, permuted, hshape, hview, hsame]

/-- **A tensor is permuted** just if it has a node whose view is of its rank and the axes are
a permutation; its shape and the view are then reordered in the same way. -/
theorem permute_eq_ok : (permute t axes).perform g = (.ok u, g') ↔
    ∃ node positions, g.Behind t node ∧ node.view.rank = t.rank ∧
      permutation (.ofNat t.rank) axes = .ok positions ∧
      u = handle g (picked t.shape positions) ∧
      g' = g.append (permuted t node positions) [node.id] := by
  constructor
  · intro h
    obtain ⟨found, inputs, hinputs, hu, hg⟩ := (permute_derives t axes).of_ok h
    obtain ⟨hrank, hdraft⟩ := permuted_of_found found
    have hbehind : g.Behind t found.node := Graph.check_eq_ok.mp found.node_eq
    have hids : inputs = [found.node.id] := inputs_eq (.cons hbehind .nil) hinputs
    rw [hdraft] at hu hg
    rw [hids] at hg
    exact ⟨found.node, found.positions, hbehind, hrank, found.positions_eq, hu, hg⟩
  · rintro ⟨node, positions, hbehind, hrank, hpositions, rfl, rfl⟩
    have hperm := permutation_perm hpositions
    have hcheck : g.check "permute" t = .ok node := Graph.check_eq_ok.mpr hbehind
    have hshape : Axis.pick t.shape (positions.map .ofNat) = .ok (picked t.shape positions) :=
      Axis.pick_eq_ok.mpr ⟨.of_perm hperm, rfl⟩
    have hview : node.view.permute (positions.map .ofNat) = .ok (node.view.reordered positions) :=
      View.permute_of_perm (hrank ▸ hperm)
    have hranks : (node.view.reordered positions).rank = (picked t.shape positions).length := by
      rw [View.rank_reordered (hrank ▸ hperm), hrank]
      exact (Axis.length_picked_perm hperm).symm
    refine perform_derive_ok ?_
      (show (permuted t node positions).inputs.mapM (g.inputId _) = .ok [node.id] from
        inputs_ok (.cons hbehind .nil))
    simp only [hcheck, hpositions, hshape, hview, bind_eq_ok, pure_eq_ok, Except.ok.injEq,
      exists_eq_left', Draft.start_eq_ok]
    refine ⟨_, ⟨hranks, rfl⟩, ?_⟩
    rw [Draft.setAttribute_of_ne (by decide)]
    rfl

/-- A tensor that is permuted comes to a node that shows its view in the order of the
permutation, as long as that view is owned. -/
theorem permute_made {node : Node} {positions : List Nat} (hbehind : g.Behind t node)
    (howned : node.view.Owned) (hrank : node.view.rank = t.rank)
    (hpositions : permutation (.ofNat t.rank) axes = .ok positions) :
    ∃ g' made, (permute t axes).perform g = (.ok (handle g (picked t.shape positions)), g') ∧
      g'.Behind (handle g (picked t.shape positions)) made ∧
      made.view = node.view.reordered positions :=
  ⟨_, _, permute_eq_ok.mpr ⟨node, positions, hbehind, hrank, hpositions, rfl, rfl⟩,
    g.append_made_behind (permuted t node positions) [node.id],
    View.Owned.settle_eq (View.reordered_owned howned positions) g.size⟩

/-- **A permutation is undone by its inverse**: a tensor that is permuted and permuted back has
its shape, on a node with its view. -/
theorem permute_back (hg : g.Owned) (h : (permute t axes).perform g = (.ok u, g')) :
    ∃ positions w g'' x y, permutation (.ofNat t.rank) axes = .ok positions ∧
      (permute u ((invert positions).map .ofNat)).perform g' = (.ok w, g'') ∧
      w.shape = t.shape ∧ g.view t = .ok x ∧ g''.view w = .ok y ∧ y.same x = true := by
  obtain ⟨node, positions, hbehind, hrank, hpositions, _, _⟩ := permute_eq_ok.mp h
  have hperm := permutation_perm hpositions
  have hviewperm : positions.Perm (List.range node.view.rank) := hrank ▸ hperm
  have howned : node.view.Owned := hg node hbehind.mem
  obtain ⟨g₁, first, hfirst, hbehind', hview⟩ := permute_made hbehind howned hrank hpositions
  obtain ⟨hu, rfl⟩ := Prod.mk.inj (h.symm.trans hfirst)
  obtain rfl := Except.ok.inj hu
  -- the shape that has been reordered has as many axes, so the inverse is accepted for it
  have hlength : (picked t.shape positions).length = t.rank := Axis.length_picked_perm hperm
  have hinverse : permutation (.ofNat (picked t.shape positions).length)
      ((invert positions).map .ofNat) = .ok (invert positions) := by
    rw [hlength]
    exact permutation_of_perm (invert_perm hperm)
  have hfirstrank : first.view.rank = (picked t.shape positions).length := by
    rw [hview, View.rank_reordered hviewperm, hrank, hlength]
  obtain ⟨g₂, second, hsecond, hbehind'', hview'⟩ :=
    permute_made hbehind' (hview ▸ View.reordered_owned howned positions) hfirstrank hinverse
  have hshape : picked (picked t.shape positions) (invert positions) = t.shape :=
    Axis.picked_picked_invert hperm
  have hsame : second.view = node.view := by
    rw [hview', hview, View.reordered_invert hviewperm]
  refine ⟨positions, _, g₂, node.view, second.view, hpositions, hsecond, hshape, hbehind.view_eq,
    hbehind''.view_eq, ?_⟩
  rw [hsame]
  exact howned.same_self

end Build

/-! ## Views and tensors -/

/-- **Permutations act on views and on tensors.**  They compose and are undone on every view
that stands and on the view of every node, however the graph has been built; and a tensor that
is permuted and then permuted by the inverse has its shape again, on a node with an equal
view. -/
theorem permutations_act [Arithmetic] :
    (∀ {v : View}, v.Standing → v.ActedOn) ∧
      ∀ {id : Nat} {settings : GraphSettings} {acts : List Act} {g : Graph},
        ((Workbench.start id settings).run acts).graph = g →
          (∀ node ∈ g.nodes, node.view.ActedOn) ∧
            ∀ {t u : Tensor} {axes : List Number} {g' : Graph},
              (Build.permute t axes).perform g = (.ok u, g') →
                ∃ positions w g'' x y, permutation (.ofNat t.rank) axes = .ok positions ∧
                  (Build.permute u ((invert positions).map .ofNat)).perform g' = (.ok w, g'') ∧
                  w.shape = t.shape ∧ g.view t = .ok x ∧ g''.view w = .ok y ∧
                  y.same x = true := by
  constructor
  · intro v hv
    exact View.actedOn hv.wellFormed hv.owned
  · rintro id settings acts g rfl
    have hsound := (Workbench.run_sound (Workbench.start_sound id settings) acts).1
    have howned := Workbench.run_owned (b := Workbench.start id settings)
      (List.forall_mem_nil _) acts
    refine ⟨fun node hnode => ?_, fun h => Build.permute_back howned h⟩
    exact View.actedOn (hsound.graph.wellFormed node hnode) (howned node hnode)

/-- Three axes are turned and then turned on, which is turning them the other way at once.  A
tensor that has been expanded is turned and turned back. -/
theorem permutations_act_turned :
    let v := (View.contiguous [.symbol "n", .literal 3, .literal 4]).settle 0
    let g := ((Workbench.start 0 ⟨"graph", true, none⟩).run
      [.call [] (.newTensor "x" [.dynamic "n", .constant 3]),
        .call [⟨0, [.dynamic "n", .constant 3], 0⟩] (.expand 0 1 (.constant 5))]).graph
    let t : Tensor := ⟨1, [.dynamic "n", .constant 5, .constant 3], 0⟩
    let u : Tensor := ⟨2, [.constant 5, .constant 3, .dynamic "n"], 0⟩
    (∃ w x, (v.reordered [1, 2, 0]).permute [1, .int (-1), 0] = .ok w ∧
        v.permute [2, 0, 1] = .ok x ∧ w.same x = true) ∧
      ∃ g' w g'' x y, (Build.permute t [1, .int (-1), 0]).perform g = (.ok u, g') ∧
        (Build.permute u [2, 0, 1]).perform g' = (.ok w, g'') ∧ w.shape = t.shape ∧
        g.view t = .ok x ∧ g''.view w = .ok y ∧ y.same x = true := by
  intro v g t u
  have hmade : View.ofQuantities [.size (.symbol "n"), .number 3, .number 4] =
      .ok (View.contiguous [.symbol "n", .literal 3, .literal 4]) := rfl
  have hv : v.Standing := .whole hmade 0
  have hturned : permutation (.ofNat 3) [1, .int (-1), 0] = .ok [1, 2, 0] := rfl
  have hview : v.permute [1, .int (-1), 0] = .ok (v.reordered [1, 2, 0]) := rfl
  have htensor : (Build.permute t [1, .int (-1), 0]).perform g =
      (.ok u, ((Build.permute t [1, .int (-1), 0]).perform g).2) := rfl
  constructor
  · obtain ⟨first, second, w, x, hfirst, hsecond, hw, hx, hsame⟩ :=
      (permutations_act.1 hv).composed hview hview
    obtain rfl := Except.ok.inj (hfirst.symm.trans hturned)
    obtain rfl := Except.ok.inj (hsecond.symm.trans hturned)
    exact ⟨w, x, hw, hx, hsame⟩
  · obtain ⟨positions, w, g'', x, y, hpositions, hw, hshape, hx, hy, hsame⟩ :=
      (permutations_act.2 (g := g) rfl).2 htensor
    obtain rfl := Except.ok.inj (hpositions.symm.trans hturned)
    exact ⟨_, w, g'', x, y, htensor, hw, hshape, hx, hy, hsame⟩

end ShapeGraph
