import ShapeGraph.Proofs.Graph.Derivation
import ShapeGraph.Proofs.Graph.Names

/-!
# Symbols of their own

An axis of a leaf that is anonymous, and for which no size is declared, gets a symbol of its own.
It is made of the id that the leaf is going to have and of the axis, and begins with a sign that
callers are expected to leave alone.  The id is read off the length of the graph before the leaf is
there, so that the symbol is new rests on ids being places, and on the text of a symbol giving its
id and its axis back.

* `localSymbol_inj` — symbols of different axes differ;
* `declaredSizes_among`, `declaredSizes_open` — which symbols the sizes of a leaf have;
* `Graph.Owns` — an anonymous axis whose length is the symbol of its own;
* `Graph.Known` — the symbols at a place: those that are supplied, and those of leaves up to there;
* `Graph.Sourced` — the invariant: every node and every equality keeps to the symbols at its
  place;
* `append_sourced`, `relying_sourced` — a change keeps the invariant.
-/

namespace ShapeGraph

open ShapeGraph.Numeric (Arithmetic Number isDigit_of_mem_toDigits toDigits_inj)

/-! ## The text of a symbol -/

/-- The name begins like the symbols that belong to an axis. -/
def Reserved (name : String) : Prop :=
  name.toList.head? = some '%'

instance : DecidablePred Reserved :=
  fun name => inferInstanceAs (Decidable (name.toList.head? = some '%'))

/-- The symbol of an axis is a percent sign, the id, a point and the axis in decimal. -/
theorem localSymbol_toList (id axis : Nat) :
    (localSymbol (.ofNat id) (.ofNat axis)).toList =
      '%' :: (Nat.toDigits 10 id ++ '.' :: Nat.toDigits 10 axis) := by
  have htext : ∀ n : Nat, (Number.ofNat n).text.toList = Nat.toDigits 10 n :=
    Number.toList_text_natCast
  simp [localSymbol, htext]

/-- The symbol of an axis begins as symbols of axes do. -/
theorem localSymbol_reserved (id axis : Nat) :
    Reserved (localSymbol (.ofNat id) (.ofNat axis)) := by
  rw [Reserved, localSymbol_toList]
  rfl

/-- **A symbol tells its id and its axis**, as no digit is the point between them. -/
theorem localSymbol_inj {id axis id' axis' : Nat}
    (h : localSymbol (.ofNat id) (.ofNat axis) = localSymbol (.ofNat id') (.ofNat axis')) :
    id = id' ∧ axis = axis' := by
  have hpoint : ∀ n : Nat, '.' ∉ Nat.toDigits 10 n := by
    intro n hmem
    exact absurd (isDigit_of_mem_toDigits hmem) (by decide)
  have hlist := congrArg String.toList h
  rw [localSymbol_toList, localSymbol_toList, List.cons_inj_right,
    List.append_cons_inj_of_notMem (hpoint id) (hpoint axis)] at hlist
  obtain ⟨hid, _, haxis⟩ := hlist
  exact ⟨toDigits_inj hid, toDigits_inj haxis⟩

/-! ## The sizes of leaves -/

section

variable {P : String → Prop} {id axis : Nat} {dims : Shape} {declared : List (Option Quantity)}
  {sizes : List Size} {equalities : List Equality}

/-- An input is sized like a host computation for which nothing is declared. -/
theorem declaredSizes_of_leafSizes (h : leafSizes id axis dims = .ok sizes) :
    declaredSizes id axis dims [] = .ok (sizes, []) := by
  induction dims generalizing axis sizes with
  | nil =>
      obtain rfl := Except.ok.inj h
      rfl
  | cons dim dims ih =>
      simp only [leafSizes, bind_eq_ok, pure_eq_ok] at h
      obtain ⟨own, hown, rest, hrest, rfl⟩ := h
      simp only [declaredSizes, hown, List.head?_nil, Option.join_none, List.tail_nil, ih hrest]
      rfl

/-- The sizes of a leaf have the symbols of its shape, of what is declared for it, and of their
own. -/
theorem declaredSizes_among (hdims : dims.Among P)
    (hdeclared : ∀ q, some q ∈ declared → ∀ name ∈ q.names, P name)
    (hnew : ∀ k : Nat, dims[k]? = some .anonymous → declared[k]?.join = none →
      P (localSymbol (.ofNat id) (.ofNat (axis + k))))
    (h : declaredSizes id axis dims declared = .ok (sizes, equalities)) :
    ∀ s ∈ sizes, s.Among P := by
  induction dims generalizing axis declared sizes equalities with
  | nil =>
      obtain ⟨rfl, _⟩ := Prod.mk.inj (Except.ok.inj h)
      exact List.forall_mem_nil _
  | cons dim dims ih =>
      obtain ⟨hdim, hrest⟩ := List.forall_mem_cons.mp hdims
      obtain ⟨size, first, rest, others, hsize, hothers, rfl, rfl⟩ := declaredSizes_cons_ok h
      have hlater : ∀ k : Nat, dims[k]? = some .anonymous → declared.tail[k]?.join = none →
          P (localSymbol (.ofNat id) (.ofNat (axis + 1 + k))) := by
        intro k hk hnone
        rw [List.getElem?_tail] at hnone
        rw [show axis + 1 + k = axis + (k + 1) by omega]
        exact hnew (k + 1) hk hnone
      have hothers := ih hrest (fun q hq => hdeclared q (List.mem_of_mem_tail hq)) hlater hothers
      refine List.forall_mem_cons.mpr ⟨?_, hothers⟩
      cases hsize with
      | own _ hown => exact hdim.size hown
      | new hnone hown =>
          obtain rfl := Dimension.eq_anonymous hown
          rw [List.head?_eq_getElem?] at hnone
          exact Size.among_symbol (hnew 0 rfl hnone)
      | given hheld hmeant _ => exact Quantity.among (hdeclared _ (mem_of_head_join hheld)) hmeant
      | compared hheld hmeant _ _ =>
          exact Quantity.among (hdeclared _ (mem_of_head_join hheld)) hmeant

/-- **An anonymous axis without a declared size** gets its symbol. -/
theorem declaredSizes_open (h : declaredSizes id axis dims declared = .ok (sizes, equalities))
    {k : Nat} (hdim : dims[k]? = some .anonymous) (hnone : declared[k]?.join = none) :
    sizes[k]? = some (.symbol (localSymbol (.ofNat id) (.ofNat (axis + k)))) := by
  induction dims generalizing axis declared sizes equalities k with
  | nil => cases hdim
  | cons dim dims ih =>
      obtain ⟨size, first, rest, others, hsize, hothers, rfl, rfl⟩ := declaredSizes_cons_ok h
      cases k with
      | zero =>
          obtain rfl := Option.some.inj hdim
          rw [← List.head?_eq_getElem?] at hnone
          cases hsize with
          | own _ hown => cases hown
          | new => rfl
          | given hheld => cases hheld.symm.trans hnone
          | compared hheld => cases hheld.symm.trans hnone
      | succ k =>
          rw [← List.getElem?_tail] at hnone
          have hlater := ih hothers hdim hnone
          rwa [show axis + 1 + k = axis + (k + 1) by omega] at hlater

end

/-! ## Where symbols are from -/

/-- The leaf of an id has an anonymous axis whose length is the symbol of its own. -/
def Graph.Owns (g : Graph) (id axis : Nat) : Prop :=
  ∃ node, g.nodes[id]? = some node ∧ (node.kind = .input ∨ node.kind = .function) ∧
    node.shape[axis]? = some .anonymous ∧
    node.view.axes[axis]? =
      some (.whole (.symbol (localSymbol (.ofNat id) (.ofNat axis))) false)

/-- The symbols at a place: those that are supplied, and those of the leaves up to there. -/
def Graph.Known (supplied : String → Prop) (g : Graph) (place : Nat) (name : String) : Prop :=
  supplied name ∨ ∃ id axis, id ≤ place ∧ g.Owns id axis ∧
    name = localSymbol (.ofNat id) (.ofNat axis)

/-- All symbols of both sides have a property. -/
structure Equality.Among (P : String → Prop) (e : Equality) : Prop where
  left : e.left.Among P
  right : e.right.Among P

/-- What is true of the symbols of both sides may be weakened. -/
theorem Equality.Among.mono {P Q : String → Prop} {e : Equality} (h : e.Among P)
    (hPQ : ∀ name, P name → Q name) : e.Among Q :=
  ⟨h.left.mono hPQ, h.right.mono hPQ⟩

/-- A node is numbered by its place and keeps to the symbols there; an input has the view that its
shape gives it. -/
structure Node.Sourced (supplied : String → Prop) (g : Graph) (place : Nat) (node : Node) :
    Prop where
  id_eq : node.id = place
  shape : node.shape.Among supplied
  view : node.view.Among (g.Known supplied place)
  leaf : node.kind = .input → ∃ sizes, leafSizes place 0 node.shape = .ok sizes ∧
    node.view = (View.contiguous sizes).settle place

/-- All nodes, and all equalities on them, keep to the symbols at their places. -/
structure Graph.Sourced (supplied : String → Prop) (g : Graph) : Prop where
  nodes : ∀ (place : Nat) (node : Node), g.nodes[place]? = some node →
    node.Sourced supplied g place
  obligations : ∀ o ∈ g.obligations, ∃ place, o.node = .ofNat place ∧
    o.equality.Among (g.Known supplied place)

/-- A draft keeps to the symbols that there are once it is appended. -/
structure Draft.Sourced (supplied : String → Prop) (g : Graph) (draft : Draft) : Prop where
  shape : draft.shape.Among supplied
  view : ∀ inputs, draft.view.Among ((g.append draft inputs).Known supplied g.size)
  equalities : ∃ equalities : List Equality, draft.pending = equalities.map Equality.pending ∧
    ∀ inputs, ∀ e ∈ equalities, e.Among ((g.append draft inputs).Known supplied g.size)
  leaf : draft.kind = .input → ∃ sizes, leafSizes g.size 0 draft.shape = .ok sizes ∧
    draft.view = .contiguous sizes

section

variable {supplied : String → Prop} {g g' : Graph}

namespace Graph

/-- An axis of a leaf keeps its own symbol when the graph grows. -/
theorem Owns.later {id axis : Nat} (h : g.Owns id axis) (hg : g'.Continues g) :
    g'.Owns id axis := by
  obtain ⟨node, hnode, hleaf⟩ := h
  exact ⟨node, hg.node hnode, hleaf⟩

/-- What is known at a place stays known in a larger graph and at a later place. -/
theorem Known.later {place place' : Nat} (hg : g'.Continues g) (hle : place ≤ place')
    (name : String) (h : g.Known supplied place name) : g'.Known supplied place' name := by
  rcases h with hsupplied | ⟨id, axis, hid, howns, hname⟩
  · exact .inl hsupplied
  · exact .inr ⟨id, axis, Nat.le_trans hid hle, howns.later hg, hname⟩

/-- What is supplied is known everywhere. -/
theorem known_of_supplied (place : Nat) (name : String) (h : supplied name) :
    g.Known supplied place name :=
  .inl h

/-- A leaf that is laid out has the symbols of its own that are among its sizes. -/
theorem append_owns {draft : Draft} (hkind : draft.kind = .input ∨ draft.kind = .function)
    {sizes : List Size} (hview : draft.view = .contiguous sizes) {axis : Nat}
    (hdim : draft.shape[axis]? = some .anonymous)
    (hsize : sizes[axis]? = some (.symbol (localSymbol (.ofNat g.size) (.ofNat axis))))
    (inputs : List Nat) : (g.append draft inputs).Owns g.size axis := by
  refine ⟨g.made draft inputs, append_at g draft inputs, hkind, hdim, ?_⟩
  show (draft.view.settle g.size).axes[axis]? = _
  rw [hview]
  exact View.contiguous_settle_at g.size hsize

end Graph

/-- A node keeps to its symbols when the graph grows. -/
theorem Node.Sourced.later {place : Nat} {node : Node} (h : node.Sourced supplied g place)
    (hg : g'.Continues g) : node.Sourced supplied g' place where
  id_eq := h.id_eq
  shape := h.shape
  view := h.view.mono (Graph.Known.later hg le_rfl)
  leaf := h.leaf

namespace Graph

/-- A graph without nodes keeps to any symbols. -/
theorem empty_sourced (id : Nat) (settings : GraphSettings) :
    (empty id settings).Sourced supplied :=
  ⟨(fun _ _ h => nomatch h), List.forall_mem_nil _⟩

/-- **A node that is appended** keeps to the symbols at its place if its draft does. -/
theorem append_sourced (hg : g.Sourced supplied) {draft : Draft} (hdraft : draft.Sourced supplied g)
    (inputs : List Nat) : (g.append draft inputs).Sourced supplied := by
  have hcontinues := append_continues g draft inputs
  constructor
  · intro place node hnode
    rcases append_made_cases hnode with hold | ⟨rfl, rfl⟩
    · exact (hg.nodes place node hold).later hcontinues
    · refine ⟨rfl, hdraft.shape, (hdraft.view inputs).settle g.size, fun hkind => ?_⟩
      obtain ⟨sizes, hsizes, hview⟩ := hdraft.leaf hkind
      exact ⟨sizes, hsizes, congrArg (View.settle g.size) hview⟩
  · obtain ⟨equalities, hpending, hsourced⟩ := hdraft.equalities
    show ∀ o ∈ g.obligations ++ draft.pending.map (Pending.on g.size), _
    rw [hpending, Equality.map_pending_on, List.forall_mem_append, List.forall_mem_map]
    refine ⟨fun o ho => ?_, fun e he => ⟨g.size, rfl, hsourced inputs e he⟩⟩
    obtain ⟨place, hnode, hamong⟩ := hg.obligations o ho
    exact ⟨place, hnode, hamong.mono (Known.later hcontinues le_rfl)⟩

/-- **Equalities that are recorded** on a node keep to its symbols if they do so before. -/
theorem relying_sourced (hg : g.Sourced supplied) {id : Nat} {equalities : List Equality}
    (h : ∀ e ∈ equalities, e.Among (g.Known supplied id)) (line : String) :
    (g.relying id equalities line).Sourced supplied := by
  have hcontinues := relying_continues g id equalities line
  constructor
  · intro place node hnode
    exact (hg.nodes place node hnode).later hcontinues
  · rw [relying_obligations, List.forall_mem_append, List.forall_mem_map]
    refine ⟨fun o ho => ?_, fun e he => ⟨id, rfl, (h e he).mono (Known.later hcontinues le_rfl)⟩⟩
    obtain ⟨place, hnode, hamong⟩ := hg.obligations o ho
    exact ⟨place, hnode, hamong.mono (Known.later hcontinues le_rfl)⟩

/-- The node of an operand is at its id, which is before the next one. -/
theorem Sourced.of_check (hg : g.Sourced supplied) {operation : String} {t : Tensor} {node : Node}
    (h : g.check operation t = .ok node) : node.Sourced supplied g node.id ∧ node.id < g.size := by
  obtain ⟨place, hplace⟩ := List.mem_iff_getElem?.mp (mem_of_check h)
  have hnode := hg.nodes place node hplace
  have hlt : place < g.size := (List.getElem?_eq_some_iff.mp hplace).1
  rw [hnode.id_eq]
  exact ⟨hnode, hlt⟩

/-- The node of an operand keeps to the symbols before the next place. -/
theorem Sourced.view_of_check (hg : g.Sourced supplied) {operation : String} {t : Tensor}
    {node : Node} (h : g.check operation t = .ok node) :
    node.view.Among (g.Known supplied g.size) := by
  obtain ⟨hnode, hlt⟩ := hg.of_check h
  exact hnode.view.mono (Known.later (.refl g) (Nat.le_of_lt hlt))

/-- So do the lengths of an operand. -/
theorem Sourced.lengths [Arithmetic] (hg : g.Sourced supplied) {t : Tensor} {lengths : List Size}
    (h : g.lengths t = .ok lengths) : ∀ s ∈ lengths, s.Among (g.Known supplied g.size) := by
  simp only [Graph.lengths, Graph.view, bind_eq_ok, pure_eq_ok] at h
  obtain ⟨_, ⟨node, hnode, rfl⟩, hlengths⟩ := h
  exact (hg.view_of_check hnode).lengths hlengths

end Graph

end

end ShapeGraph
