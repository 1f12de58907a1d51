import ShapeGraph.Proofs.Graph.Provenance
import ShapeGraph.Proofs.Registry.Solving
import ShapeGraph.Proofs.Resolution.Walk

/-!
# Anonymous axes are independent

The symbols that leaves make for their anonymous axes are all different, callers do not use them,
and no node before a leaf has the symbols of it.  So while a resolution walks the leaves of a graph,
each of them finds its own symbols free and binds them to what it is fed, whatever the leaves before
it were fed.

* `bindAxes_free` — different symbols that are free are bound to whatever sizes are fed;
* `View.resolve_bound` — a view of bound symbols is resolved to their sizes;
* `Node.Open`, `resolveNode_open`, `walk_open` — leaves whose axes are all anonymous resolve to
  the shapes that they are fed;
* `Graph.Confined` — the symbol of an axis occurs from its leaf on only;
* `Session.anonymous_independent` — all of this, whatever is called;
* `Session.anonymous_independent_realized` — but not once an equality is recorded of an axis.
-/

namespace ShapeGraph

open ShapeGraph.Numeric (Arithmetic Number)

/-! ## Symbols that are free -/

/-- A bare symbol that is free is bound to any size. -/
theorem Environment.unify_free {env : Environment} {symbol : String} {value : Number}
    (hvalue : IsSize value) (hfree : env.get? symbol = none) (relation : String) (source : Source) :
    ∃ env', env.unify (.symbol symbol) value relation source = .ok env' ∧
      env'.get? symbol = some value ∧ ∀ other ≠ symbol, env'.get? other = env.get? other := by
  refine ⟨⟨env.entries ++ [⟨symbol, value, source⟩]⟩, ?_, ?_, ?_⟩
  · have hpending : (Size.symbol symbol).substitute env.bindings = .ok (.symbol symbol) := by
      rw [Size.substitute_symbol, get?_bindings, hfree]
    unfold unify
    rw [hpending]
    exact (bind_free_iff hfree).mpr ⟨hvalue, rfl⟩
  · rw [get?_append, hfree, Option.none_or, if_pos rfl]
  · intro other hother
    rw [get?_append, if_neg (Ne.symm hother), Option.or_none]

/-- **Different symbols that are free** are bound to whatever sizes are fed, and no others are. -/
theorem bindAxes_free (name : String) (axis : Nat) {dims : Shape}
    (hdims : ∀ dim ∈ dims, dim = .anonymous) {values : List Number}
    (hvalues : ∀ value ∈ values, IsSize value) (hcount : values.length = dims.length)
    {symbols : List String} (hsymbols : symbols.length = dims.length) (hnodup : symbols.Nodup)
    {env : Environment} (hfree : ∀ symbol ∈ symbols, env.get? symbol = none) :
    ∃ env', bindAxes name axis dims values (symbols.map .symbol) env = .ok env' ∧
      List.Forall₂ (fun symbol value => env'.get? symbol = some value) symbols values ∧
      ∀ other ∉ symbols, env'.get? other = env.get? other := by
  induction dims generalizing axis values symbols env with
  | nil =>
      obtain rfl := List.length_eq_zero_iff.mp hcount
      obtain rfl := List.length_eq_zero_iff.mp hsymbols
      exact ⟨env, rfl, .nil, fun _ _ => rfl⟩
  | cons dim dims ih =>
      obtain ⟨value, values, rfl⟩ := List.exists_cons_of_length_eq_add_one hcount
      obtain ⟨symbol, symbols, rfl⟩ := List.exists_cons_of_length_eq_add_one hsymbols
      obtain ⟨rfl, hrest⟩ := List.forall_mem_cons.mp hdims
      obtain ⟨hvalue, hothers⟩ := List.forall_mem_cons.mp hvalues
      obtain ⟨hsymbol, hlater⟩ := List.forall_mem_cons.mp hfree
      obtain ⟨hnew, hdistinct⟩ := List.nodup_cons.mp hnodup
      obtain ⟨middle, hmiddle, hbound, hsame⟩ :=
        env.unify_free hvalue hsymbol (inputRelation name axis) .input
      have hstill : ∀ other ∈ symbols, middle.get? other = none := by
        intro other hother
        have hne : other ≠ symbol := fun heq => hnew (heq ▸ hother)
        rw [hsame other hne]
        exact hlater other hother
      obtain ⟨env', henv, hall, hkept⟩ :=
        ih (axis + 1) hrest hothers (Nat.succ.inj hcount) (Nat.succ.inj hsymbols) hdistinct hstill
      refine ⟨env', ?_, .cons ?_ hall, ?_⟩
      · simp only [List.map_cons, bindAxes, bind_eq_ok]
        exact ⟨(), rfl, middle, hmiddle, henv⟩
      · rw [hkept symbol hnew]
        exact hbound
      · intro other hother
        obtain ⟨hne, hmem⟩ := not_or.mp (mt List.mem_cons.mpr hother)
        rw [hkept other hmem]
        exact hsame other hne

/-! ## Views of symbols -/

namespace View

variable {symbols : List String}

/-- Storage of symbols has them for lengths. -/
theorem lengths_symbols (symbols : List String) :
    (contiguous (symbols.map .symbol)).lengths = .ok (symbols.map .symbol) := by
  have hintegral : ∀ s ∈ symbols.map Size.symbol, s.Integral :=
    List.forall_mem_map.mpr fun _ _ => trivial
  rw [lengths_eq (contiguous_wellFormed _), shown_contiguous hintegral, List.map_map, List.map_map]
  rfl

/-- Ranges over symbols that are bound are resolved to the whole of their sizes. -/
theorem resolveFrom_bound {env : Environment} {values : List Number} (axis : Nat)
    (h : List.Forall₂ (fun symbol value => env.get? symbol = some value) symbols values)
    (hvalues : ∀ value ∈ values, IsSize value) :
    resolveFrom env.bindings axis ((symbols.map Size.symbol).map fun size => .whole size false) =
      .ok (values.map fun value => ⟨0, value, false⟩) := by
  induction h generalizing axis with
  | nil => rfl
  | @cons symbol value symbols values hbound _ ih =>
      obtain ⟨⟨hsafe, hsign⟩, hothers⟩ := List.forall_mem_cons.mp hvalues
      have hstop : (Size.symbol symbol).evaluate env.bindings = .ok value := by
        simp [Size.evaluate, Size.substitute_symbol, Environment.get?_bindings, hbound, Size.value?]
      have hstart : Size.zero.evaluate env.bindings = .ok 0 := rfl
      simp only [List.map_cons, resolveFrom, AxisRange.whole, hstart, hstop, ok_bind, hsign,
        Bool.or_false]
      have hlater := ih (axis + 1) hothers
      unfold AxisRange.whole at hlater
      rw [if_neg (by decide), hlater]
      rfl

/-- **A view of symbols that are bound** is resolved to their sizes. -/
theorem resolve_bound {env : Environment} {values : List Number}
    (h : List.Forall₂ (fun symbol value => env.get? symbol = some value) symbols values)
    (hvalues : ∀ value ∈ values, IsSize value) :
    ∃ view, (contiguous (symbols.map .symbol)).resolve env.bindings = .ok view ∧
      view.shape = values := by
  have hintegral : ∀ s ∈ symbols.map Size.symbol, s.Integral :=
    List.forall_mem_map.mpr fun _ _ => trivial
  rw [resolve, ranges_eq (contiguous_wellFormed _), ok_bind, shown_contiguous hintegral,
    resolveFrom_bound 0 h hvalues]
  refine ⟨_, rfl, ?_⟩
  show (values.map fun value => (⟨0, value, false⟩ : ConcreteRange)).map
    (fun range => range.stop.sub range.start) = values
  have hsub : ∀ value ∈ values, value.sub 0 = value := by
    intro value hmem
    obtain ⟨hsafe, _⟩ := hvalues value hmem
    obtain ⟨n, rfl⟩ := Number.eq_int_of_isSafe hsafe
    have hless : (Number.int n).sub (.int 0) = .int (n - 0) :=
      Number.sub_int ((Int.sub_zero n).symm ▸ hsafe)
    rwa [Int.sub_zero] at hless
  rw [List.map_map]
  exact (List.map_congr_left hsub).trans (List.map_id' values)

end View

/-! ## Leaves -/

/-- The symbols of the axes of a leaf from `axis` on. -/
def localSymbols (id axis rank : Nat) : List String :=
  (List.range' axis rank).map fun k => localSymbol (.ofNat id) (.ofNat k)

/-- There is one symbol for each axis. -/
theorem length_localSymbols (id axis rank : Nat) : (localSymbols id axis rank).length = rank := by
  simp [localSymbols]

/-- The symbols of a leaf belong to its axes. -/
theorem mem_localSymbols {id axis rank : Nat} {name : String}
    (h : name ∈ localSymbols id axis rank) :
    ∃ k, name = localSymbol (.ofNat id) (.ofNat k) := by
  obtain ⟨k, _, rfl⟩ := List.mem_map.mp h
  exact ⟨k, rfl⟩

/-- No two axes of a leaf have the same symbol. -/
theorem localSymbols_nodup (id axis rank : Nat) : (localSymbols id axis rank).Nodup :=
  List.Pairwise.map _ (fun _ _ hne heq => hne (localSymbol_inj heq).2) (List.nodup_range' 1)

/-- A leaf whose axes are all anonymous has its own symbols for sizes. -/
theorem leafSizes_anonymous {id axis : Nat} {dims : Shape} (h : ∀ dim ∈ dims, dim = .anonymous) :
    leafSizes id axis dims = .ok ((localSymbols id axis dims.length).map .symbol) := by
  induction dims generalizing axis with
  | nil => rfl
  | cons dim dims ih =>
      obtain ⟨rfl, hrest⟩ := List.forall_mem_cons.mp h
      have hanonymous : Dimension.anonymous.size? = .ok none := rfl
      simp only [leafSizes, hanonymous, ok_bind, ih hrest]
      rfl

/-- An input all of whose axes are anonymous, with the symbols of its own. -/
structure Node.Open (place : Nat) (node : Node) : Prop where
  id_eq : node.id = place
  kind : node.kind = .input
  shape : ∀ dim ∈ node.shape, dim = .anonymous
  view : node.view = .contiguous ((localSymbols place 0 node.shape.length).map .symbol)

/-- An input that keeps to its symbols has just those if all of its axes are anonymous. -/
theorem Node.Sourced.open {supplied : String → Prop} {g : Graph} {place : Nat} {node : Node}
    (h : node.Sourced supplied g place) (hkind : node.kind = .input)
    (hshape : ∀ dim ∈ node.shape, dim = .anonymous) : node.Open place := by
  obtain ⟨sizes, hsizes, hview⟩ := h.leaf hkind
  have hintegral := View.contiguous_integral (leafSizes_ok hsizes).1
  rw [leafSizes_anonymous hshape] at hsizes
  obtain rfl := Except.ok.inj hsizes
  exact ⟨h.id_eq, hkind, hshape, hview.trans (hintegral.settle_eq place)⟩

/-- An input is fed a shape of its rank, of sizes and without data. -/
def Node.Fed (inputs : Entries Feed) (node : Node) (shape : List Number) : Prop :=
  inputs.get? (node.name.getD "") = some ⟨shape, none⟩ ∧ shape.length = node.shape.length ∧
    ∀ size ∈ shape, IsSize size

/-- No symbol of a leaf at a place or after it is bound. -/
def Environment.FreeFrom (place : Nat) (env : Environment) : Prop :=
  ∀ id axis, place ≤ id → env.get? (localSymbol (.ofNat id) (.ofNat axis)) = none

/-- **A leaf whose axes are all anonymous** is resolved to the shape that it is fed. -/
theorem resolveNode_open {place : Nat} {node : Node} (hnode : node.Open place)
    {inputs : Entries Feed} {shape : List Number} (hfed : node.Fed inputs shape)
    {env : Environment} (hfree : env.FreeFrom place) (resolved : List ResolvedNode) :
    ∃ env' next, (resolveNode [] inputs node resolved env).outcome = .ok (env', next) ∧
      env'.FreeFrom (place + 1) ∧ next.shape = shape := by
  obtain ⟨hget, hrank, hsizes⟩ := hfed
  have hown : ∀ symbol ∈ localSymbols place 0 node.shape.length, env.get? symbol = none := by
    intro symbol hsymbol
    obtain ⟨k, rfl⟩ := mem_localSymbols hsymbol
    exact hfree place k le_rfl
  obtain ⟨env', hbind, hbound, hkept⟩ :=
    bindAxes_free (node.name.getD ("%" ++ node.id.repr)) 0 hnode.shape hsizes hrank
      (length_localSymbols place 0 _) (localSymbols_nodup place 0 _) hown
  obtain ⟨view, hview, hshape⟩ := View.resolve_bound hbound hsizes
  rw [← hnode.view] at hview
  have hlengths : node.view.lengths =
      .ok ((localSymbols place 0 node.shape.length).map .symbol) := by
    rw [hnode.view, View.lengths_symbols]
  have hinput : bindInput node ⟨shape, none⟩ env = .ok (env', none) := by
    simp only [bindInput, if_neg (not_not.mpr hrank), hlengths, ok_bind, hbind]
    rfl
  have hevaluate : (evaluateNode inputs node resolved env).outcome = .ok (env', none) := by
    simp only [evaluateNode, hnode.kind, hget]
    exact hinput
  refine ⟨env', _, resolveNode_eq_ok.mpr ⟨env', none, view, hevaluate, rfl, hview, rfl⟩, ?_, hshape⟩
  intro id axis hid
  have hother : localSymbol (.ofNat id) (.ofNat axis) ∉ localSymbols place 0 node.shape.length := by
    intro hmem
    obtain ⟨k, hk⟩ := mem_localSymbols hmem
    obtain ⟨rfl, _⟩ := localSymbol_inj hk
    exact Nat.not_succ_le_self id hid
  rw [hkept _ hother]
  exact hfree id axis (Nat.le_of_succ_le hid)

/-- **Leaves whose axes are all anonymous**, one after the other, are resolved to the shapes that
they are fed, whatever these are. -/
theorem walk_open {inputs : Entries Feed} {place : Nat} {nodes : List Node}
    (hnodes : ∀ (k : Nat) (node : Node), nodes[k]? = some node → node.Open (place + k))
    (hfed : ∀ node ∈ nodes, ∃ shape, node.Fed inputs shape)
    {env : Environment} (hfree : env.FreeFrom place) (resolved : List ResolvedNode) :
    ∃ env' walked, (walk [] inputs nodes resolved env).outcome = .ok (env', resolved ++ walked) ∧
      List.Forall₂ (fun node next => node.Fed inputs next.shape) nodes walked := by
  induction nodes generalizing place env resolved with
  | nil => exact ⟨env, [], by rw [List.append_nil]; rfl, .nil⟩
  | cons node rest ih =>
      obtain ⟨⟨shape, hshape⟩, hothers⟩ := List.forall_mem_cons.mp hfed
      obtain ⟨middle, next, hnext, hmiddle, rfl⟩ :=
        resolveNode_open (hnodes 0 node rfl) hshape hfree resolved
      have hlater : ∀ (k : Nat) (node : Node), rest[k]? = some node →
          node.Open (place + 1 + k) := by
        intro k later hk
        rw [show place + 1 + k = place + (k + 1) by omega]
        exact hnodes (k + 1) later hk
      obtain ⟨env', walked, hwalk, hall⟩ := ih hlater hothers hmiddle (resolved ++ [next])
      refine ⟨env', next :: walked, ?_, .cons hshape hall⟩
      rw [walk, Run.outcome_bind, hnext, ok_bind, hwalk, List.append_assoc, List.singleton_append]

/-- **A graph of such leaves** is resolved, each of them to the shape that it is fed, as long as
no relabelling has recorded that their axes equal something. -/
theorem Graph.Sourced.resolve_open {supplied : String → Prop} {g : Graph} (hg : g.Sourced supplied)
    (hleaves : ∀ node ∈ g.nodes, node.kind = .input ∧ ∀ dim ∈ node.shape, dim = .anonymous)
    (hfree : g.obligations = []) {inputs : Entries Feed}
    (hfed : ∀ node ∈ g.nodes, ∃ shape, node.Fed inputs shape) :
    ∃ resolved, (g.resolve ⟨[], inputs⟩).outcome = .ok resolved ∧
      ∀ (place : Nat) (node : Node), g.nodes[place]? = some node →
        ∃ next, resolved.view (.ofNat place) = .ok next ∧ node.Fed inputs next.shape := by
  have hopen : ∀ (k : Nat) (node : Node), g.nodes[k]? = some node → node.Open (0 + k) := by
    intro k node hnode
    obtain ⟨hkind, hshape⟩ := hleaves node (List.mem_of_getElem? hnode)
    rw [Nat.zero_add]
    exact (hg.nodes k node hnode).open hkind hshape
  have hempty : Environment.empty.FreeFrom 0 := fun _ _ _ => rfl
  obtain ⟨env, walked, hwalk, hall⟩ := walk_open hopen hfed hempty []
  rw [← hfree] at hwalk
  refine ⟨⟨env.bindings, walked⟩, ?_, ?_⟩
  · rw [resolve_of_walk rfl hwalk, hfree]
    by_cases hcheck : g.settings.checkObligations = true
    · rw [if_pos hcheck]
      rfl
    · rw [if_neg hcheck]
      rfl
  · intro place node hnode
    obtain ⟨hlt, rfl⟩ := List.getElem?_eq_some_iff.mp hnode
    have hlt' : place < walked.length := hall.length_eq ▸ hlt
    refine ⟨walked[place], ?_, (List.forall₂_iff_get.mp hall).2 place hlt hlt'⟩
    simp [ResolvedGraph.view, hlt']

/-! ## Sessions -/

/-- The symbol of an axis occurs on nodes and equalities from its leaf on only, and in no shape. -/
structure Graph.Confined (g : Graph) (id axis : Nat) : Prop where
  views : ∀ (place : Nat) (node : Node), g.nodes[place]? = some node →
    localSymbol (.ofNat id) (.ofNat axis) ∈ node.view.names → id ≤ place
  obligations : ∀ o ∈ g.obligations,
    localSymbol (.ofNat id) (.ofNat axis) ∈ o.equality.left.names ++ o.equality.right.names →
      ∃ place, o.node = .ofNat place ∧ id ≤ place
  shapes : ∀ node ∈ g.nodes,
    localSymbol (.ofNat id) (.ofNat axis) ∉ node.shape.flatMap Dimension.names

section

variable {supplied : String → Prop} {g : Graph} {id axis : Nat}

/-- Where the symbol of an axis is known, its leaf has been made. -/
theorem Graph.Known.le (hsupplied : ∀ name, supplied name → ¬ Reserved name) {place : Nat}
    (h : g.Known supplied place (localSymbol (.ofNat id) (.ofNat axis))) : id ≤ place := by
  rcases h with hname | ⟨id', axis', hle, _, heq⟩
  · exact absurd (localSymbol_reserved id axis) (hsupplied _ hname)
  · obtain ⟨rfl, _⟩ := localSymbol_inj heq
    exact hle

/-- **Symbols that belong to axes** do not occur before their leaves, if callers leave them
alone. -/
theorem Graph.Sourced.confined (hg : g.Sourced supplied)
    (hsupplied : ∀ name, supplied name → ¬ Reserved name) (id axis : Nat) :
    g.Confined id axis where
  views place node hnode hmem := ((hg.nodes place node hnode).view.of_mem hmem).le hsupplied
  obligations o ho hmem := by
    obtain ⟨place, hnode, hleft, hright⟩ := hg.obligations o ho
    refine ⟨place, hnode, ?_⟩
    rcases List.mem_append.mp hmem with hmem | hmem
    · exact (hleft _ hmem).le hsupplied
    · exact (hright _ hmem).le hsupplied
  shapes node hnode hmem := by
    obtain ⟨place, hplace⟩ := List.mem_iff_getElem?.mp hnode
    obtain ⟨dim, hdim, hname⟩ := List.mem_flatMap.mp hmem
    have hreserved := localSymbol_reserved id axis
    rcases (hg.nodes place node hplace).shape dim hdim with rfl | hnames
    · obtain heq := List.mem_singleton.mp hname
      rw [heq] at hreserved
      exact absurd hreserved (by decide)
    · exact hsupplied _ (hnames _ hname) hreserved

end

namespace Session

/-- **Anonymous axes are independent.**  If callers leave the symbols alone that belong to axes,
every anonymous axis of a leaf without a declared size has one for itself, which no caller names,
and which does not occur before its leaf.  So a graph of leaves whose axes are all anonymous, and
of which no equality is recorded, is resolved for every feed, each axis to the size that it is
fed. -/
theorem anonymous_independent {id : Nat} {settings : GraphSettings} {commands : List Command}
    {s : Session} (hsupplied : ∀ command ∈ commands, ∀ name ∈ command.supplied, ¬ Reserved name)
    (hs : (start id settings).run commands = s) :
    (∀ before command after axis, before ++ command :: after = commands → command.Opens axis →
      ∀ s', ((start id settings).run before).extend command = .ok s' →
        s.graph.Owns ((start id settings).run before).graph.size axis) ∧
      (∀ id axis id' axis', s.graph.Owns id axis → s.graph.Owns id' axis' →
        localSymbol (.ofNat id) (.ofNat axis) = localSymbol (.ofNat id') (.ofNat axis') →
          id = id' ∧ axis = axis') ∧
      (∀ id axis, s.graph.Owns id axis →
        (∀ command ∈ commands, localSymbol (.ofNat id) (.ofNat axis) ∉ command.supplied) ∧
          s.graph.Confined id axis) ∧
      ((∀ node ∈ s.graph.nodes, node.kind = .input ∧ ∀ dim ∈ node.shape, dim = .anonymous) →
        s.graph.obligations = [] →
          ∀ inputs, (∀ node ∈ s.graph.nodes, ∃ shape, node.Fed inputs shape) →
            ∃ resolved, (s.graph.resolve ⟨[], inputs⟩).outcome = .ok resolved ∧
              ∀ (place : Nat) (node : Node), s.graph.nodes[place]? = some node →
                ∃ next, resolved.view (.ofNat place) = .ok next ∧ node.Fed inputs next.shape) := by
  obtain rfl := hs
  have hnames : ∀ name, (∃ command ∈ commands, name ∈ command.supplied) → ¬ Reserved name := by
    intro name hname
    obtain ⟨command, hcommand, hmem⟩ := hname
    exact hsupplied command hcommand name hmem
  have hsourced : ((start id settings).run commands).Sourced fun name =>
      ∃ command ∈ commands, name ∈ command.supplied :=
    run_sourced (start_sourced id settings) fun command hcommand name hmem =>
      ⟨command, hcommand, hmem⟩
  refine ⟨?_, ?_, ?_, ?_⟩
  · intro before command after axis hcommands hopens s' h
    rw [← hcommands]
    exact run_owns hopens h
  · intro id axis id' axis' _ _ heq
    exact localSymbol_inj heq
  · intro id axis _
    refine ⟨fun command hcommand hmem => ?_, hsourced.graph.confined hnames id axis⟩
    exact hsupplied command hcommand _ hmem (localSymbol_reserved id axis)
  · intro hleaves hfree inputs hfed
    exact hsourced.graph.resolve_open hleaves hfree hfed

/-- Two inputs with three anonymous axes. -/
def anonymousPair : List Command :=
  [.newTensor "x" [.anonymous, .anonymous], .newTensor "y" [.anonymous]]

/-- What the two inputs are fed. -/
def pairFeeds : Entries Feed :=
  [("x", ⟨[3, 4], none⟩), ("y", ⟨[5], none⟩)]

/-- All three axes have symbols of their own, and are resolved to the sizes that they are fed. -/
theorem anonymous_independent_pair :
    let s := (start 0 ⟨"graph", true, none⟩).run anonymousPair
    s.graph.Owns 0 0 ∧ s.graph.Owns 0 1 ∧ s.graph.Owns 1 0 ∧ s.graph.Confined 1 0 ∧
      ∃ resolved, (s.graph.resolve ⟨[], pairFeeds⟩).outcome = .ok resolved ∧
        ∃ first second, resolved.view 0 = .ok first ∧ first.shape = [3, 4] ∧
          resolved.view 1 = .ok second ∧ second.shape = [5] := by
  intro s
  have hsupplied : ∀ command ∈ anonymousPair, ∀ name ∈ command.supplied, ¬ Reserved name := by
    decide
  obtain ⟨howns, _, hown, hresolve⟩ := anonymous_independent hsupplied (rfl : _ = s)
  have hfirst : s.graph.Owns 0 0 := howns [] _ _ 0 rfl rfl _ rfl
  have hsecond : s.graph.Owns 0 1 := howns [] _ _ 1 rfl rfl _ rfl
  have hthird : s.graph.Owns 1 0 := howns (anonymousPair.take 1) _ [] 0 rfl rfl _ rfl
  refine ⟨hfirst, hsecond, hthird, (hown 1 0 hthird).2, ?_⟩
  have hfed : ∀ node ∈ s.graph.nodes, ∃ shape, node.Fed pairFeeds shape :=
    List.forall_mem_cons.mpr ⟨⟨[3, 4], rfl, rfl, by unfold IsSize; decide⟩,
      List.forall_mem_singleton.mpr ⟨[5], rfl, rfl, by unfold IsSize; decide⟩⟩
  obtain ⟨resolved, hresolved, hviews⟩ := hresolve (by decide) rfl pairFeeds hfed
  obtain ⟨first, hfirst, hx, _⟩ := hviews 0 _ rfl
  obtain ⟨second, hsecond, hy, _⟩ := hviews 1 _ rfl
  exact ⟨resolved, hresolved, first, second, hfirst,
    (congrArg Feed.shape (Option.some.inj hx)).symm, hsecond,
    (congrArg Feed.shape (Option.some.inj hy)).symm⟩

/-- An input with one anonymous axis, which is realized as three. -/
def realizedLeaf : List Command :=
  [.newTensor "x" [.anonymous], .realize 0 [.constant 3]]

/-- An anonymous axis of which it is recorded that it equals three is not resolved to five,
though there is no other axis, and nobody names its symbol. -/
theorem anonymous_independent_realized :
    let s := (start 0 ⟨"graph", true, none⟩).run realizedLeaf
    let inputs : Entries Feed := [("x", ⟨[5], none⟩)]
    (∀ command ∈ realizedLeaf, ∀ name ∈ command.supplied, ¬ Reserved name) ∧
      (∀ node ∈ s.graph.nodes, node.kind = .input ∧ ∀ dim ∈ node.shape, dim = .anonymous) ∧
      (∀ node ∈ s.graph.nodes, ∃ shape, node.Fed inputs shape) ∧
      (s.graph.resolve ⟨[], inputs⟩).outcome =
        .error (.mismatch
          (.obligation "axis 0 of realize at %0" 5 3 (.symbol "%0.0") (.literal 3))) := by
  refine ⟨by decide, by decide, ?_, rfl⟩
  exact List.forall_mem_singleton.mpr ⟨[5], rfl, rfl, by unfold IsSize; decide⟩

end Session

end ShapeGraph
