import ShapeGraph.Proofs.Resolution.Environment
import ShapeGraph.Registry

/-!
# Steps on a registry

What the steps that a call is made of leave in the tables.  Binding several symbols in a table
goes on until one of them fails, so a table may be left with the first of them; the same bindings
made on an environment that stands for itself end alike.

* `Environment.Proper` — every symbol is bound once, and to a size;
* `Environment.Gains` — one binding more at the end, or none;
* `perform_revise`, `perform_bindEach`, `perform_enterEach` — what is left in a table;
* `perform_construct`, `change_cases`, `clone_cases` — what the steps of calls leave.
-/

namespace ShapeGraph

open ShapeGraph.Numeric (Arithmetic Number)

/-! ## Environments -/

/-- A number that a symbol may be bound to: a safe integer that is not negative. -/
def IsSize (value : Number) : Prop :=
  value.isSafe = true ∧ value.lt 0 = false

namespace Environment

variable {env env' : Environment} {symbol : String} {value : Number} {source : Source}

/-- Every symbol is bound once, and to a safe integer that is not negative. -/
structure Proper (env : Environment) : Prop where
  symbols : (env.entries.map Binding.symbol).Nodup
  sizes : ∀ held ∈ env.entries, IsSize held.value

theorem empty_proper : empty.Proper := ⟨List.nodup_nil, fun _ h => nomatch h⟩

/-- At most one binding is new.  It stands at the end, has the value and the source that are
given, and its symbol was free. -/
def Gains (value : Number) (source : Source) (env env' : Environment) : Prop :=
  env' = env ∨ ∃ symbol, env.find? symbol = none ∧ IsSize value ∧
    env' = ⟨env.entries ++ [⟨symbol, value, source⟩]⟩

/-- A binding gains one entry at most. -/
theorem bind_gains (h : env.bind symbol value source = .ok env') : env.Gains value source env' := by
  obtain ⟨hsize, ⟨_, _, _, hsame⟩ | ⟨hfree, hnew⟩⟩ := bind_cases h
  · exact .inl hsame
  · exact .inr ⟨symbol, hfree, hsize, hnew⟩

/-- **Binding succeeds** just if the value is a size and the symbol is free or has it already. -/
theorem bind_succeeds_iff (source : Source) :
    (∃ env', env.bind symbol value source = .ok env') ↔
      IsSize value ∧ ∀ held, env.find? symbol = some held → held.value = value := by
  constructor
  · rintro ⟨env', h⟩
    obtain ⟨hsize, ⟨held, hheld, hvalue, _⟩ | ⟨hfree, _⟩⟩ := bind_cases h
    · exact ⟨hsize, fun other hother => Option.some.inj (hheld.symm.trans hother) ▸ hvalue⟩
    · exact ⟨hsize, fun other hother => nomatch hfree.symm.trans hother⟩
  · rintro ⟨⟨hsafe, hnonneg⟩, hsame⟩
    unfold bind
    rw [if_pos (by simp [hsafe, hnonneg])]
    cases hfound : env.find? symbol with
    | none => exact ⟨_, rfl⟩
    | some held => exact ⟨env, if_pos (hsame held hfound)⟩

/-- A symbol that has been bound to a value has it. -/
theorem get?_of_bind (h : env.bind symbol value source = .ok env') :
    env'.get? symbol = some value := by
  obtain ⟨_, ⟨held, hheld, hvalue, rfl⟩ | ⟨hfree, rfl⟩⟩ := bind_cases h
  · rw [get?, hheld, Option.map_some, hvalue]
  · have hnone : env.get? symbol = none := by rw [get?, hfree, Option.map_none]
    rw [get?_append, hnone, Option.none_or, if_pos rfl]

/-- Unification gains one entry at most. -/
theorem unify_gains [Arithmetic] {size : Size} {relation : String}
    (h : env.unify size value relation source = .ok env') : env.Gains value source env' := by
  obtain ⟨pending, _, h⟩ := bind_eq_ok.mp h
  cases pending with
  | literal known =>
      obtain ⟨_, rfl⟩ := ite_ok_eq_ok.mp h
      exact .inl rfl
  | symbol name => exact bind_gains h
  | binary op l r => cases h

/-- A gain keeps all entries where they are. -/
theorem Gains.keeps (h : env.Gains value source env') : env.entries <+: env'.entries := by
  rcases h with rfl | ⟨symbol, _, _, rfl⟩
  · exact List.prefix_refl _
  · exact List.prefix_append _ _

/-- A symbol that is not found has no binding. -/
theorem find?_eq_none : env.find? symbol = none ↔ symbol ∉ env.entries.map Binding.symbol := by
  simp [find?]

/-- A gain keeps an environment proper: what is new is a size under a name that was free. -/
theorem Gains.proper (h : env.Gains value source env') (henv : env.Proper) : env'.Proper := by
  rcases h with rfl | ⟨symbol, hfree, hsize, rfl⟩
  · exact henv
  · constructor
    · rw [List.map_append, List.map_singleton, (List.perm_append_singleton _ _).nodup_iff]
      exact List.nodup_cons.mpr ⟨find?_eq_none.mp hfree, henv.symbols⟩
    · intro held hheld
      rcases List.mem_append.mp hheld with hold | hnew
      · exact henv.sizes held hold
      · obtain rfl := List.mem_singleton.mp hnew
        exact hsize

/-- Binding what a caller gives finds just that binding or appends it. -/
theorem bind_given {entry : String × Number} (hgiven : ∀ held ∈ env.entries, held.source = .explicit)
    (h : env.bind entry.1 entry.2 .explicit = .ok env') :
    (given entry ∈ env.entries ∧ env' = env) ∨
      (given entry ∉ env.entries ∧ env' = ⟨env.entries ++ [given entry]⟩) := by
  obtain ⟨_, ⟨held, hheld, hvalue, hsame⟩ | ⟨hfree, hnew⟩⟩ := bind_cases h
  · have hmem := List.mem_of_find?_eq_some hheld
    have hsymbol : held.symbol = entry.1 := by simpa using List.find?_some hheld
    have hentry : given entry = held := by
      rw [given, ← hsymbol, ← hvalue, ← hgiven held hmem]
    exact .inl ⟨hentry ▸ hmem, hsame⟩
  · refine .inr ⟨fun hmem => ?_, hnew⟩
    exact find?_eq_none.mp hfree (List.mem_map_of_mem hmem)

/-- **What callers give** is bound in the order in which it is given first. -/
theorem bindAll_entries {initial : Bindings}
    (hgiven : ∀ held ∈ env.entries, held.source = .explicit)
    (h : env.bindAll initial = .ok env') :
    env'.entries =
      env.entries ++ ((initial.map given).filter fun held => held ∉ env.entries).eraseDups := by
  induction initial generalizing env with
  | nil =>
      obtain rfl := Except.ok.inj h
      simp
  | cons entry rest ih =>
      obtain ⟨next, hnext, hrest⟩ := bind_eq_ok.mp h
      rcases bind_given hgiven hnext with ⟨hmem, rfl⟩ | ⟨hfresh, rfl⟩
      · rw [ih hgiven hrest, List.map_cons, List.filter_cons_of_neg (by simpa using hmem)]
      · have hgiven' : ∀ held ∈ env.entries ++ [given entry], held.source = .explicit := by
          simpa [or_imp, forall_and, given] using hgiven
        have hlater : ((rest.map given).filter fun held => held ∉ env.entries ++ [given entry]) =
            ((rest.map given).filter fun held => held ∉ env.entries).filter
              fun held => !held == given entry := by
          rw [List.filter_filter]
          congr 1
          funext held
          by_cases hsame : held = given entry <;> simp [hsame]
        rw [ih hgiven' hrest, List.map_cons, List.filter_cons_of_pos (by simpa using hfresh),
          List.eraseDups_cons, hlater, List.append_assoc]
        rfl

/-- The entries of an environment that is made of bindings are those, each of them once. -/
theorem ofBindings_entries {initial : Bindings} (h : ofBindings initial = .ok env) :
    env.entries = (initial.map given).eraseDups := by
  have hall := bindAll_entries (by simp [empty]) h
  simpa [empty] using hall

/-- What is found stays found when bindings follow. -/
theorem find?_of_prefix (h : env.entries <+: env'.entries) {held : Binding}
    (hheld : env.find? symbol = some held) : env'.find? symbol = some held := by
  obtain ⟨more, hmore⟩ := h
  rw [find?, ← hmore, List.find?_append, ← find?, hheld, Option.some_or]

end Environment

/-- A binding of a free symbol is entered at the end. -/
theorem Binding.enter_of_free {binding : Binding} {entries : List Binding}
    (h : binding.symbol ∉ entries.map Binding.symbol) :
    binding.enter entries = entries ++ [binding] := by
  induction entries with
  | nil => rfl
  | cons held rest ih =>
      simp only [List.map_cons, List.mem_cons, not_or] at h
      rw [enter, if_neg (Ne.symm h.1), ih h.2]
      rfl

/-! ## Steps -/

namespace Registry

section

variable {α β : Type} {r r' : Registry}

/-- What comes after a step that succeeds goes on from the registry that the step has left. -/
theorem perform_bind_ok {step : Step α} {a : α} (h : step.perform r = (.ok a, r'))
    (next : α → Step β) : (step >>= next).perform r = (next a).perform r' := by
  show (ExceptT.bindCont next (step.perform r).1) (step.perform r).2 = _
  rw [h]
  rfl

/-- Nothing comes after a step that fails. -/
theorem perform_bind_error {step : Step α} {fault : Fault}
    (h : step.perform r = (.error fault, r')) (next : α → Step β) :
    (step >>= next).perform r = (.error fault, r') := by
  show (ExceptT.bindCont next (step.perform r).1) (step.perform r).2 = _
  rw [h]
  rfl

/-- A reading that fails leaves the registry, and what follows one that succeeds decides. -/
theorem read_cases (f : Registry → Except Fault α) (next : α → Step β) (r : Registry) :
    (∃ fault, (Step.read f >>= next).perform r = (.error fault, r)) ∨
      ∃ a, f r = .ok a ∧ (Step.read f >>= next).perform r = (next a).perform r := by
  cases hf : f r with
  | error fault => exact .inl ⟨fault, perform_bind_error (congrArg (·, r) hf) next⟩
  | ok a => exact .inr ⟨a, rfl, perform_bind_ok (congrArg (·, r) hf) next⟩

end

variable {r : Registry} {place table : Nat} {env : Environment}

/-- The table of an environment is found if it has been issued. -/
theorem tableOf_eq_ok : r.tableOf place = .ok table ↔ r.issued[place]? = some table := by
  unfold tableOf
  cases r.issued[place]? <;> simp

/-- The contents of a table are found if the table is there. -/
theorem contents_eq_ok : r.contents table = .ok env ↔ r.tables[table]? = some env := by
  unfold contents
  cases r.tables[table]? <;> simp

/-- An environment in use is what its table holds. -/
theorem env?_eq_some :
    r.env? place = some env ↔ ∃ table, r.issued[place]? = some table ∧ r.tables[table]? = some env :=
  Option.bind_eq_some_iff

/-- What is put in a table is replaced by what is put there afterwards. -/
theorem put_put (r : Registry) (table : Nat) (env env' : Environment) :
    (r.put table env).put table env' = r.put table env' := by
  simp [put]

/-- A table may be put where it is. -/
theorem put_self (h : r.tables[table]? = some env) : r.put table env = r := by
  obtain ⟨hlt, rfl⟩ := List.getElem?_eq_some_iff.mp h
  simp [put]

/-- What is put in a table is found there. -/
theorem tables_put (h : r.tables[table]? = some env) (env' : Environment) :
    (r.put table env').tables[table]? = some env' := by
  have hlt := (List.getElem?_eq_some_iff.mp h).1
  simp [put, hlt]

/-- Revising a table replaces what it holds if the change goes through, and leaves the registry
alone if it fails. -/
theorem perform_revise_ok (h : r.tables[table]? = some env)
    {f : Environment → Except Fault Environment} {env' : Environment} (hf : f env = .ok env') :
    (revise table f).perform r = (.ok (), r.put table env') := by
  have hread : (Step.read fun r => do f (← r.contents table)).perform r = (.ok env', r) :=
    congrArg (·, r) (bind_eq_ok.mpr ⟨env, contents_eq_ok.mpr h, hf⟩)
  exact perform_bind_ok hread _

/-- A revision that fails leaves all tables alone. -/
theorem perform_revise_error (h : r.tables[table]? = some env)
    {f : Environment → Except Fault Environment} {fault : Fault} (hf : f env = .error fault) :
    (revise table f).perform r = (.error fault, r) := by
  have hread : (Step.read fun r => do f (← r.contents table)).perform r = (.error fault, r) :=
    congrArg (·, r) (bind_eq_error.mpr (.inr ⟨env, contents_eq_ok.mpr h, hf⟩))
  exact perform_bind_error hread _

/-- **Binding in a table** ends as binding on its own does.  It leaves something proper in the
table, and all that has been bound if it succeeds. -/
theorem perform_bindEach (h : r.tables[table]? = some env) (henv : env.Proper)
    (initial : Bindings) :
    ∃ env', env'.Proper ∧ (∀ bound, env.bindAll initial = .ok bound → env' = bound) ∧
      (bindEach table initial).perform r =
        ((env.bindAll initial).map fun _ => (), r.put table env') := by
  induction initial generalizing r env with
  | nil =>
      refine ⟨env, henv, fun bound hbound => Except.ok.inj hbound, ?_⟩
      rw [put_self h]
      rfl
  | cons entry rest ih =>
      obtain ⟨symbol, value⟩ := entry
      cases hbind : env.bind symbol value .explicit with
      | error fault =>
          -- nothing has been written in this table since it was `env`
          have hall : env.bindAll ((symbol, value) :: rest) = .error fault :=
            bind_eq_error.mpr (.inl hbind)
          refine ⟨env, henv, fun bound hbound => ?_, ?_⟩
          · cases hall.symm.trans hbound
          · rw [hall, put_self h]
            exact perform_bind_error (perform_revise_error h hbind) _
      | ok next =>
          have hall : env.bindAll ((symbol, value) :: rest) = next.bindAll rest := by
            rw [Environment.bindAll, hbind]
            rfl
          have hnext := (Environment.bind_gains hbind).proper henv
          obtain ⟨env', hproper, hbound, hrest⟩ := ih (tables_put h next) hnext
          refine ⟨env', hproper, fun bound => hall ▸ hbound bound, ?_⟩
          rw [hall, ← put_put r table next env', ← hrest]
          exact perform_bind_ok (perform_revise_ok h hbind) _

/-- **Entering bindings in a table** appends them, if no symbol has two. -/
theorem perform_enterEach (h : r.tables[table]? = some env) {bindings : List Binding}
    (hsymbols : ((env.entries ++ bindings).map Binding.symbol).Nodup) :
    (enterEach table bindings).perform r =
      (.ok (), r.put table ⟨env.entries ++ bindings⟩) := by
  induction bindings generalizing r env with
  | nil =>
      rw [List.append_nil, put_self h]
      rfl
  | cons binding rest ih =>
      have hfree : binding.symbol ∉ env.entries.map Binding.symbol := by
        intro hmem
        rw [List.map_append, List.nodup_append] at hsymbols
        exact hsymbols.2.2 _ hmem _ (List.mem_map_of_mem List.mem_cons_self) rfl
      have hlist : env.entries ++ binding :: rest = env.entries ++ [binding] ++ rest := by simp
      rw [hlist] at hsymbols ⊢
      have hentered : (revise table fun env => .ok ⟨binding.enter env.entries⟩).perform r =
          (.ok (), r.put table ⟨env.entries ++ [binding]⟩) :=
        perform_revise_ok h (by rw [Binding.enter_of_free hfree])
      have hrest := ih (tables_put h ⟨env.entries ++ [binding]⟩) hsymbols
      rw [put_put] at hrest
      exact (perform_bind_ok hentered _).trans hrest

/-! ## Calls -/

/-- A registry with one table more. -/
def withTable (r : Registry) (env : Environment) : Registry :=
  { r with tables := r.tables ++ [env] }

/-- A registry with one environment more, in a table of its own. -/
def withNew (r : Registry) (env : Environment) : Registry :=
  ⟨r.tables ++ [env], r.issued ++ [r.tables.length]⟩

theorem tables_withTable (r : Registry) (env : Environment) :
    (r.withTable env).tables[r.tables.length]? = some env :=
  List.getElem?_concat_length

/-- A new table may be made with its contents at once. -/
theorem withTable_put (r : Registry) (env env' : Environment) :
    (r.withTable env).put r.tables.length env' = r.withTable env' := by
  simp [withTable, put]

/-- Allocation adds an empty table. -/
theorem perform_allocate (r : Registry) :
    allocate.perform r = (.ok r.tables.length, r.withTable .empty) := rfl

/-- **A construction** ends as the bindings given do on their own.  It leaves a table in any case,
and an environment if all of them can be made. -/
theorem construct_cases (r : Registry) (initial : Bindings) :
    (∃ fault env, env.Proper ∧ Environment.ofBindings initial = .error fault ∧
        (construct initial).perform r = (.error fault, r.withTable env)) ∨
      ∃ env, env.Proper ∧ Environment.ofBindings initial = .ok env ∧
        (construct initial).perform r = (.ok (), r.withNew env) := by
  obtain ⟨env, hproper, hbound, hbinds⟩ :=
    perform_bindEach (tables_withTable r .empty) Environment.empty_proper initial
  rw [withTable_put] at hbinds
  have hstart : (construct initial).perform r =
      (bindEach r.tables.length initial >>= fun _ => issue r.tables.length).perform
        (r.withTable .empty) := perform_bind_ok (perform_allocate r) _
  cases hall : Environment.ofBindings initial with
  | error fault =>
      have hall' : Environment.empty.bindAll initial = .error fault := hall
      rw [hall'] at hbinds
      exact .inl ⟨fault, env, hproper, rfl, hstart.trans (perform_bind_error hbinds _)⟩
  | ok bound =>
      have hall' : Environment.empty.bindAll initial = .ok bound := hall
      obtain rfl := hbound bound hall'
      rw [hall'] at hbinds
      exact .inr ⟨env, hproper, rfl, hstart.trans (perform_bind_ok hbinds _)⟩

/-- **A change** goes through on an environment in use, in its table, or leaves the registry
alone. -/
theorem change_cases (r : Registry) (place : Nat) (f : Environment → Except Fault Environment) :
    (∃ fault, (change place f).perform r = (.error fault, r)) ∨
      ∃ table env env', r.issued[place]? = some table ∧ r.tables[table]? = some env ∧
        f env = .ok env' ∧ (change place f).perform r = (.ok (), r.put table env') := by
  rcases read_cases (fun r => r.tableOf place) (fun table => revise table f) r with
    ⟨fault, hfailed⟩ | ⟨table, htable, hrevise⟩
  · exact .inl ⟨fault, hfailed⟩
  · rcases read_cases (fun r => do f (← r.contents table))
      (fun changed => Step.write fun r => ((), r.put table changed)) r with
      ⟨fault, hfailed⟩ | ⟨env', hchanged, hwritten⟩
    · exact .inl ⟨fault, hrevise.trans hfailed⟩
    · obtain ⟨env, hcontents, hf⟩ := bind_eq_ok.mp hchanged
      exact .inr ⟨table, env, env', tableOf_eq_ok.mp htable, contents_eq_ok.mp hcontents, hf,
        hrevise.trans hwritten⟩

/-- A change of an environment in use ends as it does on what the environment is now. -/
theorem perform_change (h : r.env? place = some env) (f : Environment → Except Fault Environment) :
    ((change place f).perform r).1 = (f env).map (fun _ => ()) ∧
      ∀ env', f env = .ok env' → ((change place f).perform r).2.env? place = some env' := by
  obtain ⟨table, htable, hcontents⟩ := env?_eq_some.mp h
  have hread : (Step.read fun r => r.tableOf place).perform r = (.ok table, r) :=
    congrArg (·, r) (tableOf_eq_ok.mpr htable)
  have hstart : (change place f).perform r = (revise table f).perform r := perform_bind_ok hread _
  cases hf : f env with
  | error fault =>
      rw [hstart, perform_revise_error hcontents hf]
      exact ⟨rfl, fun env' henv' => nomatch henv'⟩
  | ok changed =>
      rw [hstart, perform_revise_ok hcontents hf]
      refine ⟨rfl, fun env' henv' => ?_⟩
      obtain rfl := Except.ok.inj henv'
      exact env?_eq_some.mpr ⟨table, htable, tables_put hcontents changed⟩

/-- **A clone** of an environment in use is another one with the same bindings. -/
theorem perform_clone (h : r.env? place = some env) (henv : env.Proper) :
    (clone place).perform r = (.ok (), r.withNew env) := by
  obtain ⟨table, htable, hcontents⟩ := env?_eq_some.mp h
  have hheld : (Step.read fun r => do r.contents (← r.tableOf place)).perform r = (.ok env, r) :=
    congrArg (·, r) (bind_eq_ok.mpr ⟨table, tableOf_eq_ok.mpr htable, contents_eq_ok.mpr hcontents⟩)
  have hentered := perform_enterEach (tables_withTable r .empty) henv.symbols
  rw [withTable_put] at hentered
  exact ((perform_bind_ok hheld _).trans (perform_bind_ok (perform_allocate r) _)).trans
    (perform_bind_ok hentered _)

/-- Nothing is cloned that is not in use. -/
theorem perform_clone_error (h : r.env? place = none) :
    ∃ fault, (clone place).perform r = (.error fault, r) := by
  rcases read_cases (fun r => do r.contents (← r.tableOf place)) _ r with hfailed | ⟨env, hheld, _⟩
  · exact hfailed
  · obtain ⟨table, htable, hcontents⟩ := bind_eq_ok.mp hheld
    have hsome := env?_eq_some.mpr ⟨table, tableOf_eq_ok.mp htable, contents_eq_ok.mp hcontents⟩
    cases h.symm.trans hsome

end Registry

end ShapeGraph
